import Dotfiles.Proofs.Path.Ordinary

/-!
Joining paths whose components are plain names. Nothing in such a path is
cleaned away or cancelled, so a join only puts components one after another.
-/

namespace Dotfiles.Path

/-- A name that joining never changes: a file can have it, and it is not one or
two dots with a line feed after them. -/
structure IsPlain (name : Name) : Prop where
  ne_nil : name ≠ []
  no_slash : '/' ∉ name
  ne_dot : name ≠ ['.']
  ne_dots : name ≠ ['.', '.']
  not_dotLine : ¬ IsDotLine name

theorem isPlain_iff (name : Name) :
    IsPlain name ↔
      name ≠ [] ∧ '/' ∉ name ∧ name ≠ ['.'] ∧ name ≠ ['.', '.'] ∧ ¬ IsDotLine name :=
  ⟨fun h => ⟨h.ne_nil, h.no_slash, h.ne_dot, h.ne_dots, h.not_dotLine⟩,
    fun ⟨h₁, h₂, h₃, h₄, h₅⟩ => ⟨h₁, h₂, h₃, h₄, h₅⟩⟩

instance (name : Name) : Decidable (IsPlain name) := decidable_of_iff' _ (isPlain_iff name)

theorem IsPlain.isOrdinary {name : Name} (h : IsPlain name) : IsOrdinary name :=
  ⟨h.ne_nil, h.no_slash, h.ne_dot, h.ne_dots⟩

/-- The components of a normal form are plain, a line feed after dots apart. -/
theorem isPlain_of_mem_normalComponents {p : Path} {name : Name}
    (h : name ∈ normalComponents p) (hline : ¬ IsDotLine name) : IsPlain name := by
  obtain ⟨hnil, hdot, hdots, hslash⟩ := mem_normalComponents h
  exact ⟨hnil, hslash, hdot, hdots, hline⟩

/-- A rooted path that is not the root, with plain names for components. It may
repeat slashes and end with them. -/
structure IsPlainRoot (root : Path) : Prop where
  isRooted : Path.isRooted root = true
  ne_nil : components root ≠ []
  plain : ∀ name ∈ components root, IsPlain name
  grounded : IsGrounded (components root)

/-- A relative path that is nothing but plain names with slashes between them. -/
structure IsPlainPath (p : Path) : Prop where
  plain : ∀ name ∈ components p, IsPlain name
  eq : ofSegments (components p) = p

section Components

/-- The components of a path are found again in the rooted path made of them. -/
theorem components_rooted {names : List Name} (h : ∀ name ∈ names, IsPlain name) :
    components (rooted names) = names :=
  components_rooted_ordinary fun name hn => (h name hn).isOrdinary

theorem components_ofSegments_plain {names : List Name} (h : ∀ name ∈ names, IsPlain name) :
    components (ofSegments names) = names :=
  components_ofSegments_ordinary fun name hn => (h name hn).isOrdinary

theorem isPlainPath_ofSegments {names : List Name} (h : ∀ name ∈ names, IsPlain name) :
    IsPlainPath (ofSegments names) := by
  have hc := components_ofSegments_plain h
  refine ⟨?_, ?_⟩
  · rwa [hc]
  · rw [hc]

theorem rooted_inj {a b : List Name} (ha : ∀ name ∈ a, IsPlain name)
    (hb : ∀ name ∈ b, IsPlain name) : rooted a = rooted b ↔ a = b := by
  constructor
  · intro h
    rw [← components_rooted ha, h, components_rooted hb]
  · rintro rfl
    rfl

/-- Plain names that can follow the root make a plain root. -/
theorem isPlainRoot_rooted {names : List Name} (hne : names ≠ [])
    (hn : ∀ name ∈ names, IsPlain name) (hg : IsGrounded names) : IsPlainRoot (rooted names) := by
  have hc := components_rooted hn
  refine ⟨rfl, ?_, ?_, ?_⟩
  · rwa [hc]
  · rwa [hc]
  · rwa [hc]

theorem isPlain_append {a b : List Name} (ha : ∀ name ∈ a, IsPlain name)
    (hb : ∀ name ∈ b, IsPlain name) : ∀ name ∈ a ++ b, IsPlain name := by
  intro name hm
  rcases List.mem_append.1 hm with h | h
  · exact ha name h
  · exact hb name h

theorem isGrounded_append {a b : List Name} (ha : a ≠ []) (hg : IsGrounded a) :
    IsGrounded (a ++ b) :=
  hg.append ha b

end Components

section Joining

/-- Without dots at the end of a path there is nothing to clean away and nothing to cancel. -/
theorem joined_of_isPlain {a b : List Name} (ha : ∀ name ∈ a, IsPlain name)
    (hb : ∀ name ∈ b, IsPlain name) : joined a b = a ++ b := by
  have hdrop : ∀ {names : List Name}, (∀ name ∈ names, IsPlain name) →
      dropFinalDot names = names := fun hn => dropFinalDot_eq_self fun name hm =>
    ⟨(hn name hm).ne_dot, fun he => (hn name hm).not_dotLine (.inl he)⟩
  have hab := isPlain_append ha hb
  rw [joined, hdrop ha, hdrop hb, hdrop hab]
  exact cancel_eq_self fun name hm =>
    ⟨(hab name hm).ne_dots, fun he => (hab name hm).not_dotLine (.inr he)⟩

/-- A relative path of plain names continued by another one. -/
theorem join_ofSegments {a b : List Name} (ha : ∀ name ∈ a, IsPlain name)
    (hb : ∀ name ∈ b, IsPlain name) :
    join [ofSegments a, ofSegments b] = ofSegments (a ++ b) := by
  rw [join_ofSegments_ordinary (fun name hm => (ha name hm).isOrdinary)
    fun name hm => (hb name hm).isOrdinary, joined_of_isPlain ha hb]

/-- A relative path of plain names continued by one name. -/
theorem join_ofSegments_name {a : List Name} (ha : ∀ name ∈ a, IsPlain name) {name : Name}
    (hn : IsPlain name) : join [ofSegments a, name] = ofSegments (a ++ [name]) := by
  have hsingle : ofSegments [name] = name := rfl
  have h := join_ofSegments ha (b := [name]) (by simpa using hn)
  rwa [hsingle] at h

/-- A plain root continued by a relative path of plain names. -/
theorem join_root {root : Path} (h : IsPlainRoot root) {b : List Name}
    (hb : ∀ name ∈ b, IsPlain name) :
    join [root, ofSegments b] = rooted (components root ++ b) := by
  have hline : components root ≠ [['.', '\n']] := by
    intro he
    exact (h.plain ['.', '\n'] (by simp [he])).not_dotLine (.inl rfl)
  rw [join_of_isRooted h.isRooted h.ne_nil (fun name hm => (h.plain name hm).isOrdinary) h.grounded
    hline fun name hm => (hb name hm).isOrdinary, joined_of_isPlain h.plain hb]

theorem IsPlainRoot.join_plainPath {root p : Path} (h : IsPlainRoot root) (hp : IsPlainPath p) :
    join [root, p] = rooted (components root ++ components p) := by
  have hjoin := join_root h hp.plain
  rwa [hp.eq] at hjoin

/-- A path below a plain root continued by one name. -/
theorem join_rooted {a : List Name} (hne : a ≠ []) (ha : ∀ name ∈ a, IsPlain name)
    (hg : IsGrounded a) {name : Name} (hn : IsPlain name) :
    join [rooted a, name] = rooted (a ++ [name]) := by
  have h := join_root (isPlainRoot_rooted hne ha hg) (b := [name]) (by simpa using hn)
  rwa [components_rooted ha] at h

end Joining

end Dotfiles.Path
