import Dotfiles.Proofs.Path.Within
import Dotfiles.Proofs.Profile.Inheritance

/-!
Entries stay within the roots that their targets and sources are joined to. Paths of a profile
are in normal form and cannot climb; what can leave a root is only a dot line, which joining
takes for the dots.
-/

namespace Dotfiles

open Dotfiles.Path ProfileTree

/-- A relative path of ordinary names. -/
def Path.IsOrdinaryPath (p : Path) : Prop :=
  ∃ names : List Name, (∀ name ∈ names, IsOrdinary name) ∧ p = ofSegments names

/-- A tree keyed by ordinary names whose sources are made of ordinary names. -/
structure ProfileTree.IsOrdinaryTree (tree : ProfileTree) : Prop where
  keyed : IsKeyed IsOrdinary tree
  source : ∀ place a source, tree.attributesAt? place = some a → a.source = some source →
    IsOrdinaryPath source

theorem Path.isOrdinaryPath_normalForm (p : Path) : IsOrdinaryPath (normalForm p) :=
  ⟨normalComponents p, fun _ h => isOrdinary_of_mem_normalComponents h, rfl⟩

/-- A path of ordinary names continued by one is such a path again. -/
theorem Path.IsOrdinaryPath.join {p : Path} (h : IsOrdinaryPath p) {name : Name}
    (hname : IsOrdinary name) : IsOrdinaryPath (Path.join [p, name]) := by
  obtain ⟨names, hn, rfl⟩ := h
  have hsingle : ∀ n ∈ [name], IsOrdinary n := by simpa using hname
  have hjoin : Path.join [ofSegments names, ofSegments [name]] = ofSegments (joined names [name]) :=
    join_ofSegments_ordinary hn hsingle
  have hname : ofSegments [name] = name := rfl
  rw [hname] at hjoin
  exact ⟨joined names [name], forall_joined hn hsingle, hjoin⟩

section Resolving

variable {entries : List Entry}

/-- The source of a node is its own or continues the one above. -/
theorem ProfileTree.isOrdinaryPath_sourceBelow {above own source : Option Path} {name : Name}
    (habove : ∀ p, above = some p → IsOrdinaryPath p) (hown : ∀ p, own = some p → IsOrdinaryPath p)
    (hname : IsOrdinary name) (h : (sourceBelow above name own).outcome = .ok source) :
    ∀ p, source = some p → IsOrdinaryPath p := by
  unfold sourceBelow at h
  split at h
  · cases h
    exact hown
  · rename_i path
    cases h
    intro p hp
    cases hp
    exact (habove path rfl).join hname
  · cases h
    simp

theorem ProfileTree.IsOrdinaryTree.child {own : Attributes} {children : List (Text × ProfileTree)}
    (h : IsOrdinaryTree (.node own children)) {c : Text × ProfileTree} (hc : c ∈ children) :
    IsOrdinary c.1 ∧ IsOrdinaryTree c.2 := by
  obtain ⟨distinct, keys, below⟩ := h.keyed
  refine ⟨keys c hc, below c hc, ?_⟩
  intro place a source ha hs
  apply h.source (c.1 :: place) a source _ hs
  rw [attributesAt?_cons, (childOf_eq_some_iff distinct).2 hc]
  exact ha

theorem ProfileTree.IsOrdinaryTree.root {tree : ProfileTree} (h : IsOrdinaryTree tree) :
    ∀ p, tree.attributes.source = some p → IsOrdinaryPath p := by
  obtain ⟨own, children⟩ := tree
  exact fun p hp => h.source [] own p rfl hp

/-- Whether both paths of an entry are made of ordinary names. -/
def Entry.IsOrdinary (e : Entry) : Prop := IsOrdinaryPath e.target ∧ IsOrdinaryPath e.source

mutual

/-- Entries at and below a node: its target and source, which have come from above, are continued
name by name. -/
theorem ProfileTree.isOrdinary_resolveAt {parent : Attributes} {target : Path}
    {source : Option Path} :
    ∀ {tree : ProfileTree} {entries : List Entry},
      IsOrdinaryTree tree → IsOrdinaryPath target → (∀ p, source = some p → IsOrdinaryPath p) →
      (resolveAt parent target source tree).outcome = .ok entries →
      ∀ e ∈ entries, e.IsOrdinary
  | .node own children, entries, ht, htarget, hsource, h => by
    obtain ⟨below, hbelow, rfl⟩ := resolveAt_eq_ok h
    have hrest := isOrdinary_resolveChildren (fun c hc => ht.child hc) htarget hsource hbelow
    intro e he
    rcases List.mem_append.1 he with he | he
    · exact hrest e he
    · rw [Option.mem_toList, entryOf?, Option.map_eq_some_iff] at he
      obtain ⟨p, hp, rfl⟩ := he
      exact ⟨htarget, hsource p hp⟩

theorem ProfileTree.isOrdinary_resolveChildren {settled : Attributes} {place : Path} :
    ∀ {children : List (Text × ProfileTree)} {entries : List Entry},
      (∀ c ∈ children, Path.IsOrdinary c.1 ∧ IsOrdinaryTree c.2) → IsOrdinaryPath place →
      (∀ p, settled.source = some p → IsOrdinaryPath p) →
      (resolveChildren settled place children).outcome = .ok entries →
      ∀ e ∈ entries, e.IsOrdinary
  | [], entries, _, _, _, h => by
    cases h
    simp
  | (name, child) :: rest, entries, hc, hplace, hsettled, h => by
    obtain ⟨source, first, others, hs, hfirst, hothers, rfl⟩ := resolveChildren_cons_eq_ok h
    obtain ⟨hname, hchild⟩ := hc (name, child) (by simp)
    have hbelow := isOrdinary_resolveAt hchild (hplace.join hname)
      (isOrdinaryPath_sourceBelow hsettled hchild.root hname hs) hfirst
    have hrest := isOrdinary_resolveChildren (fun c hm => hc c (List.mem_cons_of_mem _ hm)) hplace
      hsettled hothers
    intro e he
    rcases List.mem_append.1 he with he | he
    · exact hbelow e he
    · exact hrest e he

end

end Resolving

section Profiles

variable {drives : Bool} {document : Value} {profile : Profile} {entries : List Entry}

theorem Profile.isOrdinaryTree (h : (Profile.read drives document).outcome = .ok profile) :
    IsOrdinaryTree profile.declarations.byComponent := by
  refine ⟨Profile.isKeyed_of_written h ?_, ?_⟩
  · intro d hd key hkey name hname
    obtain ⟨p, rfl⟩ := (Declaration.isNormal_of_mem_written hd).1 key hkey
    rw [normalForm, components_ofSegments_normalComponents] at hname
    exact isOrdinary_of_mem_normalComponents hname
  · intro place a source ha hs
    obtain ⟨d, hd, hds⟩ := Profile.source_mem_written h ha hs
    obtain ⟨p, rfl⟩ := (Declaration.isNormal_of_mem_written hd).2 source hds
    exact isOrdinaryPath_normalForm p

/-- Targets and sources of all entries are made of ordinary names, whatever a document holds. -/
theorem Profile.isOrdinary_entries (hread : (Profile.read drives document).outcome = .ok profile)
    (hentries : profile.entries.outcome = .ok entries) : ∀ e ∈ entries, e.IsOrdinary := by
  rw [Profile.entries, resolve, Traced.outcome_bind_eq_ok_iff] at hentries
  obtain ⟨found, hfound, h⟩ := hentries
  cases h
  have ht := Profile.isOrdinaryTree hread
  intro e he
  have hroot : IsOrdinaryPath [] := ⟨[], by simp, rfl⟩
  exact isOrdinary_resolveAt ht hroot ht.root hfound e ((mem_sortOn _).1 he)

/-- A path of ordinary names stays within a root just if its components do. -/
theorem Path.IsOrdinaryPath.isWithin_join_iff {p : Path} (h : IsOrdinaryPath p) {root : List Name}
    (hne : root ≠ []) (hroot : ∀ name ∈ root, Path.IsOrdinary name) (hg : IsGrounded root) :
    IsWithin (rooted root) (Path.join [rooted root, p]) ↔ StaysBelow root (components p) := by
  obtain ⟨names, hn, rfl⟩ := h
  rw [components_ofSegments_ordinary hn]
  exact Path.isWithin_join_iff hne hg hroot hn

end Profiles

/-- What is put in normal form, and the target and the source of every entry, stays within the
root it is joined to, except for dot lines: a root that ends with one, or a path that is nothing
else. -/
theorem Profile.isWithin_iff {root : List Name} (hne : root ≠ [])
    (hroot : ∀ name ∈ root, Path.IsOrdinary name) (hg : IsGrounded root) :
    (∀ drives p q, Path.normalize drives p = .ok q →
      (IsWithin (rooted root) (Path.join [rooted root, q]) ↔ StaysBelow root (components q))) ∧
    ∀ drives document profile entries,
      (Profile.read drives document).outcome = .ok profile →
      profile.entries.outcome = .ok entries → ∀ e ∈ entries,
        (IsWithin (rooted root) (Path.join [rooted root, e.target]) ↔
          StaysBelow root (components e.target)) ∧
        (IsWithin (rooted root) (Path.join [rooted root, e.source]) ↔
          StaysBelow root (components e.source)) := by
  constructor
  · intro drives p q h
    have hq : q = normalForm p := by
      have hpath : Declaration.normalPath drives p = .ok q := by
        rw [Declaration.normalPath, h]
        rfl
      exact (Declaration.normalPath_eq_ok hpath).1
    subst hq
    exact (isOrdinaryPath_normalForm p).isWithin_join_iff hne hroot hg
  · intro drives document profile entries hread hentries e he
    obtain ⟨htarget, hsource⟩ := Profile.isOrdinary_entries hread hentries e he
    exact ⟨htarget.isWithin_join_iff hne hroot hg, hsource.isWithin_join_iff hne hroot hg⟩

/-- Neither steps upwards nor two dots inside a longer path lead out of a root. -/
theorem Profile.isWithin_iff_climbing :
    Path.normalize false "../x/..\n".toList = .ok "x/..\n".toList ∧
      IsWithin (rooted ["t".toList]) (Path.join [rooted ["t".toList], "x/..\n".toList]) := by
  have hroot : ∀ name ∈ ["t".toList], Path.IsOrdinary name := by decide
  have hnormal : Path.normalize false "../x/..\n".toList = .ok "x/..\n".toList := rfl
  have hwithin := (Profile.isWithin_iff (by simp) hroot (by decide)).1 false _ _ hnormal
  exact ⟨hnormal, hwithin.2 (by decide +kernel)⟩

/-- A key of two dots and a line feed is in normal form, and its target is not within the root. -/
theorem Profile.not_isWithin_dotLine :
    Path.normalize false "..\n".toList = .ok "..\n".toList ∧
    ¬ IsWithin "/t".toList (Path.join ["/t".toList, "..\n".toList]) ∧
    ∃ profile,
      (Profile.read false (.map [(.text "..\n".toList, .scalar (.text "f".toList))])).outcome =
        .ok profile ∧
      profile.entries.outcome = .ok [⟨"..\n".toList, "f".toList, .copy, false, ⟨[]⟩⟩] :=
  ⟨rfl, by decide +kernel, _, rfl,
    Profile.entries_of_perm (by decide +kernel) (List.Perm.refl _) (by decide +kernel)⟩

end Dotfiles
