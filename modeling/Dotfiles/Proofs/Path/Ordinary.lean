import Dotfiles.Path.Join
import Dotfiles.Path.Normal

/-!
Joining paths whose components are ordinary names: names that a path in normal form can have.
Such a join puts components one after another, except at the very end of a path, where one or
two dots with a line feed after them are taken for the dots alone.
-/

namespace Dotfiles.Path

/-- One or two dots with a line feed after them. At the end of a path, joining
takes such a name for the dots alone. -/
def IsDotLine (name : Name) : Prop := name = ['.', '\n'] ∨ name = ['.', '.', '\n']

instance (name : Name) : Decidable (IsDotLine name) := inferInstanceAs (Decidable (_ ∨ _))

/-- A name that normalizing keeps. -/
structure IsOrdinary (name : Name) : Prop where
  ne_nil : name ≠ []
  no_slash : '/' ∉ name
  ne_dot : name ≠ ['.']
  ne_dots : name ≠ ['.', '.']

theorem isOrdinary_iff (name : Name) :
    IsOrdinary name ↔ name ≠ [] ∧ '/' ∉ name ∧ name ≠ ['.'] ∧ name ≠ ['.', '.'] :=
  ⟨fun h => ⟨h.ne_nil, h.no_slash, h.ne_dot, h.ne_dots⟩, fun ⟨h₁, h₂, h₃, h₄⟩ => ⟨h₁, h₂, h₃, h₄⟩⟩

instance (name : Name) : Decidable (IsOrdinary name) := decidable_of_iff' _ (isOrdinary_iff name)

theorem isOrdinary_of_mem_normalComponents {p : Path} {name : Name}
    (h : name ∈ normalComponents p) : IsOrdinary name := by
  obtain ⟨hnil, hdot, hdots, hslash⟩ := mem_normalComponents h
  exact ⟨hnil, hslash, hdot, hdots⟩

/-- The path with the given components below the root. -/
def rooted (names : List Name) : Path := '/' :: ofSegments names

/-- Whether names can follow the root: the first of them does not begin with two
dots, which would be taken for a step above the root. -/
def IsGrounded (names : List Name) : Prop := ∀ name ∈ names.head?, ¬ ['.', '.'] <+: name

instance (names : List Name) : Decidable (IsGrounded names) :=
  inferInstanceAs (Decidable (∀ _ ∈ names.head?, _))

/-- The components of two paths joined to one. A final dot line of either part, and of both
together, loses its dots; two dots take the component before them along. -/
def joined (first second : List Name) : List Name :=
  cancel (dropFinalDot (dropFinalDot first ++ dropFinalDot second))

section Components

theorem segments_slash (t : Text) : segments ('/' :: t) = [] :: segments t := by
  simp [segments, Text.split]

theorem components_slash (t : Text) : components ('/' :: t) = components t := by
  simp [components, segments_slash]

theorem segments_ofSegments {names : List Name} (h : ∀ name ∈ names, '/' ∉ name)
    (hne : names ≠ []) : segments (ofSegments names) = names :=
  Text.split_join h hne

theorem components_ofSegments_ordinary {names : List Name} (h : ∀ name ∈ names, IsOrdinary name) :
    components (ofSegments names) = names :=
  components_ofSegments fun name hn => ⟨(h name hn).ne_nil, (h name hn).no_slash⟩

theorem isRooted_rooted (names : List Name) : isRooted (rooted names) = true := rfl

/-- The components of a path are found again in the rooted path made of them. -/
theorem components_rooted_names {names : List Name} (hn : ∀ name ∈ names, name ≠ [] ∧ '/' ∉ name) :
    components (rooted names) = names := by
  rw [rooted, components_slash, components_ofSegments hn]

theorem components_rooted_ordinary {names : List Name} (h : ∀ name ∈ names, IsOrdinary name) :
    components (rooted names) = names :=
  components_rooted_names fun name hm => ⟨(h name hm).ne_nil, (h name hm).no_slash⟩

theorem ofSegments_append {a b : List Name} (ha : a ≠ []) (hb : b ≠ []) :
    ofSegments (a ++ b) = ofSegments a ++ '/' :: ofSegments b := by
  induction a with
  | nil => exact absurd rfl ha
  | cons first rest ih =>
    cases rest with
    | nil =>
      cases b with
      | nil => exact absurd rfl hb
      | cons next others => rfl
    | cons second more =>
      have hstep := ih (by simp)
      simp only [ofSegments, List.cons_append, Text.join] at hstep ⊢
      rw [hstep]
      simp

theorem rooted_append {a b : List Name} (ha : a ≠ []) (hb : b ≠ []) :
    rooted (a ++ b) = rooted a ++ '/' :: ofSegments b := by
  simp [rooted, ofSegments_append ha hb]

theorem ofSegments_nil_cons {names : List Name} (h : names ≠ []) :
    ofSegments ([] :: names) = rooted names := by
  obtain ⟨first, rest, rfl⟩ := List.exists_cons_of_ne_nil h
  rfl

theorem ofSegments_eq_nil_iff {names : List Name} (hn : ∀ name ∈ names, name ≠ []) :
    ofSegments names = [] ↔ names = [] := by
  refine ⟨fun h => ?_, fun h => h ▸ rfl⟩
  cases names with
  | nil => rfl
  | cons first rest =>
    obtain ⟨c, others, rfl⟩ := List.exists_cons_of_ne_nil (hn first (by simp))
    cases rest <;> simp [ofSegments, Text.join] at h

theorem ofSegments_ne_nil {names : List Name} (h : ∀ name ∈ names, IsOrdinary name)
    (hne : names ≠ []) : ofSegments names ≠ [] :=
  fun he => hne ((ofSegments_eq_nil_iff fun name hm => (h name hm).ne_nil).1 he)

/-- A path that begins with a name is relative. -/
theorem isRooted_ofSegments_cons {first : Name} (hnil : first ≠ []) (hslash : '/' ∉ first)
    (rest : List Name) : isRooted (ofSegments (first :: rest)) = false := by
  obtain ⟨c, more, rfl⟩ := List.exists_cons_of_ne_nil hnil
  have hc : c ≠ '/' := fun e => hslash (by simp [e])
  cases rest <;> simp [ofSegments, Text.join, isRooted, hc]

theorem isRooted_ofSegments_names {names : List Name}
    (hn : ∀ name ∈ names, name ≠ [] ∧ '/' ∉ name) : isRooted (ofSegments names) = false := by
  cases names with
  | nil => rfl
  | cons first rest =>
    obtain ⟨hnil, hslash⟩ := hn first (by simp)
    exact isRooted_ofSegments_cons hnil hslash rest

theorem isRooted_ofSegments {names : List Name} (hn : ∀ name ∈ names, IsOrdinary name) :
    isRooted (ofSegments names) = false :=
  isRooted_ofSegments_names fun name hm => ⟨(hn name hm).ne_nil, (hn name hm).no_slash⟩

end Components

section FinalDots

theorem IsOrdinary.append_lineFeed {name : Name} (h : IsOrdinary name) :
    IsOrdinary (name ++ ['\n']) where
  ne_nil := by simp
  no_slash := by simp [h.no_slash]
  ne_dot := by
    intro he
    exact h.ne_nil (by simpa using congrArg List.dropLast he)
  ne_dots := by
    intro he
    exact h.ne_dot (by simpa using congrArg List.dropLast he)

theorem isOrdinary_lineFeed : IsOrdinary ['\n'] := by decide

/-- A single dot with a line feed is the only thing that is cleaned away at the end of ordinary
names, and only where a name stands before it. -/
theorem dropFinalDot_cases {names : List Text} (h : ∀ name ∈ names, name ≠ ['.']) :
    dropFinalDot names = names ∨ ∃ init name,
      names = init ++ [name, ['.', '\n']] ∧ dropFinalDot names = init ++ [name ++ ['\n']] := by
  fun_induction dropFinalDot names with
  | case1 => exact .inl rfl
  | case2 name => exact absurd rfl (h ['.'] (by simp))
  | case3 name => exact .inr ⟨[], name, rfl, rfl⟩
  | case4 name rest _ _ ih =>
    rcases ih fun n hn => h n (List.mem_cons_of_mem _ hn) with hsame | ⟨init, last, rfl, hdrop⟩
    · exact .inl (by rw [hsame])
    · exact .inr ⟨name :: init, last, rfl, by rw [hdrop]; rfl⟩

theorem dropFinalDot_cons {first : Text} {rest : List Text} (hd : rest ≠ [['.']])
    (hl : rest ≠ [['.', '\n']]) : dropFinalDot (first :: rest) = first :: dropFinalDot rest := by
  rw [dropFinalDot]
  · exact hd
  · exact hl

theorem dropFinalDot_concat (init : List Text) {last : Text} (hd : last ≠ ['.'])
    (hl : last ≠ ['.', '\n']) : dropFinalDot (init ++ [last]) = init ++ [last] := by
  induction init with
  | nil => rfl
  | cons first rest ih =>
    rw [List.cons_append, dropFinalDot_cons, ih]
    · intro he
      cases rest <;> simp_all
    · intro he
      cases rest <;> simp_all

theorem dropFinalDot_dotLine (init : List Text) (name : Text) :
    dropFinalDot (init ++ [name, ['.', '\n']]) = init ++ [name ++ ['\n']] := by
  induction init with
  | nil => rfl
  | cons first rest ih =>
    rw [List.cons_append, dropFinalDot_cons, ih]
    · rfl
    · intro he
      cases rest <;> simp_all
    · intro he
      cases rest <;> simp_all

theorem cancel_cons {piece next : Text} {rest : List Text} (hn : next ≠ ['.', '.'])
    (hl : rest ≠ [] ∨ next ≠ ['.', '.', '\n'] ∨ isCancelled piece = false) :
    cancel (piece :: next :: rest) = piece :: cancel (next :: rest) := by
  have hfirst : ¬ (isCancelled piece && decide (next = ['.', '.'])) = true := by simp [hn]
  have hlast : ¬ (isCancelled piece && decide (next = ['.', '.', '\n']) && rest.isEmpty) = true := by
    rcases hl with h | h | h <;> simp [h]
  rw [cancel.eq_def]
  simp only [if_neg hfirst, if_neg hlast]

theorem cancel_dotsLine {init : List Text} {name : Text} (hinit : ∀ n ∈ init, n ≠ ['.', '.'])
    (hname : IsOrdinary name) :
    cancel (init ++ [name, ['.', '.', '\n']]) = init ++ [['\n']] := by
  induction init with
  | nil => simp [cancel, isCancelled, hname.ne_nil, hname.ne_dots]
  | cons first rest ih =>
    obtain ⟨_, hrest⟩ := List.forall_mem_cons.1 hinit
    rw [List.cons_append, List.cons_append, ← ih hrest]
    cases rest with
    | nil => exact cancel_cons hname.ne_dots (.inl (by simp))
    | cons next more => exact cancel_cons (hrest next (by simp)) (.inl (by simp))

/-- Two dots with a line feed are the only thing that is cancelled at the end of ordinary names,
together with the name before them. -/
theorem cancel_cases {names : List Text} (h : ∀ name ∈ names, name ≠ ['.', '.']) :
    cancel names = names ∨ ∃ init name,
      names = init ++ [name, ['.', '.', '\n']] ∧ cancel names = init ++ [['\n']] := by
  fun_induction cancel names with
  | case1 => exact .inl rfl
  | case2 piece => exact .inl rfl
  | case3 piece dots hc =>
    have hdots := h dots (by simp)
    simp_all
  | case4 piece dots next others hc ih =>
    have hdots := h dots (by simp)
    simp_all
  | case5 piece dots rest _ hc =>
    simp only [Bool.and_eq_true, decide_eq_true_eq, List.isEmpty_iff] at hc
    obtain ⟨⟨_, rfl⟩, rfl⟩ := hc
    exact .inr ⟨[], piece, rfl, rfl⟩
  | case6 piece dots rest _ _ ih =>
    rcases ih fun n hn => h n (List.mem_cons_of_mem _ hn) with hsame | ⟨init, last, he, hcancel⟩
    · exact .inl (by rw [hsame])
    · exact .inr ⟨piece :: init, last, by rw [he]; rfl, by rw [hcancel]; rfl⟩

theorem dropFinalDot_eq_self {names : List Text}
    (h : ∀ name ∈ names, name ≠ ['.'] ∧ name ≠ ['.', '\n']) : dropFinalDot names = names := by
  rcases dropFinalDot_cases fun name hn => (h name hn).1 with hsame | ⟨init, name, rfl, _⟩
  · exact hsame
  · exact absurd rfl (h ['.', '\n'] (by simp)).2

theorem cancel_eq_self {names : List Text}
    (h : ∀ name ∈ names, name ≠ ['.', '.'] ∧ name ≠ ['.', '.', '\n']) : cancel names = names := by
  rcases cancel_cases fun name hn => (h name hn).1 with hsame | ⟨init, name, rfl, _⟩
  · exact hsame
  · exact absurd rfl (h ['.', '.', '\n'] (by simp)).2

theorem forall_dropFinalDot {names : List Name} (hn : ∀ name ∈ names, IsOrdinary name) :
    ∀ name ∈ dropFinalDot names, IsOrdinary name := by
  rcases dropFinalDot_cases fun name hm => (hn name hm).ne_dot with hsame | ⟨init, last, rfl, hdrop⟩
  · rwa [hsame]
  · rw [hdrop]
    intro name hm
    rcases List.mem_append.1 hm with hm | hm
    · exact hn name (by simp [hm])
    · rw [List.mem_singleton.1 hm]
      exact (hn last (by simp)).append_lineFeed

theorem forall_cancel {names : List Name} (hn : ∀ name ∈ names, IsOrdinary name) :
    ∀ name ∈ cancel names, IsOrdinary name := by
  rcases cancel_cases fun name hm => (hn name hm).ne_dots with hsame | ⟨init, last, rfl, hcancel⟩
  · rwa [hsame]
  · rw [hcancel]
    intro name hm
    rcases List.mem_append.1 hm with hm | hm
    · exact hn name (by simp [hm])
    · rw [List.mem_singleton.1 hm]
      exact isOrdinary_lineFeed

/-- Cleaning a second time, also after cancelling, finds nothing more. -/
theorem dropFinalDot_cancel {names : List Name} (hn : ∀ name ∈ names, IsOrdinary name) :
    dropFinalDot (cancel (dropFinalDot names)) = cancel (dropFinalDot names) := by
  have hdots : ∀ name ∈ dropFinalDot names, name ≠ ['.', '.'] :=
    fun name hm => (forall_dropFinalDot hn name hm).ne_dots
  rcases cancel_cases hdots with hsame | ⟨init, last, _, hcancel⟩
  · rw [hsame]
    rcases dropFinalDot_cases fun name hm => (hn name hm).ne_dot with h | ⟨init, last, rfl, hdrop⟩
    · rw [h, h]
    · have hlast := (hn last (by simp)).append_lineFeed
      rw [hdrop]
      refine dropFinalDot_concat init hlast.ne_dot fun he => (hn last (by simp)).ne_dot ?_
      simpa using congrArg List.dropLast he
  · rw [hcancel]
    exact dropFinalDot_concat init (by simp) (by simp)

end FinalDots

section Cleaning

theorem dropInnerDots_eq_self {pieces : List Text} (h : ∀ piece ∈ pieces, piece ≠ ['.']) :
    dropInnerDots pieces = pieces := by
  fun_induction dropInnerDots pieces with
  | case1 => rfl
  | case2 piece => rfl
  | case3 rest _ ih => exact absurd rfl (h ['.'] (by simp))
  | case4 piece rest _ _ ih => rw [ih fun p hp => h p (List.mem_cons_of_mem _ hp)]

/-- Ordinary names are not squeezed, whatever stands in front of them. -/
theorem squeeze_eq_self {first : Text} {names : List Name}
    (hn : ∀ name ∈ names, IsOrdinary name) (hne : first ≠ [] ∨ names ≠ []) :
    squeeze (first :: names) = first :: names := by
  have hkept : names.filter (fun s => !s.isEmpty) = names :=
    List.filter_eq_self.2 fun name hm => by simp [(hn name hm).ne_nil]
  rcases hne with h | h <;> simp [squeeze, hkept, h]

/-- Of ordinary names, an empty piece in front of them included, cleaning takes only a final
dot. -/
theorem cleanPieces_eq {first : Text} {names : List Name} (hfirst : first ≠ ['.'])
    (hn : ∀ name ∈ names, IsOrdinary name) (hne : first ≠ [] ∨ names ≠ []) :
    cleanPieces (first :: names) = dropFinalDot (first :: names) := by
  have hdots : ∀ name ∈ first :: names, name ≠ ['.'] :=
    List.forall_mem_cons.2 ⟨hfirst, fun name hm => (hn name hm).ne_dot⟩
  have hleading : dropLeadingDots (first :: names) = first :: names := by
    simp [dropLeadingDots, hfirst]
  rw [cleanPieces, squeeze_eq_self hn hne, hleading]
  rcases dropFinalDot_cases hdots with hsame | ⟨init, last, he, hdrop⟩
  · rw [hsame]
    show first :: dropInnerDots names = _
    rw [dropInnerDots_eq_self fun name hm => hdots name (List.mem_cons_of_mem _ hm)]
  · rw [hdrop]
    cases init with
    | nil => rfl
    | cons other more =>
      obtain ⟨rfl, rfl⟩ := List.cons.inj he
      have hmore : ∀ name ∈ more ++ [last ++ ['\n']], name ≠ ['.'] := by
        intro name hm
        rcases List.mem_append.1 hm with hm | hm
        · exact hdots name (by simp [hm])
        · rw [List.mem_singleton.1 hm]
          exact (hn last (by simp)).append_lineFeed.ne_dot
      rw [List.cons_append]
      show first :: dropInnerDots (more ++ [last ++ ['\n']]) = _
      rw [dropInnerDots_eq_self hmore]

theorem dropClimbs_eq_self {t : Text} (h : ¬ ['.', '.'] <+: t) : dropClimbs t = t := by
  unfold dropClimbs
  split
  · exact absurd (by simp) h
  · exact absurd (by simp) h
  · rfl

/-- A first name that does not begin with two dots is not taken for a step above the root. -/
theorem dropClimbs_ofSegments_cons {first : Name} (hnil : first ≠ [])
    (hclimb : ¬ ['.', '.'] <+: first) (rest : List Name) :
    dropClimbs (ofSegments (first :: rest)) = ofSegments (first :: rest) := by
  refine dropClimbs_eq_self ?_
  rcases first with _ | ⟨c, _ | ⟨d, more⟩⟩
  · exact absurd rfl hnil
  · cases rest <;> simp [ofSegments, Text.join]
  · cases rest <;> simpa [ofSegments, Text.join] using hclimb

/-- Names that can follow the root are not taken for steps above it. -/
theorem dropClimbs_ofSegments {names : List Name} (hn : ∀ name ∈ names, IsOrdinary name)
    (hg : IsGrounded names) : dropClimbs (ofSegments names) = ofSegments names := by
  cases names with
  | nil => rfl
  | cons first rest =>
    exact dropClimbs_ofSegments_cons (hn first (by simp)).ne_nil (hg first (by simp)) rest

theorem IsGrounded.append {a : List Name} (hg : IsGrounded a) (ha : a ≠ []) (b : List Name) :
    IsGrounded (a ++ b) := by
  obtain ⟨first, rest, rfl⟩ := List.exists_cons_of_ne_nil ha
  exact hg

theorem IsGrounded.dropFinalDot {names : List Name} (hn : ∀ name ∈ names, IsOrdinary name)
    (hg : IsGrounded names) : IsGrounded (dropFinalDot names) := by
  rcases dropFinalDot_cases fun name hm => (hn name hm).ne_dot with hsame | ⟨init, last, rfl, hdrop⟩
  · rwa [hsame]
  · rw [hdrop]
    cases init with
    | cons first rest => exact hg
    | nil =>
      have hlast := hn last (by simp)
      have hclimb : ¬ ['.', '.'] <+: last := hg last (by simp)
      intro name hm
      cases hm
      rcases last with _ | ⟨c, _ | ⟨d, more⟩⟩
      · exact absurd rfl hlast.ne_nil
      · simp
      · simpa using hclimb

theorem IsGrounded.cancel {names : List Name} (hn : ∀ name ∈ names, IsOrdinary name)
    (hg : IsGrounded names) : IsGrounded (cancel names) := by
  rcases cancel_cases fun name hm => (hn name hm).ne_dots with hsame | ⟨init, last, rfl, hcancel⟩
  · rwa [hsame]
  · rw [hcancel]
    cases init with
    | cons first rest => exact hg
    | nil =>
      intro name hm
      cases hm
      decide

theorem clean_ofSegments {names : List Name} (hn : ∀ name ∈ names, IsOrdinary name) :
    clean (ofSegments names) = ofSegments (dropFinalDot names) := by
  cases names with
  | nil => rfl
  | cons first rest =>
    have hfirst := hn first (by simp)
    have hnil := ofSegments_ne_nil hn (by simp)
    have hs : segments (ofSegments (first :: rest)) = first :: rest :=
      segments_ofSegments (fun name hm => (hn name hm).no_slash) (by simp)
    have hpieces : cleanPieces (first :: rest) = dropFinalDot (first :: rest) :=
      cleanPieces_eq hfirst.ne_dot (fun name hm => hn name (by simp [hm])) (.inl hfirst.ne_nil)
    have hclean := forall_dropFinalDot hn
    have hleft : ofSegments (dropFinalDot (first :: rest)) ≠ [] := by
      refine ofSegments_ne_nil hclean ?_
      rcases dropFinalDot_cases fun name hm => (hn name hm).ne_dot with h | ⟨init, last, _, h⟩ <;>
        simp [h]
    have hslash : ∀ t, ofSegments (dropFinalDot (first :: rest)) ≠ '/' :: t := by
      intro t ht
      have hr := isRooted_ofSegments hclean
      rw [ht] at hr
      cases hr
    rw [clean, if_neg (by simp [hnil]), hs, hpieces]
    split
    · rename_i he
      exact absurd he hleft
    · rename_i he
      exact absurd he (hslash _)
    · rfl

/-- Cleaning a rooted path leaves its components below the root. A single dot line below the root
is the exception: it takes the root along. -/
theorem clean_of_isRooted {root : Path} (hr : isRooted root = true) (hne : components root ≠ [])
    (hn : ∀ name ∈ components root, IsOrdinary name) (hg : IsGrounded (components root))
    (hline : components root ≠ [['.', '\n']]) :
    clean root = rooted (dropFinalDot (components root)) := by
  obtain ⟨rest, rfl⟩ : ∃ rest, root = '/' :: rest := by
    unfold Path.isRooted at hr
    split at hr
    · exact ⟨_, rfl⟩
    · exact absurd hr (by simp)
  rw [components_slash] at hne hn hg hline ⊢
  have hsqueeze : squeeze (segments ('/' :: rest)) = [] :: components rest := by
    rw [segments_slash]
    have hk : (segments rest).filter (fun s => !s.isEmpty) ≠ [] := hne
    simp [squeeze, components, hk]
  have hpieces : cleanPieces (segments ('/' :: rest)) = [] :: dropFinalDot (components rest) := by
    have hclean : cleanPieces ([] :: components rest) = dropFinalDot ([] :: components rest) :=
      cleanPieces_eq (by simp) hn (.inr hne)
    have hdot : components rest ≠ [['.']] := fun he => (hn ['.'] (by simp [he])).ne_dot rfl
    unfold cleanPieces at hclean ⊢
    rw [squeeze_eq_self hn (.inr hne)] at hclean
    rw [hsqueeze, hclean, dropFinalDot_cons hdot hline]
  have hkept : dropFinalDot (components rest) ≠ [] := by
    rcases dropFinalDot_cases fun name hm => (hn name hm).ne_dot with h | ⟨init, last, _, h⟩
    · rwa [h]
    · simp [h]
  rw [clean, if_neg (by simp), hpieces, ofSegments_nil_cons hkept]
  simp [rooted, dropClimbs_ofSegments (forall_dropFinalDot hn) (hg.dropFinalDot hn)]

end Cleaning

section Cancelling

theorem cancel_cancel {names : List Name} (hn : ∀ name ∈ names, IsOrdinary name) :
    cancel (cancel names) = cancel names := by
  rcases cancel_cases fun name hm => (hn name hm).ne_dots with hsame | ⟨init, last, rfl, hcancel⟩
  · rw [hsame, hsame]
  · have hline := forall_cancel hn
    rw [hcancel] at hline ⊢
    rcases cancel_cases fun name hm => (hline name hm).ne_dots with h | ⟨_, _, he, _⟩
    · exact h
    · have hlast := congrArg List.getLast? he
      simp at hlast

theorem cancelTimes_succ {pieces : List Text} (h : cancel (cancel pieces) = cancel pieces) (n : Nat) :
    cancelTimes (n + 1) pieces = cancel pieces := by
  have hstable : ∀ m, cancelTimes m (cancel pieces) = cancel pieces := by
    intro m
    cases m with
    | zero => rfl
    | succ m => simp [cancelTimes, h]
  rw [cancelTimes]
  split
  · rename_i hsame
    exact hsame.symm
  · exact hstable n

theorem cancelAll_ofSegments {names : List Name} (hn : ∀ name ∈ names, IsOrdinary name) :
    cancelAll (ofSegments names) = ofSegments (cancel names) := by
  cases names with
  | nil => rfl
  | cons first rest =>
    have hs : segments (ofSegments (first :: rest)) = first :: rest :=
      segments_ofSegments (fun name hm => (hn name hm).no_slash) (by simp)
    rw [cancelAll, hs]
    exact congrArg ofSegments (cancelTimes_succ (cancel_cancel hn) rest.length)

theorem cancel_nil_cons {names : List Name} (hn : ∀ name ∈ names, IsOrdinary name)
    (hne : names ≠ []) : cancel ([] :: names) = [] :: cancel names := by
  obtain ⟨first, rest, rfl⟩ := List.exists_cons_of_ne_nil hne
  exact cancel_cons (hn first (by simp)).ne_dots (.inr (.inr rfl))

theorem cancel_ne_nil {names : List Name} (hn : ∀ name ∈ names, IsOrdinary name)
    (hne : names ≠ []) : cancel names ≠ [] := by
  rcases cancel_cases fun name hm => (hn name hm).ne_dots with h | ⟨init, last, _, h⟩
  · rwa [h]
  · simp [h]

theorem cancelAll_rooted {names : List Name} (hn : ∀ name ∈ names, IsOrdinary name)
    (hne : names ≠ []) : cancelAll (rooted names) = rooted (cancel names) := by
  have hs : segments (rooted names) = [] :: names := by
    rw [rooted, segments_slash, segments_ofSegments (fun name hm => (hn name hm).no_slash) hne]
  have htwice : cancel (cancel ([] :: names)) = cancel ([] :: names) := by
    rw [cancel_nil_cons hn hne, cancel_nil_cons (forall_cancel hn) (cancel_ne_nil hn hne),
      cancel_cancel hn]
  rw [cancelAll, hs, List.length_cons, cancelTimes_succ htwice, cancel_nil_cons hn hne,
    ofSegments_nil_cons (cancel_ne_nil hn hne)]

end Cancelling

section Joining

theorem forall_mem_append_ordinary {a b : List Name} (ha : ∀ name ∈ a, IsOrdinary name)
    (hb : ∀ name ∈ b, IsOrdinary name) : ∀ name ∈ a ++ b, IsOrdinary name := by
  intro name hm
  rcases List.mem_append.1 hm with h | h
  · exact ha name h
  · exact hb name h

theorem dropFinalDot_ne_nil {names : List Name} (hn : ∀ name ∈ names, IsOrdinary name)
    (hne : names ≠ []) : dropFinalDot names ≠ [] := by
  rcases dropFinalDot_cases fun name hm => (hn name hm).ne_dot with h | ⟨init, last, _, h⟩
  · rwa [h]
  · simp [h]

/-- No ordinary names leave a single dot line when their final dot is taken. -/
theorem dropFinalDot_ne_dotLine {names : List Name} (hn : ∀ name ∈ names, IsOrdinary name)
    (hline : names ≠ [['.', '\n']]) : dropFinalDot names ≠ [['.', '\n']] := by
  rcases dropFinalDot_cases fun name hm => (hn name hm).ne_dot with h | ⟨init, last, rfl, h⟩
  · rwa [h]
  · rw [h]
    intro he
    cases init with
    | nil => exact (hn last (by simp)).ne_dot (by simpa using congrArg List.dropLast (List.cons.inj he).1)
    | cons first rest => simp at he

theorem cancel_ne_dotLine {names : List Name} (hn : ∀ name ∈ names, IsOrdinary name)
    (hline : names ≠ [['.', '\n']]) : cancel names ≠ [['.', '\n']] := by
  rcases cancel_cases fun name hm => (hn name hm).ne_dots with h | ⟨init, last, _, h⟩
  · rwa [h]
  · rw [h]
    intro he
    simpa using congrArg List.getLast? he

theorem forall_joined {a b : List Name} (ha : ∀ name ∈ a, IsOrdinary name)
    (hb : ∀ name ∈ b, IsOrdinary name) : ∀ name ∈ joined a b, IsOrdinary name :=
  forall_cancel (forall_dropFinalDot
    (forall_mem_append_ordinary (forall_dropFinalDot ha) (forall_dropFinalDot hb)))

theorem append_ofSegments_ordinary {a b : List Name} (ha : ∀ name ∈ a, IsOrdinary name)
    (hb : ∀ name ∈ b, IsOrdinary name) :
    append (ofSegments a) (ofSegments b) = ofSegments (a ++ dropFinalDot b) := by
  by_cases hbn : b = []
  · subst hbn
    rw [dropFinalDot, List.append_nil]
    rfl
  · have hkept := dropFinalDot_ne_nil hb hbn
    simp only [append, List.isEmpty_iff, ofSegments_ne_nil hb hbn, clean_ofSegments hb,
      isRooted_ofSegments (forall_dropFinalDot hb)]
    by_cases han : a = []
    · subst han
      simp [ofSegments, Text.join]
    · have hslash : ofSegments a ≠ ['/'] := by
        intro he
        have hr := isRooted_ofSegments ha
        rw [he] at hr
        cases hr
      simp [ofSegments_ne_nil ha han, hslash, ofSegments_append han hkept]

theorem append_rooted_ordinary {a b : List Name} (hne : a ≠ []) (ha : ∀ name ∈ a, IsOrdinary name)
    (hb : ∀ name ∈ b, IsOrdinary name) :
    append (rooted a) (ofSegments b) = rooted (a ++ dropFinalDot b) := by
  by_cases hbn : b = []
  · subst hbn
    rw [dropFinalDot, List.append_nil]
    rfl
  · have hkept := dropFinalDot_ne_nil hb hbn
    have hslash : rooted a ≠ ['/'] := by
      simpa [rooted] using ofSegments_ne_nil ha hne
    simp [append, ofSegments_ne_nil hb hbn, clean_ofSegments hb,
      isRooted_ofSegments (forall_dropFinalDot hb), hslash, rooted_append hne hkept]
    simp [rooted]

/-- A relative path of ordinary names continued by another one. -/
theorem join_ofSegments_ordinary {a b : List Name} (ha : ∀ name ∈ a, IsOrdinary name)
    (hb : ∀ name ∈ b, IsOrdinary name) :
    join [ofSegments a, ofSegments b] = ofSegments (joined a b) := by
  have hab := forall_mem_append_ordinary (forall_dropFinalDot ha) (forall_dropFinalDot hb)
  have hfold : [ofSegments a, ofSegments b].foldl append [] =
      ofSegments (dropFinalDot a ++ dropFinalDot b) := by
    have hstart : append [] (ofSegments a) = ofSegments (dropFinalDot a) :=
      append_ofSegments_ordinary (a := []) (by simp) ha
    simp only [List.foldl_cons, List.foldl_nil, hstart,
      append_ofSegments_ordinary (forall_dropFinalDot ha) hb]
  rw [join, hfold, clean_ofSegments hab, cancelAll_ofSegments (forall_dropFinalDot hab),
    clean_ofSegments (forall_cancel (forall_dropFinalDot hab)), dropFinalDot_cancel hab, joined]

/-- A rooted path with ordinary names for components, continued by a relative path of such
names. The path may repeat slashes and end with them. -/
theorem join_of_isRooted {root : Path} (hr : isRooted root = true) (hne : components root ≠ [])
    (hroot : ∀ name ∈ components root, IsOrdinary name) (hg : IsGrounded (components root))
    (hline : components root ≠ [['.', '\n']]) {b : List Name} (hb : ∀ name ∈ b, IsOrdinary name) :
    join [root, ofSegments b] = rooted (joined (components root) b) := by
  have hkept := forall_dropFinalDot hroot
  have hkept_ne := dropFinalDot_ne_nil hroot hne
  have hab := forall_mem_append_ordinary hkept (forall_dropFinalDot hb)
  have hab_ne : dropFinalDot (components root) ++ dropFinalDot b ≠ [] := by simp [hkept_ne]
  have hab_line : dropFinalDot (components root) ++ dropFinalDot b ≠ [['.', '\n']] := by
    intro he
    rcases List.append_eq_singleton_iff.1 he with ⟨h, _⟩ | ⟨h, _⟩
    · exact hkept_ne h
    · exact dropFinalDot_ne_dotLine hroot hline h
  have hab_g : IsGrounded (dropFinalDot (components root) ++ dropFinalDot b) :=
    (hg.dropFinalDot hroot).append hkept_ne _
  have hstart : append [] root = rooted (dropFinalDot (components root)) := by
    have hnil : root ≠ [] := by
      rintro rfl
      exact hne rfl
    simp [append, hnil, clean_of_isRooted hr hne hroot hg hline, isRooted, rooted]
  have hfold : [root, ofSegments b].foldl append [] =
      rooted (dropFinalDot (components root) ++ dropFinalDot b) := by
    simp only [List.foldl_cons, List.foldl_nil, hstart, append_rooted_ordinary hkept_ne hkept hb]
  -- The path is cleaned once more before and after it is cancelled.
  have hclean : ∀ names, (∀ name ∈ names, IsOrdinary name) → names ≠ [] → IsGrounded names →
      names ≠ [['.', '\n']] → clean (rooted names) = rooted (dropFinalDot names) := by
    intro names hn hnil hgn hl
    have hc := components_rooted_ordinary hn
    have hcl : clean (rooted names) = rooted (dropFinalDot (components (rooted names))) :=
      clean_of_isRooted rfl (by rwa [hc]) (by rwa [hc]) (by rwa [hc]) (by rwa [hc])
    rwa [hc] at hcl
  have hd := forall_dropFinalDot hab
  have hd_ne := dropFinalDot_ne_nil hab hab_ne
  rw [join, hfold, hclean _ hab hab_ne hab_g hab_line, cancelAll_rooted hd hd_ne,
    hclean _ (forall_cancel hd) (cancel_ne_nil hd hd_ne) ((hab_g.dropFinalDot hab).cancel hd)
      (cancel_ne_dotLine hd (dropFinalDot_ne_dotLine hab hab_line)),
    dropFinalDot_cancel hab, joined]

end Joining

end Dotfiles.Path
