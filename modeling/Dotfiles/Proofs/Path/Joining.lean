import Dotfiles.Proofs.Path.Stacking

/-!
Joining paths component by component. The text of a join is never split: parts are put behind one
another, and the whole is cleaned and cancelled until nothing changes. What comes of it is what a
walk over the components with a stack comes to.
-/

namespace Dotfiles.Path

/-- The path of the given components, below the root or relative. -/
def ofComponents (fromRoot : Bool) (names : List Name) : Path :=
  if fromRoot then rooted names else ofSegments names

/-- The parts from the last rooted one on, or all of them if none is rooted. -/
def fromLastRooted : List Path → List Path
  | [] => []
  | part :: rest => if rest.any isRooted then fromLastRooted rest else part :: rest

/-- The path that parts stand for component by component. It is rooted if one of them is. -/
def joinedByComponents (parts : List Path) : Path :=
  let fromRoot := parts.any isRooted
  ofComponents fromRoot (stacked fromRoot ((fromLastRooted parts).flatMap components))

/-- What cleaning leaves of the components of a relative path: no single dots, unless one at the
end. -/
def IsCleaned (names cleaned : List Name) : Prop :=
  cleaned = names.filter (fun name => name ≠ ['.']) ∨
    cleaned = names.filter (fun name => name ≠ ['.']) ++ [['.']] ∧ ['.'] ∈ names

/-- Whether cleaning a relative path leaves a single dot at the end of its components: where there
is nothing else, and where two single dots end them. -/
def LeavesDot (names : List Name) : Prop := names = [['.']] ∨ [['.'], ['.']] <:+ names

instance (names : List Name) : Decidable (LeavesDot names) := inferInstanceAs (Decidable (_ ∨ _))

/-- What cleaning leaves of the components of a relative path. -/
def cleanedNames (names : List Name) : List Name :=
  names.filter (fun name => name ≠ ['.']) ++ if LeavesDot names then [['.']] else []

variable {parts : List Path} {place names cleaned : List Name} {name : Name} {pieces : List Text}

section Cleaning

theorem dropFinalDot_concat_dot {init : List Text} (h : init ≠ []) :
    dropFinalDot (init ++ [['.']]) = init := by
  induction init with
  | nil => exact absurd rfl h
  | cons first rest ih =>
    cases rest with
    | nil => rfl
    | cons next more =>
      rw [List.cons_append, dropFinalDot_cons (by simp) (by simp), ih (by simp)]

theorem dropInnerDots_eq (names : List Name) :
    dropInnerDots names = names.filter (fun name => name ≠ ['.']) ++
      if [['.']] <:+ names then [['.']] else [] := by
  fun_induction dropInnerDots names with
  | case1 => simp
  | case2 piece =>
    by_cases hdot : piece = ['.']
    · simp [hdot]
    · simp [hdot, List.suffix_cons_iff, Ne.symm hdot]
  | case3 rest hne ih =>
    have hrest : rest ≠ [] := hne
    rw [ih, List.filter_cons_of_neg (by simp)]
    simp [List.suffix_cons_iff, Ne.symm hrest]
  | case4 piece rest hne hdot ih =>
    rw [ih, List.filter_cons_of_pos (by simpa using hdot)]
    simp [List.suffix_cons_iff, Ne.symm hdot]

theorem concat_isSuffix_concat (names init : List Name) (a b : Name) :
    names ++ [a] <:+ init ++ [b] ↔ a = b ∧ names <:+ init := by
  rw [← List.reverse_prefix, List.reverse_concat, List.reverse_concat, List.cons_prefix_cons,
    List.reverse_prefix]

/-- A single dot at the end is dropped once behind another piece, and kept if a further one stands
before it. -/
theorem exists_dropFinalDot_cons (first : Name) (hline : ['.', '\n'] ∉ names) :
    ∃ kept, dropFinalDot (first :: names) = first :: kept ∧
      dropInnerDots kept = names.filter (fun name => name ≠ ['.']) ++
        if [['.'], ['.']] <:+ names then [['.']] else [] := by
  rcases List.eq_nil_or_concat names with rfl | ⟨init, last, rfl⟩
  · exact ⟨[], rfl, by simp [dropInnerDots]⟩
  · rw [List.concat_eq_append] at hline ⊢
    have hsuffix : [['.'], ['.']] <:+ init ++ [last] ↔ ['.'] = last ∧ [['.']] <:+ init :=
      concat_isSuffix_concat [['.']] init ['.'] last
    have hlastDot : [['.']] <:+ init ++ [last] ↔ ['.'] = last ∧ [] <:+ init :=
      concat_isSuffix_concat [] init ['.'] last
    by_cases hlast : last = ['.']
    · subst hlast
      refine ⟨init, dropFinalDot_concat_dot (List.cons_ne_nil first init), ?_⟩
      rw [dropInnerDots_eq]
      simp [hsuffix]
    · refine ⟨init ++ [last], dropFinalDot_concat (first :: init) hlast
        fun he => hline (by simp [he]), ?_⟩
      rw [dropInnerDots_eq]
      simp [hsuffix, hlastDot, Ne.symm hlast]

theorem leavesDot_dot_cons (hne : names ≠ []) : LeavesDot (['.'] :: names) ↔ LeavesDot names := by
  simp [LeavesDot, List.suffix_cons_iff, hne, eq_comm]

theorem leavesDot_cons (h : name ≠ ['.']) :
    LeavesDot (name :: names) ↔ [['.'], ['.']] <:+ names := by
  simp [LeavesDot, List.suffix_cons_iff, h, Ne.symm h]

theorem LeavesDot.mem (h : LeavesDot names) : ['.'] ∈ names := by
  rcases h with rfl | h
  · simp
  · exact h.subset (by simp)

theorem cleanedNames_ne_nil (hne : names ≠ []) : cleanedNames names ≠ [] := by
  induction names with
  | nil => exact absurd rfl hne
  | cons name rest ih =>
    by_cases hdot : name = ['.']
    · subst hdot
      by_cases hrest : rest = []
      · subst hrest
        decide
      · have hkept := ih hrest
        simpa [cleanedNames, leavesDot_dot_cons hrest] using hkept
    · simp [cleanedNames, hdot]

theorem isCleaned_cleanedNames (names : List Name) : IsCleaned names (cleanedNames names) := by
  rw [cleanedNames]
  split
  · rename_i hdot
    exact .inr ⟨rfl, hdot.mem⟩
  · exact .inl (List.append_nil _)

theorem IsCleaned.subset (h : IsCleaned names cleaned) : cleaned ⊆ names := by
  rcases h with rfl | ⟨rfl, hdot⟩
  · exact List.filter_subset_self _
  · exact List.append_subset.2 ⟨List.filter_subset_self _, by simpa using hdot⟩

theorem IsCleaned.ledFrom (h : IsCleaned names cleaned) (place : List Name) :
    ledFrom place cleaned = ledFrom place names := by
  rcases h with rfl | ⟨rfl, _⟩
  · exact ledFrom_withoutDots place names
  · rw [ledFrom_append, ledFrom_dot, ledFrom_nil, ledFrom_withoutDots]

/-- Without dot lines, cleaning leaves the pieces apart from single dots. -/
theorem cleanPieces_eq_cleanedNames (pieces : List Text) (hline : ['.', '\n'] ∉ squeeze pieces) :
    cleanPieces pieces = cleanedNames (squeeze pieces) := by
  rw [cleanPieces]
  generalize squeeze pieces = names at hline ⊢
  induction names with
  | nil => rfl
  | cons name rest ih =>
    have hlineRest : ['.', '\n'] ∉ rest := fun hm => hline (List.mem_cons_of_mem _ hm)
    by_cases hdot : name = ['.']
    · subst hdot
      by_cases hrest : rest = []
      · subst hrest
        decide
      · rw [dropLeadingDots, if_pos ⟨rfl, hrest⟩, ih hlineRest]
        simp [cleanedNames, leavesDot_dot_cons hrest]
    · obtain ⟨kept, hdrop, hkept⟩ := exists_dropFinalDot_cons name hlineRest
      rw [dropLeadingDots, if_neg fun h => hdot h.1, hdrop]
      simp [cleanedNames, leavesDot_cons hdot, hkept, hdot]

/-- A relative path without dot lines is cleaned to its components apart from single dots. -/
theorem clean_relative_eq {p : Path} (hr : isRooted p = false)
    (hline : ∀ name ∈ components p, ¬ IsDotLine name) :
    clean p = ofSegments (cleanedNames (components p)) := by
  by_cases hne : p = []
  · subst hne
    rfl
  obtain ⟨hsqueeze, hcomponents⟩ := squeeze_segments hr hne
  refine clean_of_cleanPieces hne ?_ ?_ (cleanedNames_ne_nil hcomponents)
  · rw [cleanPieces_eq_cleanedNames, hsqueeze]
    rw [hsqueeze]
    exact fun hm => hline _ hm (.inl rfl)
  · exact fun name hm => mem_components ((isCleaned_cleanedNames _).subset hm)

theorem exists_clean_eq {p : Path} (hr : isRooted p = false) (hne : p ≠ [])
    (hline : ∀ name ∈ components p, ¬ IsDotLine name) :
    ∃ cleaned, clean p = ofSegments cleaned ∧ IsCleaned (components p) cleaned ∧ cleaned ≠ [] :=
  ⟨_, clean_relative_eq hr hline, isCleaned_cleanedNames _,
    cleanedNames_ne_nil (squeeze_segments hr hne).2⟩

end Cleaning

section Appending

theorem append_ofComponents (fromRoot : Bool) {a b : List Name} {p : Path}
    (ha : ∀ name ∈ a, name ≠ [] ∧ '/' ∉ name) (hne : p ≠ []) (hclean : clean p = ofSegments b)
    (hb : ∀ name ∈ b, name ≠ [] ∧ '/' ∉ name) (hnil : b ≠ []) :
    append (ofComponents fromRoot a) p = ofComponents fromRoot (a ++ b) := by
  cases fromRoot with
  | true => exact append_rooted_relative (fun n hm => (ha n hm).1) hne hclean hb hnil
  | false =>
    show append (ofSegments a) p = ofSegments (a ++ b)
    rw [append_relative _ hne hclean hb]
    cases a with
    | nil => rfl
    | cons first rest =>
      have hpath : ofSegments (first :: rest) ≠ [] := fun he =>
        List.cons_ne_nil _ _ ((ofSegments_eq_nil_iff fun n hm => (ha n hm).1).1 he)
      have hslash : ofSegments (first :: rest) ≠ ['/'] := by
        intro he
        have hrelative := isRooted_ofSegments_names ha
        rw [he] at hrelative
        cases hrelative
      rw [if_neg (not_or.2 ⟨hpath, hslash⟩), ofSegments_append (by simp) hnil]

theorem cleanedNames_subset (names : List Name) : cleanedNames names ⊆ names :=
  (isCleaned_cleanedNames names).subset

theorem flatMap_cleanedNames_subset (parts : List Path) :
    (parts.flatMap fun part => cleanedNames (components part)) ⊆ parts.flatMap components := by
  intro name hm
  obtain ⟨part, hpart, hm⟩ := List.mem_flatMap.1 hm
  exact List.mem_flatMap.2 ⟨part, hpart, cleanedNames_subset _ hm⟩

theorem ledFrom_flatMap_cleanedNames (place : List Name) (parts : List Path) :
    ledFrom place (parts.flatMap fun part => cleanedNames (components part)) =
      ledFrom place (parts.flatMap components) := by
  induction parts generalizing place with
  | nil => rfl
  | cons part rest ih =>
    rw [List.flatMap_cons, List.flatMap_cons, ledFrom_append, ledFrom_append,
      (isCleaned_cleanedNames _).ledFrom, ih]

/-- Parts that are cleaned to relative paths are put behind one another, each of them cleaned by
itself. -/
theorem foldl_append_cleaned (fromRoot : Bool)
    (hparts : ∀ part ∈ parts, part ≠ [] →
      clean part = ofSegments (cleanedNames (components part)) ∧ components part ≠ [])
    (hn : ∀ name ∈ names, name ≠ [] ∧ '/' ∉ name) :
    parts.foldl append (ofComponents fromRoot names) =
      ofComponents fromRoot (names ++ parts.flatMap fun part => cleanedNames (components part)) := by
  induction parts generalizing names with
  | nil => simp
  | cons part rest ih =>
    obtain ⟨hpart, hrest⟩ := List.forall_mem_cons.1 hparts
    have hkept : ∀ name ∈ cleanedNames (components part), name ≠ [] ∧ '/' ∉ name :=
      fun name hm => mem_components (cleanedNames_subset _ hm)
    have happend : append (ofComponents fromRoot names) part =
        ofComponents fromRoot (names ++ cleanedNames (components part)) := by
      by_cases hne : part = []
      · subst hne
        simp [append, cleanedNames, LeavesDot, show components [] = [] from rfl]
      · obtain ⟨hclean, hnil⟩ := hpart hne
        exact append_ofComponents fromRoot hn hne hclean hkept (cleanedNames_ne_nil hnil)
    rw [List.foldl_cons, List.flatMap_cons, happend,
      ih hrest (List.forall_mem_append.2 ⟨hn, hkept⟩), List.append_assoc]

/-- Relative parts are put behind one another as a path that leads where their components lead. -/
theorem exists_foldl_append (fromRoot : Bool) (names : List Name)
    (hr : ∀ part ∈ parts, isRooted part = false)
    (hline : ∀ part ∈ parts, ∀ name ∈ components part, ¬ IsDotLine name)
    (hn : ∀ name ∈ names, name ≠ [] ∧ '/' ∉ name) :
    ∃ found, parts.foldl append (ofComponents fromRoot names) = ofComponents fromRoot found ∧
      found ⊆ names ++ parts.flatMap components ∧
      ∀ place, ledFrom place found = ledFrom place (names ++ parts.flatMap components) := by
  have hfound := foldl_append_cleaned fromRoot (fun part hm hne =>
    ⟨clean_relative_eq (hr part hm) (hline part hm), (squeeze_segments (hr part hm) hne).2⟩) hn
  refine ⟨_, hfound, ?_, fun place => ?_⟩
  · refine List.append_subset.2 ⟨List.subset_append_left _ _, ?_⟩
    exact List.Subset.trans (flatMap_cleanedNames_subset parts) (List.subset_append_right _ _)
  · rw [ledFrom_append, ledFrom_flatMap_cleanedNames, ← ledFrom_append]

end Appending

section Relative

theorem not_isDotLine_of_steps (hs : ∀ name ∈ names, name = ['.'] ∨ IsStep name) :
    ∀ name ∈ names, ¬ IsDotLine name := by
  intro name hm
  rcases hs name hm with rfl | hstep
  · decide
  · exact hstep.not_dotLine

theorem ne_nil_and_no_slash_of_steps (hs : ∀ name ∈ names, name = ['.'] ∨ IsStep name) :
    ∀ name ∈ names, name ≠ [] ∧ '/' ∉ name := by
  intro name hm
  rcases hs name hm with rfl | hstep
  · decide
  · exact hstep.ne_nil_and_no_slash

theorem AreSteps.of_concat {init : List Text} {last : Text} (h : AreSteps (init ++ [last])) :
    ∀ name ∈ init, IsStep name := by
  induction init with
  | nil => simp
  | cons first rest ih =>
    obtain ⟨hfirst, hrest⟩ := (areSteps_cons (by simp)).1 h
    exact List.forall_mem_cons.2 ⟨hfirst, ih hrest⟩

/-- A last piece that is no two dots takes no part in a pass. -/
theorem exists_cancel_concat (init : List Text) : ∃ kept, ∀ last, last ≠ ['.', '.'] →
    last ≠ ['.', '.', '\n'] → cancel (init ++ [last]) = kept ++ [last] := by
  fun_induction cancel init with
  | case1 => exact ⟨[], fun last _ _ => rfl⟩
  | case2 piece =>
    exact ⟨[piece], fun last hdots hline => cancel_cons hdots (.inr (.inl hline))⟩
  | case3 piece dots hc =>
    refine ⟨[], fun last _ _ => ?_⟩
    rw [List.cons_append, List.cons_append, cancel.eq_def]
    simp [hc, cancel]
  | case4 piece dots hc next others ih =>
    obtain ⟨kept, hkept⟩ := ih
    refine ⟨next :: kept, fun last hdots hline => ?_⟩
    rw [List.cons_append, List.cons_append, cancel.eq_def]
    simp [hc, hkept last hdots hline]
  | case5 piece dots rest _ hc =>
    -- two dots with a line feed are looked for at the end alone
    simp only [Bool.and_eq_true, decide_eq_true_eq, List.isEmpty_iff] at hc
    obtain ⟨⟨_, rfl⟩, rfl⟩ := hc
    refine ⟨[piece, ['.', '.', '\n']], fun last hdots hline => ?_⟩
    show cancel [piece, ['.', '.', '\n'], last] = _
    rw [cancel_cons (by decide) (.inl (by simp)), cancel_cons hdots (.inr (.inl hline))]
    rfl
  | case6 piece dots rest hc _ ih =>
    obtain ⟨kept, hkept⟩ := ih
    refine ⟨piece :: kept, fun last hdots hline => ?_⟩
    have hlast := hkept last hdots hline
    rw [List.cons_append] at hlast
    rw [List.cons_append, List.cons_append, cancel.eq_def]
    simp [hc, hlast]

theorem exists_cancelTimes_concat (n : Nat) (init : List Text) : ∃ kept, ∀ last,
    last ≠ ['.', '.'] → last ≠ ['.', '.', '\n'] →
      cancelTimes n (init ++ [last]) = kept ++ [last] := by
  induction n generalizing init with
  | zero => exact ⟨init, fun _ _ _ => rfl⟩
  | succ n ih =>
    obtain ⟨next, hnext⟩ := exists_cancel_concat init
    obtain ⟨kept, hkept⟩ := ih next
    by_cases hsame : next = init
    · refine ⟨init, fun last hdots hline => ?_⟩
      rw [cancelTimes, hnext last hdots hline, hsame, if_pos rfl]
    · refine ⟨kept, fun last hdots hline => ?_⟩
      rw [cancelTimes, hnext last hdots hline,
        if_neg fun he => hsame (List.append_cancel_right he), hkept last hdots hline]

/-- Steps with a single dot behind them are cancelled as they are without it. -/
theorem exists_cancelTimes_dot {n : Nat} (hn : names.length < n)
    (hs : ∀ name ∈ names, IsStep name) :
    ∃ kept, cancelTimes n (names ++ [['.']]) = kept ++ [['.']] ∧
      ClimbsFirst kept ∧ ∀ place, ledFrom place kept = ledFrom place names := by
  obtain ⟨kept, hkept⟩ := exists_cancelTimes_concat n names
  -- with a plain name in place of the dot, all pieces are steps
  have hx : IsPlain ['x'] := by decide
  have hsteps : AreSteps (names ++ [['x']]) :=
    areSteps_of_forall (List.forall_mem_append.2 ⟨hs, by simpa using .inr hx⟩)
  obtain ⟨hdone, hled, hstable⟩ :=
    cancelTimes_spec (n := n) (by simpa using Nat.succ_le_of_lt hn) hsteps
  rw [hkept _ hx.ne_dots (by decide)] at hdone hled hstable
  have hclimbs := climbsFirst_of_stable hdone hstable
  rw [List.filter_eq_self.2] at hclimbs
  · refine ⟨kept, hkept _ (by decide) (by decide), hclimbs.of_concat hx.ne_dots, fun place => ?_⟩
    have hlast := hled place
    rw [ledFrom_append, ledFrom_append, ledFrom_plain _ hx, ledFrom_plain _ hx, ledFrom_nil,
      ledFrom_nil] at hlast
    exact List.append_cancel_right hlast
  · refine List.forall_mem_append.2 ⟨fun name hm => ?_, by simp⟩
    simpa using (hdone.of_concat name hm).ne_nil

theorem clean_relative_of_steps {p : Path} (hr : isRooted p = false)
    (hs : ∀ name ∈ components p, IsStep name) : clean p = ofSegments (components p) := by
  by_cases hne : p = []
  · subst hne
    rfl
  · have hfilter : (components p).filter (fun name => name ≠ ['.']) = components p :=
      List.filter_eq_self.2 fun name hm => by simpa using (hs name hm).ne_dot
    have hclean := (clean_relative_steps hr hne (endsPlainly_of_steps hs)).1
    rwa [hfilter] at hclean

theorem isRooted_ofSegments_steps (h : AreSteps pieces) : isRooted (ofSegments pieces) = false := by
  cases pieces with
  | nil => rfl
  | cons first rest =>
    by_cases hfirst : first = []
    · subst hfirst
      cases rest with
      | nil => rfl
      | cons next more => exact absurd rfl h.1.ne_nil
    · have hstep := h.isStep_of_ne_nil first (by simp) hfirst
      exact isRooted_ofSegments_cons hstep.ne_nil hstep.no_slash rest

/-- Relative steps are cancelled and cleaned to the path that climbs first and leads to the same
place. -/
theorem clean_cancelAll_steps (hs : ∀ name ∈ names, IsStep name) (hne : names ≠ []) :
    clean (cancelAll (ofSegments names)) = ofSegments (stacked false names) := by
  obtain ⟨hdone, hled, hstable⟩ := cancelTimes_spec (le_refl names.length) (areSteps_of_forall hs)
  have hsegments := segments_ofSegments hdone.no_slash (cancelTimes_ne_nil names.length hne)
  have hcomponents : components (ofSegments (cancelTimes names.length names)) =
      stacked false names := by
    rw [components, hsegments]
    refine (stacked_false_eq (fun name hm => .inr (hs name hm))
      (climbsFirst_of_stable hdone hstable) fun place => ?_).symm
    rw [ledFrom_nonempty, hled]
  rw [cancelAll, segments_ofSegments (fun name hm => (hs name hm).no_slash) hne,
    clean_relative_of_steps (isRooted_ofSegments_steps hdone), hcomponents]
  rw [components, hsegments]
  exact hdone.forall_nonempty

/-- Of steps with a single dot after them, cleaning leaves the steps alone. -/
theorem cleanedNames_append_dot (hs : ∀ name ∈ names, IsStep name) {tail : List Name}
    (htail : tail = [['.']] ∨ tail = []) (hne : names ++ tail ≠ [['.']]) :
    cleanedNames (names ++ tail) = names := by
  have hdot : ['.'] ∉ names := fun hm => (hs _ hm).ne_dot rfl
  have hfilter : names.filter (fun name => name ≠ ['.']) = names :=
    List.filter_eq_self.2 fun name hm => by simpa using (hs name hm).ne_dot
  have hleaves : ¬ LeavesDot (names ++ tail) := by
    rcases htail with rfl | rfl
    · rintro (hlone | hsuffix)
      · exact hne hlone
      · have hbefore := (concat_isSuffix_concat [['.']] names ['.'] ['.']).1 hsuffix
        exact hdot (hbefore.2.subset (by simp))
    · rw [List.append_nil]
      exact fun h => hdot h.mem
  rw [cleanedNames, if_neg hleaves, List.append_nil, List.filter_append, hfilter]
  rcases htail with rfl | rfl <;> simp

theorem clean_concat_dot (hs : ∀ name ∈ names, IsStep name) (hne : names ≠ []) :
    clean (ofSegments (names ++ [['.']])) = ofSegments names := by
  have hall : ∀ name ∈ names ++ [['.']], name = ['.'] ∨ IsStep name :=
    List.forall_mem_append.2 ⟨fun name hm => .inr (hs name hm), by simp⟩
  have hn := ne_nil_and_no_slash_of_steps hall
  have hcomponents := components_ofSegments hn
  rw [clean_relative_eq (isRooted_ofSegments_names hn), hcomponents,
    cleanedNames_append_dot hs (.inl rfl) (by simpa using hne)]
  rw [hcomponents]
  exact not_isDotLine_of_steps hall

/-- What is joined to a relative path is cleaned, cancelled and cleaned again to what the walk comes
to. If nothing is left, it may be written as a single dot. -/
theorem clean_cancelAll_clean_relative (hs : ∀ name ∈ names, name = ['.'] ∨ IsStep name) :
    clean (cancelAll (clean (ofSegments names))) = ofSegments (stacked false names) ∨
      stacked false names = [] ∧ clean (cancelAll (clean (ofSegments names))) = ['.'] := by
  by_cases hne : names = []
  · subst hne
    exact .inl rfl
  have hn := ne_nil_and_no_slash_of_steps hs
  have hline := not_isDotLine_of_steps hs
  have hcomponents := components_ofSegments hn
  have hpath : ofSegments names ≠ [] := fun he =>
    hne ((ofSegments_eq_nil_iff fun name hm => (hn name hm).1).1 he)
  obtain ⟨cleaned, hclean, hcleaned, hnil⟩ :=
    exists_clean_eq (isRooted_ofSegments_names hn) hpath (by rwa [hcomponents])
  have hsteps := forall_withoutDots hs
  rw [hcomponents] at hcleaned
  rw [hclean]
  rcases hcleaned with rfl | ⟨rfl, _⟩
  · left
    rw [clean_cancelAll_steps hsteps hnil,
      stacked_false_congr (fun name hm => .inr (hsteps name hm)) hs
        fun place => ledFrom_withoutDots place names]
  · obtain ⟨kept, hkept, hclimbs, hled⟩ := exists_cancelTimes_dot (Nat.lt_succ_self _) hsteps
    have hstacked : stacked false names = kept :=
      stacked_false_eq hs hclimbs fun place => by rw [hled, ledFrom_withoutDots]
    have hslash : ∀ piece ∈ names.filter (fun name => name ≠ ['.']) ++ [['.']], '/' ∉ piece :=
      List.forall_mem_append.2 ⟨fun name hm => (hsteps name hm).no_slash, by simp⟩
    rw [cancelAll, segments_ofSegments hslash hnil, List.length_append, List.length_singleton,
      hkept, hstacked]
    by_cases hkeptNil : kept = []
    · subst hkeptNil
      exact .inr ⟨rfl, by decide⟩
    · exact .inl (clean_concat_dot hclimbs.isStep hkeptNil)

end Relative

section Joining

theorem fromLastRooted_of_relative (h : parts.any isRooted = false) :
    fromLastRooted parts = parts := by
  cases parts with
  | nil => rfl
  | cons part rest =>
    rw [List.any_cons, Bool.or_eq_false_iff] at h
    rw [fromLastRooted, if_neg (by simp [h.2])]

/-- Of the parts, those from the last rooted one on are kept. -/
theorem exists_fromLastRooted (h : parts.any isRooted = true) :
    ∃ before first rest, parts = before ++ first :: rest ∧ fromLastRooted parts = first :: rest ∧
      isRooted first = true ∧ ∀ part ∈ rest, isRooted part = false := by
  induction parts with
  | nil => cases h
  | cons part rest ih =>
    cases hrest : rest.any isRooted with
    | true =>
      obtain ⟨before, first, others, rfl, hlast, hr, hothers⟩ := ih hrest
      exact ⟨part :: before, first, others, rfl, by rw [fromLastRooted, if_pos hrest, hlast], hr,
        hothers⟩
    | false =>
      rw [List.any_cons, hrest, Bool.or_false] at h
      refine ⟨[], part, rest, rfl, by rw [fromLastRooted, if_neg (by simp [hrest])], h, ?_⟩
      simpa using hrest

/-- A rooted part takes the place of the parts before it. -/
theorem append_rooted (result : Path) {p : Path} (hne : p ≠ []) (hclean : clean p = rooted names) :
    append result p = rooted names := by
  rw [append, if_neg (by simpa using hne), hclean]
  rfl

theorem isGrounded_dropWhile (h : ∀ name ∈ names, ['.', '.'] <+: name → name = ['.', '.']) :
    IsGrounded (names.dropWhile fun name => name = ['.', '.']) := by
  induction names with
  | nil => simp [IsGrounded]
  | cons name rest ih =>
    obtain ⟨hname, hrest⟩ := List.forall_mem_cons.1 h
    by_cases hdots : name = ['.', '.']
    · rw [List.dropWhile_cons_of_pos (by simpa using hdots)]
      exact ih hrest
    · rw [List.dropWhile_cons_of_neg (by simpa using hdots)]
      intro first hfirst hprefix
      cases hfirst
      exact hdots (hname hprefix)

/-- Without names that begin with two dots, steps lead from the root to names that can follow it. -/
theorem isGrounded_ledFrom (h : ∀ name ∈ names, ['.', '.'] <+: name → name = ['.', '.']) :
    IsGrounded (ledFrom [] names) := by
  have hkept : ∀ name ∈ ledFrom [] names, ¬ ['.', '.'] <+: name :=
    forall_mem_ledFrom (by simp) fun name hm _ _ hdots hp => hdots (h name hm hp)
  exact fun name hm => hkept name (List.mem_of_head? hm)

theorem isStep_of_mem_components {p : Path} (hline : ∀ name ∈ components p, ¬ IsDotLine name) :
    ∀ name ∈ components p, name = ['.'] ∨ IsStep name := by
  intro name hm
  obtain ⟨hnil, hslash⟩ := mem_components hm
  by_cases hdot : name = ['.']
  · exact .inl hdot
  · by_cases hdots : name = ['.', '.']
    · exact .inr (.inl hdots)
    · exact .inr (.inr ⟨hnil, hslash, hdot, hdots, hline name hm⟩)

theorem join_of_relative (hr : parts.any isRooted = false)
    (hline : ∀ part ∈ parts, ∀ name ∈ components part, ¬ IsDotLine name) :
    join parts = ofSegments (stacked false (parts.flatMap components)) ∨
      stacked false (parts.flatMap components) = [] ∧ join parts = ['.'] := by
  have hsteps : ∀ name ∈ parts.flatMap components, name = ['.'] ∨ IsStep name := by
    intro name hm
    obtain ⟨part, hpart, hm⟩ := List.mem_flatMap.1 hm
    exact isStep_of_mem_components (hline part hpart) name hm
  obtain ⟨found, hfound, hsub, hled⟩ :=
    exists_foldl_append false [] (by simpa using hr) hline (by simp)
  have hfoundSteps : ∀ name ∈ found, name = ['.'] ∨ IsStep name :=
    fun name hm => hsteps name (hsub hm)
  have hstacked := stacked_false_congr hfoundSteps hsteps hled
  have hjoin : join parts = clean (cancelAll (clean (ofSegments found))) :=
    congrArg (fun p => clean (cancelAll (clean p))) hfound
  rw [hjoin, ← hstacked]
  exact clean_cancelAll_clean_relative hfoundSteps

theorem join_of_rooted (hr : parts.any isRooted = true)
    (hline : ∀ part ∈ parts, ∀ name ∈ components part, ¬ IsDotLine name)
    (hn : ∀ part ∈ parts, ∀ name ∈ components part,
      name ≠ ['.'] ∧ (['.', '.'] <+: name → name = ['.', '.'])) :
    join parts = rooted (stacked true ((fromLastRooted parts).flatMap components)) := by
  obtain ⟨before, first, rest, rfl, hlast, hfirst, hrest⟩ := exists_fromLastRooted hr
  have hall : ∀ name ∈ (first :: rest).flatMap components,
      IsStep name ∧ (['.', '.'] <+: name → name = ['.', '.']) := by
    intro name hm
    obtain ⟨part, hpart, hm⟩ := List.mem_flatMap.1 hm
    have hin : part ∈ before ++ first :: rest := List.mem_append_right _ hpart
    obtain ⟨hdot, hdots⟩ := hn part hin name hm
    exact ⟨(isStep_of_mem_components (hline part hin) name hm).resolve_left hdot, hdots⟩
  rw [List.flatMap_cons] at hall
  have hne : first ≠ [] := by
    rintro rfl
    cases hfirst
  have hclean := clean_rooted_of_steps hfirst
    (fun name hm => (hall name (List.mem_append_left _ hm)).1)
    (isGrounded_dropWhile fun name hm => (hall name (List.mem_append_left _ hm)).2)
  obtain ⟨found, hfound, hsub, hled⟩ := exists_foldl_append true
    ((components first).dropWhile fun name => name = ['.', '.']) hrest
    (fun part hm => hline part (List.mem_append_right _ (List.mem_cons_of_mem _ hm)))
    fun name hm => mem_components ((List.dropWhile_suffix _).subset hm)
  have hkept : ∀ name ∈ found, IsStep name ∧ (['.', '.'] <+: name → name = ['.', '.']) := by
    intro name hm
    refine hall name (List.mem_append.2 ?_)
    exact (List.mem_append.1 (hsub hm)).imp_left fun hm => (List.dropWhile_suffix _).subset hm
  have hwhere : ledFrom [] found = ledFrom [] ((first :: rest).flatMap components) := by
    rw [hled, List.flatMap_cons, ledFrom_append, ledFrom_dropWhile, ← ledFrom_append]
  have hjoin : join (before ++ first :: rest) = clean (cancelAll (clean (rooted found))) := by
    rw [join, List.foldl_append, List.foldl_cons, append_rooted _ hne hclean]
    exact congrArg (fun p => clean (cancelAll (clean p))) hfound
  rw [hjoin, hlast, clean_cancelAll_clean (fun name hm => (hkept name hm).1)
    (isGrounded_dropWhile fun name hm => (hkept name hm).2)
    (isGrounded_ledFrom fun name hm => (hkept name hm).2), hwhere, stacked_true]
  exact fun name hm => (hall name hm).1.ne_nil

/-- A join is what its parts stand for component by component, if they hold no dot lines and, where
one of them is rooted, no single dots and no other names that begin with two dots. -/
theorem join_eq_joinedByComponents
    (hline : ∀ part ∈ parts, ∀ name ∈ components part, ¬ IsDotLine name)
    (hn : parts.any isRooted = true → ∀ part ∈ parts, ∀ name ∈ components part,
      name ≠ ['.'] ∧ (['.', '.'] <+: name → name = ['.', '.'])) :
    join parts = joinedByComponents parts ∨ joinedByComponents parts = [] ∧ join parts = ['.'] := by
  unfold joinedByComponents
  cases hr : parts.any isRooted with
  | true => exact .inl (join_of_rooted hr hline (hn hr))
  | false =>
    rw [fromLastRooted_of_relative hr]
    rcases join_of_relative hr hline with hjoin | ⟨hstacked, hjoin⟩
    · exact .inl hjoin
    · exact .inr ⟨congrArg ofSegments hstacked, hjoin⟩

/-- Two parts from the root on, with more steps upwards than there are names above them. -/
theorem join_eq_joinedByComponents_climbing :
    let parts := ["x".toList, "/a/../..//b/c".toList, "../../../d/".toList]
    (∀ part ∈ parts, ∀ name ∈ components part, ¬ IsDotLine name) ∧
      parts.any isRooted = true ∧
      (∀ part ∈ parts, ∀ name ∈ components part,
        name ≠ ['.'] ∧ (['.', '.'] <+: name → name = ['.', '.'])) ∧
      join parts = joinedByComponents parts ∧ joinedByComponents parts = "/d".toList := by
  intro parts
  have hline : ∀ part ∈ parts, ∀ name ∈ components part, ¬ IsDotLine name := by decide
  have hn : ∀ part ∈ parts, ∀ name ∈ components part,
      name ≠ ['.'] ∧ (['.', '.'] <+: name → name = ['.', '.']) := by decide
  have hjoined : joinedByComponents parts = "/d".toList := by decide
  have hjoin := join_eq_joinedByComponents hline fun _ => hn
  exact ⟨hline, rfl, hn, hjoin.resolve_right (by rw [hjoined]; simp), hjoined⟩

example : join ["a/..//..".toList, "./b/.".toList] = "../b".toList := by decide +kernel

end Joining

end Dotfiles.Path
