import Dotfiles.Proofs.Path.Joining

/-!
Whether a join begins at the root. A rooted part takes the place of the parts before it, and what is
joined stays rooted, as long as no path that is cleaned on the way has a lone dot behind its slash:
the dot is taken away together with the slash in front of it, also where that slash is the root.
-/

namespace Dotfiles.Path

/-- Whether there is nothing between the slashes of a path but a single dot, with a line feed after
it perhaps. -/
def IsLoneDot (p : Path) : Prop := components p = [['.']] ∨ components p = [['.', '\n']]

instance (p : Path) : Decidable (IsLoneDot p) := inferInstanceAs (Decidable (_ ∨ _))

/-- Whether a part takes the place of all parts before it. -/
def TakesRoot (p : Path) : Prop := isRooted p = true ∧ ¬ IsLoneDot p

instance (p : Path) : Decidable (TakesRoot p) := inferInstanceAs (Decidable (_ ∧ _))

theorem isLoneDot_of_not_takesRoot {p : Path} (hr : isRooted p = true) (h : ¬ TakesRoot p) :
    IsLoneDot p := by
  simpa [TakesRoot, hr] using h

/-- Names without single dots, and without the steps above the root that they begin with. -/
def belowRoot (names : List Name) : List Name :=
  (names.filter fun name => name ≠ ['.']).dropWhile fun name => name = ['.', '.']

/-- The components that are put together of a part that takes the root and of the parts after it,
each of them cleaned by itself. -/
def putTogether (first : Path) (rest : List Path) : List Name :=
  (cleanedNames (components first)).dropWhile (fun name => name = ['.', '.']) ++
    rest.flatMap fun part => cleanedNames (components part)

/-- Names between slashes, with an empty piece at their end perhaps. -/
def AreNames : List Text → Prop
  | [] => True
  | [piece] => '/' ∉ piece
  | piece :: next :: rest => (piece ≠ [] ∧ '/' ∉ piece) ∧ AreNames (next :: rest)

variable {p : Path} {parts : List Path} {names : List Name} {pieces : List Text}

section Cleaning

variable {P : Text → Prop}

theorem dropLeadingDots_subset (pieces : List Text) : dropLeadingDots pieces ⊆ pieces := by
  fun_induction dropLeadingDots pieces with
  | case1 => exact List.Subset.refl _
  | case2 piece rest _ ih => exact List.Subset.trans ih (List.subset_cons_self _ _)
  | case3 => exact List.Subset.refl _

theorem dropInnerDots_subset (pieces : List Text) : dropInnerDots pieces ⊆ pieces := by
  rw [dropInnerDots_eq]
  refine List.append_subset.2 ⟨List.filter_subset_self _, ?_⟩
  split
  · rename_i hsuffix
    exact hsuffix.subset
  · exact List.nil_subset _

/-- What holds of pieces, and still holds with a line feed after them, holds of what cleaning leaves
of them. -/
theorem forall_mem_dropFinalDot (hline : ∀ piece, P piece → P (piece ++ ['\n']))
    (h : ∀ piece ∈ pieces, P piece) : ∀ piece ∈ dropFinalDot pieces, P piece := by
  fun_induction dropFinalDot pieces with
  | case1 => exact h
  | case2 piece => simpa using h piece (by simp)
  | case3 piece => simpa using hline piece (h piece (by simp))
  | case4 piece rest _ _ ih =>
    obtain ⟨hpiece, hrest⟩ := List.forall_mem_cons.1 h
    exact List.forall_mem_cons.2 ⟨hpiece, ih hrest⟩

theorem forall_mem_cleanPieces (hline : ∀ piece, P piece → P (piece ++ ['\n']))
    (h : ∀ piece ∈ squeeze pieces, P piece) : ∀ piece ∈ cleanPieces pieces, P piece := by
  have hkept := forall_mem_dropFinalDot hline fun piece hm => h piece (dropLeadingDots_subset _ hm)
  unfold cleanPieces
  split
  · simp
  · rename_i first rest heq
    rw [heq] at hkept
    obtain ⟨hfirst, hrest⟩ := List.forall_mem_cons.1 hkept
    exact List.forall_mem_cons.2 ⟨hfirst, fun piece hm => hrest piece (dropInnerDots_subset _ hm)⟩

/-- A relative path is cleaned to a relative one. -/
theorem exists_clean_of_relative (hr : isRooted p = false) :
    ∃ names, clean p = ofSegments names ∧ ∀ name ∈ names, name ≠ [] ∧ '/' ∉ name := by
  by_cases hne : p = []
  · subst hne
    exact ⟨[], rfl, by simp⟩
  have hnames : ∀ piece ∈ cleanPieces (segments p), piece ≠ [] ∧ '/' ∉ piece := by
    refine forall_mem_cleanPieces (fun piece h => ⟨by simp, by simpa using h.2⟩) ?_
    rw [(squeeze_segments hr hne).1]
    exact fun name hm => mem_components hm
  by_cases hnil : cleanPieces (segments p) = []
  · exact ⟨[['.']], by rw [clean, if_neg (by simpa using hne), hnil]; rfl, by simp⟩
  · exact ⟨_, clean_of_cleanPieces hne rfl hnames hnil, hnames⟩

/-- The slash in front of a lone dot is taken away together with it. -/
theorem clean_loneDot (hr : isRooted p = true) (h : components p = [['.']]) : clean p = ['.'] := by
  obtain ⟨rest, rfl⟩ := exists_eq_slash hr
  rw [components_slash] at h
  rw [clean, if_neg (by simp), cleanPieces, squeeze_slash (by simp [h]), h]
  rfl

theorem clean_loneDotLine (hr : isRooted p = true) (h : components p = [['.', '\n']]) :
    clean p = ['\n'] := by
  obtain ⟨rest, rfl⟩ := exists_eq_slash hr
  rw [components_slash] at h
  rw [clean, if_neg (by simp), cleanPieces, squeeze_slash (by simp [h]), h]
  rfl

theorem clean_of_isLoneDot (hr : isRooted p = true) (h : IsLoneDot p) :
    clean p = ['.'] ∨ clean p = ['\n'] :=
  h.imp (clean_loneDot hr) (clean_loneDotLine hr)

theorem dropFinalDot_ne_nil_of_ne_nil (h : pieces ≠ []) : dropFinalDot pieces ≠ [] := by
  fun_cases dropFinalDot pieces <;> simp_all

theorem dropInnerDots_ne_nil (h : pieces ≠ []) : dropInnerDots pieces ≠ [] := by
  fun_induction dropInnerDots pieces <;> simp_all

/-- Any other rooted path stays rooted. -/
theorem exists_clean_of_takesRoot (h : TakesRoot p) : ∃ rest, clean p = '/' :: rest := by
  obtain ⟨hr, hdot⟩ := h
  obtain ⟨rest, rfl⟩ := exists_eq_slash hr
  rw [IsLoneDot, components_slash, not_or] at hdot
  by_cases hnil : components rest = []
  · exact ⟨[], clean_slashes hnil⟩
  · refine ⟨dropClimbs (ofSegments (dropInnerDots (dropFinalDot (components rest)))), ?_⟩
    rw [clean, if_neg (by simp), cleanPieces, squeeze_slash hnil, dropLeadingDots,
      if_neg (by simp), dropFinalDot_cons hdot.1 hdot.2,
      ofSegments_nil_cons (dropInnerDots_ne_nil (dropFinalDot_ne_nil_of_ne_nil hnil))]
    rfl

theorem exists_clean_of_not_takesRoot (h : ¬ TakesRoot p) :
    ∃ names, clean p = ofSegments names ∧ ∀ name ∈ names, name ≠ [] ∧ '/' ∉ name := by
  cases hr : isRooted p with
  | false => exact exists_clean_of_relative hr
  | true =>
    rcases clean_of_isLoneDot hr (isLoneDot_of_not_takesRoot hr h) with hclean | hclean
    · exact ⟨[['.']], hclean, by simp⟩
    · exact ⟨[['\n']], hclean, by simp⟩

theorem isRooted_clean (p : Path) : isRooted (clean p) = true ↔ TakesRoot p := by
  by_cases h : TakesRoot p
  · obtain ⟨rest, hclean⟩ := exists_clean_of_takesRoot h
    simp [hclean, h, isRooted]
  · obtain ⟨names, hclean, hn⟩ := exists_clean_of_not_takesRoot h
    simp [hclean, h, isRooted_ofSegments_names hn]

end Cleaning

section Appending

theorem isRooted_cons (c : Char) (rest : Text) : isRooted (c :: rest) = decide (c = '/') := by
  by_cases hc : c = '/'
  · simp [isRooted, hc]
  · simp [isRooted, hc]

/-- One more part: what is joined is rooted from then on if the part takes the root. -/
theorem isRooted_append (result part : Path) :
    isRooted (append result part) = true ↔ isRooted result = true ∨ TakesRoot part := by
  by_cases hnil : part = []
  · subst hnil
    simp [append, TakesRoot, isRooted]
  by_cases hroot : TakesRoot part
  · have hclean := (isRooted_clean part).2 hroot
    simp [append, hnil, hclean, hroot]
  · have hclean : isRooted (clean part) = false := by
      rw [← Bool.not_eq_true, isRooted_clean]
      exact hroot
    have happend : append result part = if result = [] ∨ result = ['/'] then result ++ clean part
        else result ++ '/' :: clean part := by
      simp [append, hnil, hclean]
    rw [happend]
    cases result with
    | nil => simp [hclean, hroot, show isRooted [] = false from rfl]
    | cons c rest =>
      split <;> simp [isRooted_cons, hroot]

/-- What parts make one after another is rooted just if one of them takes the root. -/
theorem isRooted_foldl_append (parts : List Path) (result : Path) :
    isRooted (parts.foldl append result) = true ↔
      isRooted result = true ∨ ∃ part ∈ parts, TakesRoot part := by
  induction parts generalizing result with
  | nil => simp
  | cons part rest ih =>
    rw [List.foldl_cons, ih, isRooted_append, or_assoc]
    simp

end Appending

section Cancelling

theorem areNames_of_forall (h : ∀ name ∈ names, name ≠ [] ∧ '/' ∉ name) : AreNames names := by
  induction names with
  | nil => trivial
  | cons name rest ih =>
    obtain ⟨hname, hrest⟩ := List.forall_mem_cons.1 h
    cases rest with
    | nil => exact hname.2
    | cons next more => exact ⟨hname, ih hrest⟩

theorem areNames_cons {piece : Text} (hp : piece ≠ [] ∧ '/' ∉ piece) (h : AreNames pieces) :
    AreNames (piece :: pieces) := by
  cases pieces with
  | nil => exact hp.2
  | cons next rest => exact ⟨hp, h⟩

theorem AreNames.of_cons {piece : Text} (h : AreNames (piece :: pieces)) : AreNames pieces := by
  cases pieces with
  | nil => trivial
  | cons next rest => exact h.2

theorem AreNames.cancel (h : AreNames pieces) : AreNames (cancel pieces) := by
  fun_induction Path.cancel pieces with
  | case1 => trivial
  | case2 => exact h
  | case3 => simp [AreNames]
  | case4 piece dots hc next others ih =>
    cases others with
    | nil => exact h.of_cons.of_cons
    | cons other more => exact areNames_cons h.2.2.1 (ih h.2.2.2)
  | case5 => simp [AreNames]
  | case6 piece dots rest _ _ ih => exact areNames_cons h.1 (ih h.2)

theorem AreNames.cancelTimes (n : Nat) (h : AreNames pieces) : AreNames (cancelTimes n pieces) := by
  induction n generalizing pieces with
  | zero => exact h
  | succ n ih =>
    rw [Path.cancelTimes]
    split
    · exact h
    · exact ih h.cancel

theorem AreNames.isRooted_ofSegments (h : AreNames pieces) :
    isRooted (ofSegments pieces) = false := by
  rcases pieces with _ | ⟨piece, _ | ⟨next, rest⟩⟩
  · rfl
  · cases piece with
    | nil => rfl
    | cons c more => exact (isRooted_cons c more).trans (by simpa using fun he => h (by simp [he]))
  · exact isRooted_ofSegments_cons h.1.1 h.1.2 _

/-- Cancelling never takes the slash of the root away. -/
theorem cancelAll_slash (rest : Text) : cancelAll ('/' :: rest) =
    rooted (cancelTimes ((segments rest).length + 1) (segments rest)) := by
  have hne : segments rest ≠ [] := Text.split_ne_nil '/' rest
  rw [cancelAll, segments_slash]
  show ofSegments (cancelTimes ((segments rest).length + 1) ([] :: segments rest)) = _
  rw [cancelTimes_nil_cons _ hne, ofSegments_nil_cons (cancelTimes_ne_nil _ hne)]

theorem isRooted_cancelAll_of_relative (hn : ∀ name ∈ names, name ≠ [] ∧ '/' ∉ name) :
    isRooted (cancelAll (ofSegments names)) = false := by
  cases names with
  | nil => decide
  | cons first rest =>
    rw [cancelAll, segments_ofSegments (fun name hm => (hn name hm).2) (by simp)]
    exact ((areNames_of_forall hn).cancelTimes _).isRooted_ofSegments

theorem isRooted_cancelAll_clean (p : Path) :
    isRooted (cancelAll (clean p)) = true ↔ TakesRoot p := by
  rw [← isRooted_clean]
  cases hr : isRooted (clean p) with
  | true =>
    obtain ⟨rest, hclean⟩ := exists_eq_slash hr
    simp [hclean, cancelAll_slash, isRooted_rooted]
  | false =>
    have hnot : ¬ TakesRoot p := by simp [← isRooted_clean, hr]
    obtain ⟨names, hclean, hn⟩ := exists_clean_of_not_takesRoot hnot
    simp [hclean, isRooted_cancelAll_of_relative hn]

end Cancelling

section Components

theorem filter_cleanedNames (names : List Name) :
    (cleanedNames names).filter (fun name => name ≠ ['.']) =
      names.filter fun name => name ≠ ['.'] := by
  rw [cleanedNames]
  split <;> simp

theorem dropWhile_append_dot (names tail : List Name) (htail : tail = [['.']] ∨ tail = []) :
    (names ++ tail).dropWhile (fun name => name = ['.', '.']) =
      names.dropWhile (fun name => name = ['.', '.']) ++ tail := by
  rw [List.dropWhile_append]
  rcases htail with rfl | rfl
  · split
    · rename_i hempty
      rw [List.isEmpty_iff.1 hempty]
      rfl
    · rfl
  · simp

theorem ite_dot (c : Prop) [Decidable c] : (if c then [['.']] else [] : List Name) = [['.']] ∨
    (if c then [['.']] else [] : List Name) = [] := by
  split <;> simp

theorem dropWhile_cleanedNames (names : List Name) :
    (cleanedNames names).dropWhile (fun name => name = ['.', '.']) =
      belowRoot names ++ if LeavesDot names then [['.']] else [] :=
  dropWhile_append_dot _ _ (ite_dot _)

theorem IsGrounded.append_dot (hg : IsGrounded names) {tail : List Name}
    (htail : tail = [['.']] ∨ tail = []) : IsGrounded (names ++ tail) := by
  cases names with
  | nil => rcases htail with rfl | rfl <;> decide
  | cons first rest => exact hg.append (by simp) tail

theorem isStep_of_mem_belowRoot (hs : ∀ name ∈ names, name = ['.'] ∨ IsStep name) :
    ∀ name ∈ belowRoot names, IsStep name :=
  fun name hm => forall_withoutDots hs name ((List.dropWhile_suffix _).subset hm)

theorem ledFrom_belowRoot (names : List Name) :
    ledFrom [] (belowRoot names) = ledFrom [] names := by
  rw [belowRoot, ledFrom_dropWhile, ledFrom_withoutDots]

/-- A rooted path without dot lines is cleaned to its components apart from single dots and the
steps above the root. -/
theorem clean_of_takesRoot (h : TakesRoot p) (hline : ∀ name ∈ components p, ¬ IsDotLine name)
    (hg : IsGrounded (belowRoot (components p))) :
    clean p = rooted ((cleanedNames (components p)).dropWhile fun name => name = ['.', '.']) := by
  obtain ⟨hr, hdot⟩ := h
  obtain ⟨rest, rfl⟩ := exists_eq_slash hr
  rw [IsLoneDot, not_or] at hdot
  by_cases hnil : components rest = []
  · rw [clean_slashes hnil, components_slash, hnil]
    rfl
  · obtain ⟨kept, hdrop, hkept⟩ := exists_dropFinalDot_cons [] fun hm => hline _ hm (.inl rfl)
    have hcleaned : dropInnerDots kept = cleanedNames (components ('/' :: rest)) := by
      rw [hkept, cleanedNames]
      simp [LeavesDot, hdot.1]
    rw [components_slash] at hdrop hcleaned hg ⊢
    rw [clean, if_neg (by simp), cleanPieces, squeeze_slash hnil, dropLeadingDots,
      if_neg (by simp), hdrop]
    simp only [hcleaned]
    rw [ofSegments_nil_cons (cleanedNames_ne_nil hnil)]
    show '/' :: dropClimbs (ofSegments _) = rooted _
    rw [dropClimbs_names fun name hm => (mem_components (cleanedNames_subset _ hm)).1]
    · rfl
    · rw [dropWhile_cleanedNames]
      exact hg.append_dot (ite_dot _)

/-- A part that does not take the root is cleaned to a relative path. -/
theorem clean_of_not_takesRoot (h : ¬ TakesRoot p)
    (hline : ∀ name ∈ components p, ¬ IsDotLine name) :
    clean p = ofSegments (cleanedNames (components p)) := by
  cases hr : isRooted p with
  | false => exact clean_relative_eq hr hline
  | true =>
    rcases isLoneDot_of_not_takesRoot hr h with hdot | hdotLine
    · rw [clean_loneDot hr hdot, hdot]
      decide
    · exact absurd (.inl rfl) (hline ['.', '\n'] (by simp [hdotLine]))

theorem components_ne_nil_of_not_takesRoot (h : ¬ TakesRoot p) (hne : p ≠ []) :
    components p ≠ [] := by
  cases hr : isRooted p with
  | false => exact (squeeze_segments hr hne).2
  | true => rcases isLoneDot_of_not_takesRoot hr h with hdot | hdot <;> simp [hdot]

/-- Parts that do not take the root are put behind a rooted path, each of them cleaned by itself. -/
theorem foldl_append_of_not_takesRoot (hr : ∀ part ∈ parts, ¬ TakesRoot part)
    (hline : ∀ part ∈ parts, ∀ name ∈ components part, ¬ IsDotLine name)
    (hn : ∀ name ∈ names, name ≠ [] ∧ '/' ∉ name) :
    parts.foldl append (rooted names) =
      rooted (names ++ parts.flatMap fun part => cleanedNames (components part)) :=
  foldl_append_cleaned true (fun part hm hne => ⟨clean_of_not_takesRoot (hr part hm) (hline part hm),
    components_ne_nil_of_not_takesRoot (hr part hm) hne⟩) hn

variable {first : Path} {rest : List Path}

theorem putTogether_subset (first : Path) (rest : List Path) :
    putTogether first rest ⊆ (first :: rest).flatMap components := by
  intro name hm
  rw [List.flatMap_cons]
  refine (List.mem_append.1 hm).elim (fun hm => ?_) fun hm => ?_
  · exact List.mem_append_left _ (cleanedNames_subset _ ((List.dropWhile_suffix _).subset hm))
  · exact List.mem_append_right _ (flatMap_cleanedNames_subset rest hm)

theorem dropWhile_dropWhile_append (names others : List Name) :
    (names.dropWhile (fun name => name = ['.', '.']) ++ others).dropWhile
        (fun name => name = ['.', '.']) =
      (names ++ others).dropWhile fun name => name = ['.', '.'] := by
  rw [List.dropWhile_append, List.dropWhile_append, List.dropWhile_idempotent]

/-- Apart from single dots and the steps above the root, all components are put together. -/
theorem belowRoot_putTogether (first : Path) (rest : List Path) :
    belowRoot (putTogether first rest) = belowRoot ((first :: rest).flatMap components) := by
  have hrest : (rest.flatMap fun part => cleanedNames (components part)).filter
        (fun name => name ≠ ['.']) =
      (rest.flatMap components).filter fun name => name ≠ ['.'] := by
    simp only [List.filter_flatMap, filter_cleanedNames]
  have hfirst : ((cleanedNames (components first)).dropWhile fun name => name = ['.', '.']).filter
        (fun name => name ≠ ['.']) = belowRoot (components first) := by
    rw [dropWhile_cleanedNames, List.filter_append]
    have hkept : (belowRoot (components first)).filter (fun name => name ≠ ['.']) =
        belowRoot (components first) := by
      refine List.filter_eq_self.2 fun name hm => ?_
      exact (List.mem_filter.1 ((List.dropWhile_suffix _).subset hm)).2
    rw [hkept]
    split <;> simp
  rw [belowRoot, putTogether, List.filter_append, hfirst, hrest, belowRoot,
    dropWhile_dropWhile_append, ← List.filter_append, ← List.flatMap_cons]
  rfl

theorem IsGrounded.of_belowRoot_append {others : List Name}
    (hg : IsGrounded (belowRoot (names ++ others))) : IsGrounded (belowRoot names) := by
  cases hbelow : belowRoot names with
  | nil => simp [IsGrounded]
  | cons first rest =>
    have hkept : belowRoot (names ++ others) =
        belowRoot names ++ others.filter fun name => name ≠ ['.'] := by
      rw [belowRoot, List.filter_append, List.dropWhile_append, if_neg]
      · rfl
      · rw [List.isEmpty_iff, ← belowRoot, hbelow]
        simp
    rw [hkept, hbelow] at hg
    exact hg

/-- What parts make one after another from the last one on that takes the root. -/
theorem foldl_append_eq_putTogether (before : List Path) (hfirst : TakesRoot first)
    (hrest : ∀ part ∈ rest, ¬ TakesRoot part)
    (hline : ∀ part ∈ first :: rest, ∀ name ∈ components part, ¬ IsDotLine name)
    (hg : IsGrounded (belowRoot ((first :: rest).flatMap components))) :
    (before ++ first :: rest).foldl append [] = rooted (putTogether first rest) := by
  obtain ⟨hclear, hclearRest⟩ := List.forall_mem_cons.1 hline
  have hne : first ≠ [] := by
    rintro rfl
    cases hfirst.1
  have hgfirst : IsGrounded (belowRoot (components first)) := by
    rw [List.flatMap_cons] at hg
    exact hg.of_belowRoot_append
  rw [List.foldl_append, List.foldl_cons,
    append_rooted _ hne (clean_of_takesRoot hfirst hclear hgfirst),
    foldl_append_of_not_takesRoot hrest hclearRest, putTogether]
  exact fun name hm => mem_components (cleanedNames_subset _ ((List.dropWhile_suffix _).subset hm))

end Components

section Joining

theorem cancelAll_rooted_pieces (hslash : ∀ piece ∈ pieces, '/' ∉ piece) (hne : pieces ≠ []) :
    cancelAll (rooted pieces) = rooted (cancelTimes (pieces.length + 1) pieces) := by
  rw [rooted, cancelAll_slash, segments_ofSegments hslash hne]

/-- Steps below the root are cancelled to what they come to in a relative path. -/
theorem components_cancelAll_steps (hs : ∀ name ∈ names, IsStep name) :
    components (cancelAll (rooted names)) = stacked false names := by
  by_cases hne : names = []
  · subst hne
    decide
  obtain ⟨hdone, hled, hstable⟩ :=
    cancelTimes_spec (n := names.length + 1) (Nat.le_succ _) (areSteps_of_forall hs)
  rw [cancelAll_rooted_pieces (fun name hm => (hs name hm).no_slash) hne,
    components_rooted_pieces hdone.no_slash (cancelTimes_ne_nil _ hne)]
  refine (stacked_false_eq (fun name hm => .inr (hs name hm)) (climbsFirst_of_stable hdone hstable)
    fun place => ?_).symm
  rw [ledFrom_nonempty, hled]

/-- A single dot after the steps stays where it is. -/
theorem components_cancelAll_dot (hs : ∀ name ∈ names, IsStep name) :
    components (cancelAll (rooted (names ++ [['.']]))) = stacked false names ++ [['.']] := by
  have hlength : names.length < (names ++ [['.']]).length + 1 := by
    rw [List.length_append]
    omega
  obtain ⟨kept, hkept, hclimbs, hled⟩ := exists_cancelTimes_dot hlength hs
  have hnames : ∀ name ∈ kept ++ [['.']], name ≠ [] ∧ '/' ∉ name :=
    List.forall_mem_append.2 ⟨fun name hm => (hclimbs.isStep name hm).ne_nil_and_no_slash, by simp⟩
  have hslash : ∀ piece ∈ names ++ [['.']], '/' ∉ piece :=
    List.forall_mem_append.2 ⟨fun name hm => (hs name hm).no_slash, by simp⟩
  rw [cancelAll_rooted_pieces hslash (by simp), hkept,
    stacked_false_eq (fun name hm => .inr (hs name hm)) hclimbs hled,
    components_rooted_names hnames]

variable {left : List Name}

theorem components_rooted_left (hs : ∀ name ∈ left, name = ['.'] ∨ IsStep name) :
    components (rooted left) = left :=
  components_rooted_names (ne_nil_and_no_slash_of_steps hs)

theorem takesRoot_rooted_iff (hs : ∀ name ∈ left, name = ['.'] ∨ IsStep name) :
    TakesRoot (rooted left) ↔ left ≠ [['.']] := by
  have hline : left ≠ [['.', '\n']] := by
    rintro rfl
    exact not_isDotLine_of_steps hs ['.', '\n'] (by simp) (.inl rfl)
  rw [TakesRoot, IsLoneDot, components_rooted_left hs]
  simp [hline, isRooted_rooted]

/-- The components of what is left once a rooted path is cleaned and cancelled. -/
theorem components_cancelAll_clean (hne : left ≠ [['.']])
    (hs : ∀ name ∈ left, name = ['.'] ∨ IsStep name) (hg : IsGrounded (belowRoot left)) :
    components (cancelAll (clean (rooted left))) =
      stacked false (belowRoot left) ++ if LeavesDot left then [['.']] else [] := by
  have hcomponents := components_rooted_left hs
  have hsteps := isStep_of_mem_belowRoot hs
  have hclean := clean_of_takesRoot ((takesRoot_rooted_iff hs).2 hne)
    (by rw [hcomponents]; exact not_isDotLine_of_steps hs) (by rwa [hcomponents])
  rw [hclean, hcomponents, dropWhile_cleanedNames]
  split
  · exact components_cancelAll_dot hsteps
  · rw [List.append_nil, List.append_nil, components_cancelAll_steps hsteps]

theorem isLoneDot_cancelAll_clean_iff (hne : left ≠ [['.']])
    (hs : ∀ name ∈ left, name = ['.'] ∨ IsStep name) (hg : IsGrounded (belowRoot left)) :
    IsLoneDot (cancelAll (clean (rooted left))) ↔
      LeavesDot left ∧ stacked false (belowRoot left) = [] := by
  have hsteps := isStep_of_mem_belowRoot hs
  have hkept := (climbsFirst_stacked fun name hm => .inr (hsteps name hm)).1.isStep
  rw [IsLoneDot, components_cancelAll_clean hne hs hg]
  by_cases hdot : LeavesDot left
  · simp [hdot, List.append_eq_singleton_iff]
  · rw [if_neg hdot, List.append_nil]
    constructor
    · rintro (hlone | hlone)
      · exact absurd rfl (hkept ['.'] (by simp [hlone])).ne_dot
      · exact absurd (.inl rfl) (hkept ['.', '\n'] (by simp [hlone])).not_dotLine
    · exact fun h => absurd h.1 hdot

/-- A rooted path loses its slash to a single dot that is left at its end where its names cancel
out. -/
theorem isRooted_clean_cancelAll_clean (hs : ∀ name ∈ left, name = ['.'] ∨ IsStep name)
    (hg : IsGrounded (belowRoot left)) :
    isRooted (clean (cancelAll (clean (rooted left)))) = true ↔
      ¬ (LeavesDot left ∧ stacked false (belowRoot left) = []) := by
  rw [isRooted_clean, TakesRoot, isRooted_cancelAll_clean, takesRoot_rooted_iff hs]
  by_cases hne : left = [['.']]
  · subst hne
    decide
  · rw [isLoneDot_cancelAll_clean_iff hne hs hg]
    simp [hne]

/-- What climbs first leads from the root to the names behind its steps upwards. -/
theorem ClimbsFirst.dropWhile (h : ClimbsFirst names) :
    names.dropWhile (fun name => name = ['.', '.']) = ledFrom [] names := by
  obtain ⟨n, plain, rfl, hplain⟩ := h
  rw [List.dropWhile_append_of_pos fun name hm => by simp [List.eq_of_mem_replicate hm],
    dropWhile_dots_of_plain hplain, ledFrom_replicate, List.take_nil, ledFrom_of_plain [] hplain]
  rfl

/-- Where the slash is kept, what is left leads where all names lead. -/
theorem clean_cancelAll_clean_rooted (hs : ∀ name ∈ left, name = ['.'] ∨ IsStep name)
    (hg : IsGrounded (belowRoot left)) (hled : IsGrounded (ledFrom [] left))
    (hr : isRooted (clean (cancelAll (clean (rooted left)))) = true) :
    clean (cancelAll (clean (rooted left))) = rooted (ledFrom [] left) := by
  have hroot := (isRooted_clean _).1 hr
  have hne : left ≠ [['.']] :=
    (takesRoot_rooted_iff hs).1 ((isRooted_cancelAll_clean _).1 hroot.1)
  obtain ⟨hclimbs, hwhere⟩ :=
    climbsFirst_stacked fun name hm => .inr (isStep_of_mem_belowRoot hs name hm)
  have hcomponents := components_cancelAll_clean hne hs hg
  have hlone : stacked false (belowRoot left) ++ (if LeavesDot left then [['.']] else []) ≠
      [['.']] := by
    rw [← hcomponents]
    exact fun h => hroot.2 (.inl h)
  have hsteps : ∀ name ∈ components (cancelAll (clean (rooted left))),
      name = ['.'] ∨ IsStep name := by
    rw [hcomponents]
    refine List.forall_mem_append.2 ⟨fun name hm => .inr (hclimbs.isStep name hm), ?_⟩
    split <;> simp
  have hbelow : belowRoot (components (cancelAll (clean (rooted left)))) = ledFrom [] left := by
    rw [hcomponents, belowRoot, List.filter_append,
      List.filter_eq_self.2 fun name hm => by simpa using (hclimbs.isStep name hm).ne_dot,
      ← ledFrom_belowRoot, ← hwhere, ← hclimbs.dropWhile]
    split <;> simp
  rw [clean_of_takesRoot hroot (not_isDotLine_of_steps hsteps) (by rwa [hbelow]), hcomponents,
    cleanedNames_append_dot hclimbs.isStep (ite_dot _) hlone, hclimbs.dropWhile, hwhere,
    ledFrom_belowRoot]

/-- A join is rooted just if one of its parts takes the root, and neither all that is put together
nor what is left of it once it is cancelled is a lone dot. If a part takes the root and the join is
not rooted, it is a dot or a line feed. Without dot lines, and without a name right below the root
that begins with two dots, it is the components from the last part on that takes the root that
decide: the slash is lost where they leave a dot at the end and all others cancel out before it.
Where it is kept, the join leads where the components lead, to the root itself if they lead
nowhere. -/
theorem isRooted_join_iff (parts : List Path) :
    (isRooted (join parts) = true ↔ (∃ part ∈ parts, TakesRoot part) ∧
        ¬ IsLoneDot (parts.foldl append []) ∧
        ¬ IsLoneDot (cancelAll (clean (parts.foldl append [])))) ∧
      ((∃ part ∈ parts, TakesRoot part) → isRooted (join parts) = false →
        join parts = ['.'] ∨ join parts = ['\n']) ∧
      ∀ before first rest, parts = before ++ first :: rest → TakesRoot first →
        (∀ part ∈ rest, ¬ TakesRoot part) →
        (∀ part ∈ first :: rest, ∀ name ∈ components part, ¬ IsDotLine name) →
        IsGrounded (belowRoot ((first :: rest).flatMap components)) →
        (isRooted (join parts) = true ↔ ¬ (LeavesDot (putTogether first rest) ∧
          stacked false (belowRoot ((first :: rest).flatMap components)) = [])) ∧
        (isRooted (join parts) = true →
          IsGrounded (ledFrom [] ((first :: rest).flatMap components)) →
          join parts = rooted (ledFrom [] ((first :: rest).flatMap components))) := by
  have hput := isRooted_foldl_append parts []
  rw [show isRooted [] = false from rfl, Bool.false_eq_true, false_or] at hput
  refine ⟨?_, fun htakes hlost => ?_, ?_⟩
  · rw [join, isRooted_clean, TakesRoot, isRooted_cancelAll_clean, TakesRoot, hput, and_assoc]
  · by_cases hroot : TakesRoot (parts.foldl append [])
    · have hcancel := (isRooted_cancelAll_clean _).2 hroot
      refine clean_of_isLoneDot hcancel (by_contra fun hdot => ?_)
      rw [join, (isRooted_clean _).2 ⟨hcancel, hdot⟩] at hlost
      cases hlost
    · have hdot := isLoneDot_of_not_takesRoot (hput.2 htakes) hroot
      rw [join]
      rcases clean_of_isLoneDot (hput.2 htakes) hdot with hclean | hclean
      · left
        rw [hclean]
        decide
      · right
        rw [hclean]
        decide
  · rintro before first rest rfl hfirst hrest hline hg
    have hs : ∀ name ∈ putTogether first rest, name = ['.'] ∨ IsStep name := by
      intro name hm
      obtain ⟨part, hpart, hm⟩ := List.mem_flatMap.1 (putTogether_subset first rest hm)
      exact isStep_of_mem_components (hline part hpart) name hm
    have hbelow := belowRoot_putTogether first rest
    have hled : ledFrom [] (putTogether first rest) =
        ledFrom [] ((first :: rest).flatMap components) := by
      rw [← ledFrom_belowRoot, hbelow, ledFrom_belowRoot]
    rw [join, foldl_append_eq_putTogether before hfirst hrest hline hg, ← hbelow, ← hled]
    rw [← hbelow] at hg
    exact ⟨isRooted_clean_cancelAll_clean hs hg,
      fun hr hgled => clean_cancelAll_clean_rooted hs hg hgled hr⟩

/-- Parts with single dots, one of them rooted and cleaned to a dot, that lead back to the root. -/
theorem isRooted_join_iff_cancelled :
    let first := "/../a/./..//b/./.".toList
    let rest := ["/.".toList, "..".toList]
    TakesRoot first ∧ (∀ part ∈ rest, ¬ TakesRoot part) ∧
      (∀ part ∈ first :: rest, ∀ name ∈ components part, ¬ IsDotLine name) ∧
      IsGrounded (belowRoot ((first :: rest).flatMap components)) ∧
      ¬ LeavesDot (putTogether first rest) ∧
      ledFrom [] ((first :: rest).flatMap components) = [] ∧
      join ("x".toList :: first :: rest) = "/".toList := by
  intro first rest
  have hfirst : TakesRoot first := by decide
  have hrest : ∀ part ∈ rest, ¬ TakesRoot part := by decide
  have hline : ∀ part ∈ first :: rest, ∀ name ∈ components part, ¬ IsDotLine name := by decide
  have hg : IsGrounded (belowRoot ((first :: rest).flatMap components)) := by decide
  have hdot : ¬ LeavesDot (putTogether first rest) := by decide
  have hled : ledFrom [] ((first :: rest).flatMap components) = [] := by decide
  obtain ⟨-, -, hjoin⟩ := isRooted_join_iff ("x".toList :: first :: rest)
  obtain ⟨hrooted, hwhere⟩ := hjoin ["x".toList] first rest rfl hfirst hrest hline hg
  have hkept := hwhere (hrooted.2 fun h => hdot h.1) (by rw [hled]; decide)
  rw [hled] at hkept
  exact ⟨hfirst, hrest, hline, hg, hdot, hled, hkept⟩

/-- The root loses its slash to a lone dot behind it, by itself or in a further part, and a rooted
part with nothing but a dot does not take the root. -/
theorem join_loneDot_losesRoot :
    isRooted "/.".toList = true ∧ join ["/.".toList] = ".".toList ∧
      join ["/".toList, ".".toList] = ".".toList ∧
      join ["/x".toList, "..".toList, ".".toList, ".".toList] = ".".toList ∧
      join ["/a".toList, "/.".toList] = "/a".toList := by
  decide +kernel

end Joining

end Dotfiles.Path
