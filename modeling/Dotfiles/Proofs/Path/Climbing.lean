import Dotfiles.Proofs.Path.Plain
import Mathlib.Data.List.DropRight
import Mathlib.Data.List.Infix

/-!
Joining paths with steps upwards in them. Cancelling takes two dots away together with the name in
front of them, pass after pass, until there is nothing left to cancel; cleaning drops single dots
and the steps that would lead above the root. So the join is where the steps lead to if they are
taken one after another by their names alone.
-/

namespace Dotfiles.Path

/-- A name that leads up or down. -/
def IsStep (name : Name) : Prop := name = ['.', '.'] ∨ IsPlain name

instance (name : Name) : Decidable (IsStep name) := inferInstanceAs (Decidable (_ ∨ _))

/-- The names that lead where further ones lead to from a place, each of two dots taking away the
last name before it. -/
def ledFrom (place names : List Name) : List Name := (names.foldl step place.reverse).reverse

/-- Where a path begins that is followed from a place. -/
def startOf (place : List Name) (p : Path) : List Name := if isRooted p then [] else place

/-- Steps one after another, with an empty piece at their end perhaps. -/
def AreSteps : List Text → Prop
  | [] => True
  | [piece] => piece = [] ∨ IsStep piece
  | piece :: next :: rest => IsStep piece ∧ AreSteps (next :: rest)

variable {place names : List Name} {name : Name} {pieces : List Text}

section Steps

theorem IsStep.ne_nil (h : IsStep name) : name ≠ [] := by
  rcases h with rfl | h
  · simp
  · exact h.ne_nil

theorem IsStep.ne_dot (h : IsStep name) : name ≠ ['.'] := by
  rcases h with rfl | h
  · simp
  · exact h.ne_dot

theorem IsStep.no_slash (h : IsStep name) : '/' ∉ name := by
  rcases h with rfl | h
  · simp
  · exact h.no_slash

theorem IsStep.ne_nil_and_no_slash (h : IsStep name) : name ≠ [] ∧ '/' ∉ name :=
  ⟨h.ne_nil, h.no_slash⟩

theorem IsStep.not_dotLine (h : IsStep name) : ¬ IsDotLine name := by
  rcases h with rfl | h
  · decide
  · exact h.not_dotLine

@[simp] theorem ledFrom_nil (place : List Name) : ledFrom place [] = place := by
  simp [ledFrom]

theorem ledFrom_empty (place names : List Name) :
    ledFrom place ([] :: names) = ledFrom place names := by
  simp [ledFrom, step]

theorem ledFrom_dot (place names : List Name) :
    ledFrom place (['.'] :: names) = ledFrom place names := by
  simp [ledFrom, step]

theorem ledFrom_dots (place names : List Name) :
    ledFrom place (['.', '.'] :: names) = ledFrom place.dropLast names := by
  simp [ledFrom, step]

theorem ledFrom_plain (place : List Name) (hn : IsPlain name) (names : List Name) :
    ledFrom place (name :: names) = ledFrom (place ++ [name]) names := by
  simp [ledFrom, step, hn.ne_nil, hn.ne_dot, hn.ne_dots]

theorem ledFrom_append (place first second : List Name) :
    ledFrom place (first ++ second) = ledFrom (ledFrom place first) second := by
  simp [ledFrom]

theorem ledFrom_of_plain (place : List Name) (hn : ∀ name ∈ names, IsPlain name) :
    ledFrom place names = place ++ names := by
  induction names generalizing place with
  | nil => rw [ledFrom_nil, List.append_nil]
  | cons name rest ih =>
    obtain ⟨hname, hrest⟩ := List.forall_mem_cons.1 hn
    rw [ledFrom_plain place hname, ih _ hrest, List.append_assoc]
    rfl

/-- What holds of the names of a place, and of every further name that is kept, holds where they
lead. -/
theorem forall_mem_ledFrom {P : Name → Prop} (hplace : ∀ n ∈ place, P n)
    (hn : ∀ name ∈ names, name ≠ [] → name ≠ ['.'] → name ≠ ['.', '.'] → P name) :
    ∀ n ∈ ledFrom place names, P n := by
  have hfold : ∀ stack : List Name, (∀ n ∈ stack, P n) → ∀ n ∈ names.foldl step stack, P n := by
    induction names with
    | nil => exact fun _ h => h
    | cons name rest ih =>
      obtain ⟨hname, hrest⟩ := List.forall_mem_cons.1 hn
      exact fun stack hs => ih hrest _ (forall_mem_step hs hname)
  intro n hm
  exact hfold _ (fun n hm => hplace n (List.mem_reverse.1 hm)) n (List.mem_reverse.1 hm)

/-- Steps from a place of plain names lead to plain names. -/
theorem isPlain_ledFrom (hplace : ∀ n ∈ place, IsPlain n)
    (hs : ∀ name ∈ names, name = ['.'] ∨ IsStep name) : ∀ n ∈ ledFrom place names, IsPlain n :=
  forall_mem_ledFrom hplace fun name hm _ hdot hdots =>
    ((hs name hm).resolve_left hdot).resolve_left hdots

theorem isPlain_startOf (hplace : ∀ n ∈ place, IsPlain n) (p : Path) :
    ∀ n ∈ startOf place p, IsPlain n := by
  intro n hm
  unfold startOf at hm
  split at hm
  · cases hm
  · exact hplace n hm

theorem ledFrom_filter (place : List Name) {keep : Name → Bool}
    (hk : ∀ name ∈ names, keep name = false → name = [] ∨ name = ['.']) :
    ledFrom place (names.filter keep) = ledFrom place names := by
  induction names generalizing place with
  | nil => rfl
  | cons name rest ih =>
    obtain ⟨hname, hrest⟩ := List.forall_mem_cons.1 hk
    cases hkept : keep name with
    | true =>
      rw [List.filter_cons_of_pos hkept, ← List.singleton_append, ledFrom_append, ih _ hrest,
        ← ledFrom_append]
      rfl
    | false =>
      rw [List.filter_cons_of_neg (by simp [hkept]), ih _ hrest]
      rcases hname hkept with rfl | rfl
      · rw [ledFrom_empty]
      · rw [ledFrom_dot]

theorem ledFrom_nonempty (place names : List Name) :
    ledFrom place (names.filter fun s => !s.isEmpty) = ledFrom place names := by
  refine ledFrom_filter place fun name _ h => .inl ?_
  simpa using h

theorem ledFrom_withoutDots (place names : List Name) :
    ledFrom place (names.filter fun name => name ≠ ['.']) = ledFrom place names := by
  refine ledFrom_filter place fun name _ h => .inr ?_
  simpa using h

/-- Nothing lies above the root. -/
theorem ledFrom_dropWhile (names : List Name) :
    ledFrom [] (names.dropWhile fun name => name = ['.', '.']) = ledFrom [] names := by
  induction names with
  | nil => rfl
  | cons name rest ih =>
    by_cases h : name = ['.', '.']
    · rw [List.dropWhile_cons_of_pos (by simp [h]), ih, h, ledFrom_dots]
      rfl
    · rw [List.dropWhile_cons_of_neg (by simp [h])]

end Steps

section Cancelling

theorem areSteps_cons (h : pieces ≠ []) :
    AreSteps (name :: pieces) ↔ IsStep name ∧ AreSteps pieces := by
  obtain ⟨first, rest, rfl⟩ := List.exists_cons_of_ne_nil h
  rfl

theorem AreSteps.of_cons {piece : Text} (h : AreSteps (piece :: pieces)) : AreSteps pieces := by
  cases pieces with
  | nil => trivial
  | cons next rest => exact h.2

theorem AreSteps.isStep_of_ne_nil (h : AreSteps pieces) :
    ∀ piece ∈ pieces, piece ≠ [] → IsStep piece := by
  fun_induction AreSteps pieces with
  | case1 => simp
  | case2 piece =>
    intro other hm hne
    rw [List.mem_singleton.1 hm] at hne ⊢
    exact h.resolve_left hne
  | case3 piece next rest ih =>
    intro other hm hne
    rcases List.mem_cons.1 hm with rfl | hm
    · exact h.1
    · exact ih h.2 other hm hne

theorem AreSteps.no_slash (h : AreSteps pieces) : ∀ piece ∈ pieces, '/' ∉ piece := by
  intro piece hm
  by_cases hnil : piece = []
  · simp [hnil]
  · exact (h.isStep_of_ne_nil piece hm hnil).no_slash

theorem AreSteps.forall_nonempty (h : AreSteps pieces) :
    ∀ name ∈ pieces.filter (fun s => !s.isEmpty), IsStep name := by
  intro name hm
  obtain ⟨hm, hnil⟩ := List.mem_filter.1 hm
  exact h.isStep_of_ne_nil name hm (by simpa using hnil)

theorem areSteps_of_forall (h : ∀ name ∈ names, IsStep name) : AreSteps names := by
  induction names with
  | nil => trivial
  | cons name rest ih =>
    obtain ⟨hname, hrest⟩ := List.forall_mem_cons.1 h
    cases rest with
    | nil => exact .inr hname
    | cons next more => exact ⟨hname, ih hrest⟩

theorem AreSteps.not_dotsLine (h : AreSteps pieces) : ['.', '.', '\n'] ∉ pieces := by
  fun_induction AreSteps pieces with
  | case1 => simp
  | case2 piece =>
    rw [List.mem_singleton]
    rintro rfl
    rcases h with h | h
    · cases h
    · exact h.not_dotLine (.inr rfl)
  | case3 piece next rest ih =>
    rw [List.mem_cons, not_or]
    refine ⟨?_, ih h.2⟩
    rintro rfl
    exact h.1.not_dotLine (.inr rfl)

theorem cancel_ne_nil_of_ne_nil (h : pieces ≠ []) : cancel pieces ≠ [] := by
  fun_cases cancel pieces <;> simp_all

theorem ledFrom_cons_congr {first second : List Text}
    (h : ∀ place, ledFrom place first = ledFrom place second) (piece : Text) (place : List Name) :
    ledFrom place (piece :: first) = ledFrom place (piece :: second) := by
  rw [← List.singleton_append, ledFrom_append, h, ← ledFrom_append, List.singleton_append]

/-- A name that is cancelled and two dots after it lead nowhere. -/
theorem ledFrom_cancelled (place : List Name) (hn : IsStep name) (hc : isCancelled name = true)
    (rest : List Name) : ledFrom place (name :: ['.', '.'] :: rest) = ledFrom place rest := by
  rcases hn with rfl | hplain
  · cases hc
  · rw [ledFrom_plain place hplain, ledFrom_dots, List.dropLast_concat]

/-- One pass over steps leads to the same place, and what it changes gets shorter. -/
theorem cancel_spec (h : AreSteps pieces) :
    AreSteps (cancel pieces) ∧
      (∀ place, ledFrom place (cancel pieces) = ledFrom place pieces) ∧
      (cancel pieces = pieces ∨ (cancel pieces).length < pieces.length) := by
  fun_induction cancel pieces with
  | case1 => exact ⟨trivial, fun _ => rfl, .inl rfl⟩
  | case2 piece => exact ⟨h, fun _ => rfl, .inl rfl⟩
  | case3 piece dots hc =>
    simp only [Bool.and_eq_true, decide_eq_true_eq] at hc
    obtain ⟨hc, rfl⟩ := hc
    refine ⟨.inl rfl, fun place => ?_, .inr (by simp)⟩
    rw [ledFrom_cancelled place h.1 hc, ledFrom_empty]
  | case4 piece dots hc next others ih =>
    simp only [Bool.and_eq_true, decide_eq_true_eq] at hc
    obtain ⟨hc, rfl⟩ := hc
    obtain ⟨hpiece, _, hrest⟩ := h
    obtain ⟨hsteps, hled, hshort⟩ := ih hrest.of_cons
    refine ⟨?_, fun place => ?_, .inr ?_⟩
    · cases others with
      | nil => exact hrest
      | cons other more =>
        exact (areSteps_cons (cancel_ne_nil_of_ne_nil (by simp))).2 ⟨hrest.1, hsteps⟩
    · rw [ledFrom_cancelled place hpiece hc, ledFrom_cons_congr hled]
    · rcases hshort with hsame | hshort
      · simp [hsame]
      · simp only [List.length_cons]
        omega
  | case5 piece dots rest _ hc =>
    -- two dots with a line feed after them are no step
    simp only [Bool.and_eq_true, decide_eq_true_eq, List.isEmpty_iff] at hc
    obtain ⟨⟨_, rfl⟩, rfl⟩ := hc
    exact absurd (by simp) h.not_dotsLine
  | case6 piece dots rest _ _ ih =>
    obtain ⟨hsteps, hled, hshort⟩ := ih h.2
    refine ⟨(areSteps_cons (cancel_ne_nil_of_ne_nil (by simp))).2 ⟨h.1, hsteps⟩,
      ledFrom_cons_congr hled piece, ?_⟩
    rcases hshort with hsame | hshort
    · exact .inl (by rw [hsame])
    · exact .inr (Nat.succ_lt_succ hshort)

/-- As many passes as there are pieces leave nothing that could be cancelled. -/
theorem cancelTimes_spec {n : Nat} (hn : pieces.length ≤ n) (h : AreSteps pieces) :
    AreSteps (cancelTimes n pieces) ∧
      (∀ place, ledFrom place (cancelTimes n pieces) = ledFrom place pieces) ∧
      cancel (cancelTimes n pieces) = cancelTimes n pieces := by
  induction n generalizing pieces with
  | zero =>
    obtain rfl := List.length_eq_zero_iff.1 (Nat.le_zero.1 hn)
    exact ⟨trivial, fun _ => rfl, rfl⟩
  | succ n ih =>
    rw [cancelTimes]
    by_cases hsame : cancel pieces = pieces
    · rw [if_pos hsame]
      exact ⟨h, fun _ => rfl, hsame⟩
    · rw [if_neg hsame]
      obtain ⟨hsteps, hled, hshort⟩ := cancel_spec h
      obtain ⟨hsteps', hled', hstable⟩ := ih (by have := hshort.resolve_left hsame; omega) hsteps
      exact ⟨hsteps', fun place => (hled' place).trans (hled place), hstable⟩

/-- An empty piece in front is never cancelled. -/
theorem cancelTimes_nil_cons (n : Nat) (h : pieces ≠ []) :
    cancelTimes n ([] :: pieces) = [] :: cancelTimes n pieces := by
  have hcons : ∀ {pieces : List Text}, pieces ≠ [] →
      cancel ([] :: pieces) = [] :: cancel pieces := by
    intro pieces hne
    obtain ⟨next, rest, rfl⟩ := List.exists_cons_of_ne_nil hne
    rw [cancel.eq_def]
    rfl
  induction n generalizing pieces with
  | zero => rfl
  | succ n ih =>
    rw [cancelTimes, cancelTimes, hcons h]
    by_cases hsame : cancel pieces = pieces
    · rw [if_pos (by rw [hsame]), if_pos hsame]
    · rw [if_neg (fun he => hsame (List.cons.inj he).2), if_neg hsame,
        ih (cancel_ne_nil_of_ne_nil h)]

theorem cancelTimes_ne_nil (n : Nat) (h : pieces ≠ []) : cancelTimes n pieces ≠ [] := by
  induction n generalizing pieces with
  | zero => exact h
  | succ n ih =>
    rw [cancelTimes]
    split
    · exact h
    · exact ih (cancel_ne_nil_of_ne_nil h)

/-- What is stable does not begin with a name that two dots cancel, and is stable behind its first
piece. -/
theorem stable_cons {piece next : Text} {rest : List Text} (h : AreSteps (piece :: next :: rest))
    (hs : cancel (piece :: next :: rest) = piece :: next :: rest) :
    (isCancelled piece = true → next ≠ ['.', '.']) ∧ cancel (next :: rest) = next :: rest := by
  have hline : next ≠ ['.', '.', '\n'] := fun he => h.not_dotsLine (by simp [he])
  by_cases hc : isCancelled piece = true ∧ next = ['.', '.']
  · obtain ⟨hc, rfl⟩ := hc
    have hlength := congrArg List.length hs
    rw [cancel.eq_def] at hlength
    cases rest with
    | nil => simp [hc] at hlength
    | cons other others =>
      have hrest : AreSteps others := h.of_cons.of_cons.of_cons
      simp only [hc, decide_true, Bool.and_self, if_true, List.length_cons] at hlength
      rcases (cancel_spec hrest).2.2 with hsame | hshort
      · rw [hsame] at hlength
        omega
      · omega
  · rw [cancel.eq_def] at hs
    simp only [Bool.and_eq_true, decide_eq_true_eq, hc, hline, if_false, and_false, false_and,
      List.cons.injEq, true_and] at hs
    exact ⟨fun hp he => hc ⟨hp, he⟩, hs⟩

/-- Behind a name there are names alone, and an empty piece perhaps. -/
theorem plain_of_stable {piece : Text} (h : AreSteps (piece :: pieces))
    (hc : isCancelled piece = true) (hs : cancel (piece :: pieces) = piece :: pieces) :
    ∀ name ∈ pieces, name ≠ [] → IsPlain name := by
  induction pieces generalizing piece with
  | nil => simp
  | cons next rest ih =>
    obtain ⟨hdots, hstable⟩ := stable_cons h hs
    have hnext : next ≠ [] → IsPlain next := by
      intro hne
      exact (h.isStep_of_ne_nil next (by simp) hne).resolve_left (hdots hc)
    intro name hm hne
    rcases List.mem_cons.1 hm with rfl | hm
    · exact hnext hne
    · cases rest with
      | nil => cases hm
      | cons other more =>
        have hplain := hnext h.2.1.ne_nil
        exact ih h.2 (by simp [isCancelled, hplain.ne_nil, hplain.ne_dots]) hstable name hm hne

/-- Where nothing is left to cancel, there are steps above the root, and after them names alone. -/
theorem dropWhile_of_stable (h : AreSteps pieces) (hs : cancel pieces = pieces) :
    ((pieces.filter fun s => !s.isEmpty).dropWhile fun name => name = ['.', '.']) =
      ledFrom [] pieces := by
  induction pieces with
  | nil => rfl
  | cons piece rest ih =>
    by_cases hp : piece = ['.', '.']
    · subst hp
      rw [ledFrom_dots, List.filter_cons_of_pos (by simp), List.dropWhile_cons_of_pos (by simp)]
      cases rest with
      | nil => rfl
      | cons next more => exact ih h.2 (stable_cons h hs).2
    · by_cases hnil : piece = []
      · subst hnil
        cases rest with
        | nil => rfl
        | cons next more => exact absurd rfl h.1.ne_nil
      · have hplain : ∀ name ∈ piece :: rest, name ≠ [] → IsPlain name := by
          intro name hm hne
          rcases List.mem_cons.1 hm with rfl | hm
          · exact (h.isStep_of_ne_nil name (by simp) hnil).resolve_left hp
          · exact plain_of_stable h (by simp [isCancelled, hp, hnil]) hs name hm hne
        have hkept : ∀ name ∈ (piece :: rest).filter (fun s => !s.isEmpty), IsPlain name := by
          intro name hm
          obtain ⟨hm, hne⟩ := List.mem_filter.1 hm
          exact hplain name hm (by simpa using hne)
        rw [← ledFrom_nonempty, ledFrom_of_plain [] hkept,
          List.filter_cons_of_pos (by simp [hnil]), List.dropWhile_cons_of_neg (by simp [hp])]
        rfl

end Cancelling

section Cleaning

/-- Whether names do not end in a single dot or a dot line. -/
def EndsPlainly (names : List Name) : Prop :=
  ∀ name ∈ names.getLast?, name ≠ ['.'] ∧ name ≠ ['.', '\n']

theorem dropFinalDot_of_endsPlainly (h : EndsPlainly names) : dropFinalDot names = names := by
  rcases List.eq_nil_or_concat names with rfl | ⟨init, last, rfl⟩
  · rfl
  · rw [List.concat_eq_append] at h ⊢
    obtain ⟨hdot, hline⟩ := h last (by simp)
    exact dropFinalDot_concat init hdot hline

theorem EndsPlainly.of_cons (h : EndsPlainly (name :: names)) : EndsPlainly names := by
  intro last hlast
  refine h last ?_
  cases names with
  | nil => cases hlast
  | cons next rest => rwa [List.getLast?_cons_cons]

theorem dropInnerDots_of_endsPlainly (h : EndsPlainly names) :
    dropInnerDots names = names.filter fun name => name ≠ ['.'] := by
  fun_induction dropInnerDots names with
  | case1 => rfl
  | case2 piece =>
    have hdot := (h piece rfl).1
    rw [List.filter_cons_of_pos (by simpa using hdot)]
    rfl
  | case3 rest hne ih => rw [ih h.of_cons, List.filter_cons_of_neg (by simp)]
  | case4 piece rest hne hdot ih =>
    rw [ih h.of_cons, List.filter_cons_of_pos (by simpa using hdot)]

/-- Of pieces that do not end in a dot, cleaning takes all single dots. -/
theorem cleanPieces_of_endsPlainly (h : EndsPlainly (squeeze pieces)) :
    cleanPieces pieces = (squeeze pieces).filter fun name => name ≠ ['.'] := by
  rw [cleanPieces]
  generalize squeeze pieces = names at h
  induction names with
  | nil => rfl
  | cons name rest ih =>
    by_cases hdot : name = ['.']
    · subst hdot
      have hne : rest ≠ [] := by
        rintro rfl
        exact (h ['.'] rfl).1 rfl
      rw [dropLeadingDots, if_pos ⟨rfl, hne⟩, ih h.of_cons, List.filter_cons_of_neg (by simp)]
    · rw [dropLeadingDots, if_neg (fun hd => hdot hd.1), dropFinalDot_of_endsPlainly h,
        List.filter_cons_of_pos (by simpa using hdot)]
      exact congrArg _ (dropInnerDots_of_endsPlainly h.of_cons)

/-- Steps that lead above the root are dropped, and those after a name are kept. -/
theorem dropClimbs_names (h : ∀ name ∈ names, name ≠ [])
    (hg : IsGrounded (names.dropWhile fun name => name = ['.', '.'])) :
    dropClimbs (ofSegments names) = ofSegments (names.dropWhile fun name => name = ['.', '.']) := by
  induction names with
  | nil => rfl
  | cons name rest ih =>
    obtain ⟨hname, hrest⟩ := List.forall_mem_cons.1 h
    by_cases hdots : name = ['.', '.']
    · subst hdots
      rw [List.dropWhile_cons_of_pos (by simp)] at hg ⊢
      rw [← ih hrest hg]
      cases rest with
      | nil => rfl
      | cons next more => rfl
    · rw [List.dropWhile_cons_of_neg (by simpa using hdots)] at hg ⊢
      exact dropClimbs_ofSegments_cons hname (hg name rfl) rest

theorem forall_withoutDots (hs : ∀ name ∈ names, name = ['.'] ∨ IsStep name) :
    ∀ name ∈ names.filter (fun name => name ≠ ['.']), IsStep name := by
  intro name hm
  obtain ⟨hm, hdot⟩ := List.mem_filter.1 hm
  exact (hs name hm).resolve_left (by simpa using hdot)

theorem EndsPlainly.withoutDots_ne_nil (h : EndsPlainly names) (hne : names ≠ []) :
    names.filter (fun name => name ≠ ['.']) ≠ [] := by
  rcases List.eq_nil_or_concat names with rfl | ⟨init, last, rfl⟩
  · exact absurd rfl hne
  · have hdot := (h last (by simp)).1
    simp [hdot]

theorem exists_eq_slash {p : Path} (hr : isRooted p = true) : ∃ rest, p = '/' :: rest := by
  unfold isRooted at hr
  split at hr
  · exact ⟨_, rfl⟩
  · cases hr

/-- A rooted path is squeezed to its components with an empty piece in front of them. -/
theorem squeeze_slash {rest : Text} (hne : components rest ≠ []) :
    squeeze (segments ('/' :: rest)) = [] :: components rest := by
  have hkept : (segments rest).filter (fun s => !s.isEmpty) ≠ [] := hne
  rw [segments_slash]
  simp [squeeze, components, hkept]

/-- Nothing but slashes is cleaned to the root. -/
theorem clean_slashes {rest : Text} (hnil : components rest = []) :
    clean ('/' :: rest) = ['/'] := by
  have hkept : (segments rest).filter (fun s => !s.isEmpty) = [] := hnil
  have hsqueeze : squeeze (segments ('/' :: rest)) = [[], []] := by
    rw [segments_slash]
    simp only [squeeze, hkept, List.isEmpty_nil, Bool.and_self, if_true]
  rw [clean, if_neg (by simp), cleanPieces, hsqueeze]
  rfl

/-- Cleaning a rooted path drops single dots and the steps above the root. -/
theorem clean_rooted_steps {p : Path} (hr : isRooted p = true)
    (hs : ∀ name ∈ components p, name = ['.'] ∨ IsStep name) (he : EndsPlainly (components p))
    (hg : IsGrounded (((components p).filter fun name => name ≠ ['.']).dropWhile
      fun name => name = ['.', '.'])) :
    clean p = rooted (((components p).filter fun name => name ≠ ['.']).dropWhile
      fun name => name = ['.', '.']) := by
  obtain ⟨rest, rfl⟩ := exists_eq_slash hr
  rw [components_slash] at hs he hg ⊢
  by_cases hnil : components rest = []
  · rw [clean_slashes hnil, hnil]
    rfl
  · have hplainly : EndsPlainly ([] :: components rest) := by
      intro last hlast
      rw [List.getLast?_cons_of_ne_nil hnil] at hlast
      exact he last hlast
    rw [clean, if_neg (by simp), cleanPieces_of_endsPlainly (by rwa [squeeze_slash hnil]),
      squeeze_slash hnil, List.filter_cons_of_pos (by simp),
      ofSegments_nil_cons (he.withoutDots_ne_nil hnil)]
    show '/' :: dropClimbs (ofSegments _) = rooted _
    rw [dropClimbs_names (fun name hm => (forall_withoutDots hs name hm).ne_nil) hg]
    rfl

theorem exists_segments {p : Path} (hr : isRooted p = false) (hne : p ≠ []) :
    ∃ first rest, segments p = first :: rest ∧ first ≠ [] := by
  obtain ⟨c, more, rfl⟩ := List.exists_cons_of_ne_nil hne
  have hc : c ≠ '/' := by
    rintro rfl
    cases hr
  rw [segments, Text.split, if_neg hc]
  cases Text.split '/' more with
  | nil => exact ⟨[c], [], rfl, by simp⟩
  | cons part parts => exact ⟨c :: part, parts, rfl, by simp⟩

/-- A relative path that is not empty is squeezed to its components, and has some. -/
theorem squeeze_segments {p : Path} (hr : isRooted p = false) (hne : p ≠ []) :
    squeeze (segments p) = components p ∧ components p ≠ [] := by
  obtain ⟨first, rest, hsegments, hfirst⟩ := exists_segments hr hne
  have hcomponents : components p = first :: rest.filter fun s => !s.isEmpty := by
    rw [components, hsegments, List.filter_cons_of_pos (by simpa using hfirst)]
  refine ⟨?_, by simp [hcomponents]⟩
  rw [hsegments, hcomponents]
  simp [squeeze, hfirst]

/-- A path is cleaned to what is put together of the pieces that are left, if they are components
of a relative path. -/
theorem clean_of_cleanPieces {p : Path} (hne : p ≠ []) (hp : cleanPieces (segments p) = names)
    (hn : ∀ name ∈ names, name ≠ [] ∧ '/' ∉ name) (hnames : names ≠ []) :
    clean p = ofSegments names := by
  have hrelative := isRooted_ofSegments_names hn
  rw [clean, if_neg (by simpa using hne), hp]
  split
  · rename_i hempty
    exact absurd ((ofSegments_eq_nil_iff fun name hm => (hn name hm).1).1 hempty) hnames
  · rename_i hrooted
    rw [hrooted] at hrelative
    cases hrelative
  · rfl

/-- Cleaning a relative path drops single dots. -/
theorem clean_relative_steps {p : Path} (hr : isRooted p = false) (hne : p ≠ [])
    (he : EndsPlainly (components p)) :
    clean p = ofSegments ((components p).filter fun name => name ≠ ['.']) ∧
      (components p).filter (fun name => name ≠ ['.']) ≠ [] := by
  obtain ⟨hsqueeze, hcomponents⟩ := squeeze_segments hr hne
  have hkept := he.withoutDots_ne_nil hcomponents
  refine ⟨clean_of_cleanPieces hne ?_ (fun name hm => ?_) hkept, hkept⟩
  · rw [cleanPieces_of_endsPlainly (by rwa [hsqueeze]), hsqueeze]
  · exact mem_components (List.mem_of_mem_filter hm)

end Cleaning

section Joining

/-- Whether no name right below the root begins with two dots, wherever steps from a place lead on
their way. -/
def IsGroundedAlong (place names : List Name) : Prop :=
  ∀ above ∈ names.inits, IsGrounded (ledFrom place above)

instance (place names : List Name) : Decidable (IsGroundedAlong place names) :=
  inferInstanceAs (Decidable (∀ above ∈ names.inits, _))

theorem IsGrounded.dropLast (hg : IsGrounded place) : IsGrounded place.dropLast := by
  rcases place with _ | ⟨first, _ | ⟨second, more⟩⟩
  · exact hg
  · simp [IsGrounded]
  · exact hg

theorem IsGroundedAlong.isGrounded (h : IsGroundedAlong place names) :
    IsGrounded (ledFrom place names) :=
  h names ((List.mem_inits _ _).2 (List.prefix_refl names))

theorem IsGroundedAlong.of_cons (h : IsGroundedAlong place (name :: names)) :
    IsGroundedAlong (ledFrom place [name]) names := by
  intro above hm
  rw [← ledFrom_append]
  refine h _ ((List.mem_inits _ _).2 ?_)
  exact (List.prefix_append_right_inj [name]).2 ((List.mem_inits _ _).1 hm)

/-- The first name below the root, single dots and the steps above the root apart. -/
theorem IsGroundedAlong.isGrounded_dropWhile (h : IsGroundedAlong [] names)
    (hs : ∀ name ∈ names, name = ['.'] ∨ IsStep name) :
    IsGrounded ((names.filter fun name => name ≠ ['.']).dropWhile
      fun name => name = ['.', '.']) := by
  induction names with
  | nil => simp [IsGrounded]
  | cons name rest ih =>
    obtain ⟨hname, hrest⟩ := List.forall_mem_cons.1 hs
    have hbehind := h.of_cons
    rcases hname with rfl | rfl | hplain
    · rw [List.filter_cons_of_neg (by simp)]
      rw [ledFrom_dot, ledFrom_nil] at hbehind
      exact ih hbehind hrest
    · rw [List.filter_cons_of_pos (by simp), List.dropWhile_cons_of_pos (by simp)]
      rw [ledFrom_dots, ledFrom_nil] at hbehind
      exact ih hbehind hrest
    · rw [List.filter_cons_of_pos (by simpa using hplain.ne_dot),
        List.dropWhile_cons_of_neg (by simpa using hplain.ne_dots)]
      have hfirst := h [name] (by simp)
      rw [ledFrom_plain _ hplain, ledFrom_nil] at hfirst
      exact hfirst

theorem endsPlainly_of_steps (hs : ∀ name ∈ names, IsStep name) : EndsPlainly names := by
  intro last hlast
  have hstep := hs last (List.mem_of_getLast? hlast)
  exact ⟨hstep.ne_dot, fun he => hstep.not_dotLine (.inl he)⟩

theorem clean_rooted_of_steps {p : Path} (hr : isRooted p = true)
    (hs : ∀ name ∈ components p, IsStep name)
    (hg : IsGrounded ((components p).dropWhile fun name => name = ['.', '.'])) :
    clean p = rooted ((components p).dropWhile fun name => name = ['.', '.']) := by
  have hfilter : (components p).filter (fun name => name ≠ ['.']) = components p :=
    List.filter_eq_self.2 fun name hm => by simpa using (hs name hm).ne_dot
  have hclean := clean_rooted_steps hr (fun name hm => .inr (hs name hm)) (endsPlainly_of_steps hs)
  rw [hfilter] at hclean
  exact hclean hg

theorem components_rooted_pieces (hslash : ∀ piece ∈ pieces, '/' ∉ piece) (hne : pieces ≠ []) :
    components (rooted pieces) = pieces.filter fun s => !s.isEmpty := by
  rw [rooted, components_slash, components, segments_ofSegments hslash hne]

theorem components_rooted_steps (hs : ∀ name ∈ names, IsStep name) :
    components (rooted names) = names :=
  components_rooted_names fun name hm => (hs name hm).ne_nil_and_no_slash

/-- Pieces behind a leading slash are cancelled and cleaned to the path they lead to. -/
theorem clean_cancelTimes {n : Nat} (hn : pieces.length ≤ n) (hne : pieces ≠ [])
    (hs : AreSteps pieces) (hg : IsGrounded (ledFrom [] pieces)) :
    clean (ofSegments (cancelTimes n ([] :: pieces))) = rooted (ledFrom [] pieces) := by
  obtain ⟨hsteps, hled, hstable⟩ := cancelTimes_spec hn hs
  have hkept := cancelTimes_ne_nil n hne
  have hcomponents := components_rooted_pieces hsteps.no_slash hkept
  have hwhere := (dropWhile_of_stable hsteps hstable).trans (hled [])
  rw [cancelTimes_nil_cons n hne, ofSegments_nil_cons hkept]
  have hclean := clean_rooted_of_steps (isRooted_rooted (cancelTimes n pieces)) ?_ ?_
  · rwa [hcomponents, hwhere] at hclean
  · rw [hcomponents]
    exact hsteps.forall_nonempty
  · rwa [hcomponents, hwhere]

theorem clean_cancelAll (hs : ∀ name ∈ names, IsStep name) (hg : IsGrounded (ledFrom [] names)) :
    clean (cancelAll (rooted names)) = rooted (ledFrom [] names) := by
  cases names with
  | nil =>
    rw [ledFrom_nil]
    decide
  | cons first rest =>
    have hsegments : segments (rooted (first :: rest)) = [] :: first :: rest := by
      rw [rooted, segments_slash,
        segments_ofSegments (fun name hm => (hs name hm).no_slash) (by simp)]
    rw [cancelAll, hsegments]
    exact clean_cancelTimes (Nat.le_succ _) (by simp) (areSteps_of_forall hs) hg

/-- What is joined to a rooted path is cleaned, cancelled and cleaned again to where its steps
lead. -/
theorem clean_cancelAll_clean (hs : ∀ name ∈ names, IsStep name)
    (hg : IsGrounded (names.dropWhile fun name => name = ['.', '.']))
    (hled : IsGrounded (ledFrom [] names)) :
    clean (cancelAll (clean (rooted names))) = rooted (ledFrom [] names) := by
  have hcomponents := components_rooted_steps hs
  have hclean := clean_rooted_of_steps (isRooted_rooted names)
    (by rwa [hcomponents]) (by rwa [hcomponents])
  rw [hclean, hcomponents, clean_cancelAll, ledFrom_dropWhile]
  · exact fun name hm => hs name ((List.dropWhile_suffix _).subset hm)
  · rwa [ledFrom_dropWhile]

theorem dropWhile_dots_of_plain (hplace : ∀ n ∈ place, IsPlain n) :
    place.dropWhile (fun name => name = ['.', '.']) = place := by
  cases place with
  | nil => rfl
  | cons first rest =>
    exact List.dropWhile_cons_of_neg (by simp [(hplace first (by simp)).ne_dots])

theorem append_nil_rooted (hplace : ∀ n ∈ place, IsPlain n) (hg : IsGrounded place) :
    append [] (rooted place) = rooted place := by
  have hcomponents := components_rooted hplace
  have hdrop := dropWhile_dots_of_plain hplace
  have hclean := clean_rooted_of_steps (isRooted_rooted place)
    (by rw [hcomponents]; exact fun name hm => .inr (hplace name hm)) (by rwa [hcomponents, hdrop])
  rw [hcomponents, hdrop] at hclean
  rw [append, if_neg (by simp [rooted]), hclean]
  rfl

/-- A relative part is put behind the path joined so far. -/
theorem append_relative (result : Path) {p : Path} (hne : p ≠ [])
    (hclean : clean p = ofSegments names) (hn : ∀ name ∈ names, name ≠ [] ∧ '/' ∉ name) :
    append result p = if result = [] ∨ result = ['/'] then result ++ ofSegments names
      else result ++ '/' :: ofSegments names := by
  rw [append, if_neg (by simpa using hne), hclean]
  simp only [isRooted_ofSegments_names hn, Bool.false_eq_true, if_false]

theorem append_rooted_relative (hplace : ∀ n ∈ place, n ≠ []) {p : Path} (hne : p ≠ [])
    (hclean : clean p = ofSegments names) (hn : ∀ name ∈ names, name ≠ [] ∧ '/' ∉ name)
    (hnames : names ≠ []) : append (rooted place) p = rooted (place ++ names) := by
  rw [append_relative _ hne hclean hn]
  cases place with
  | nil => rfl
  | cons first rest =>
    have hpath : ofSegments (first :: rest) ≠ [] := fun he =>
      List.cons_ne_nil _ _ ((ofSegments_eq_nil_iff hplace).1 he)
    rw [if_neg (by simpa [rooted] using hpath), rooted_append (by simp) hnames]

/-- A rooted path of plain names and a path of steps are joined to where the steps lead. -/
theorem join_steps (hplace : ∀ n ∈ place, IsPlain n) (hg : IsGrounded place) {p : Path}
    (hne : p ≠ []) (hs : ∀ name ∈ components p, name = ['.'] ∨ IsStep name)
    (he : EndsPlainly (components p))
    (hc : IsGroundedAlong (startOf place p) (components p)) :
    join [rooted place, p] = rooted (ledFrom (startOf place p) (components p)) := by
  have hsteps := forall_withoutDots hs
  have hled := hc.isGrounded
  rw [join, List.foldl_cons, List.foldl_cons, List.foldl_nil, append_nil_rooted hplace hg]
  cases hr : isRooted p with
  | true =>
    have hstart : startOf place p = [] := if_pos hr
    rw [hstart] at hc hled ⊢
    have hdrop := hc.isGrounded_dropWhile hs
    have happend : append (rooted place) p =
        rooted (((components p).filter fun name => name ≠ ['.']).dropWhile
          fun name => name = ['.', '.']) := by
      rw [append, if_neg (by simpa using hne), clean_rooted_steps hr hs he hdrop]
      rfl
    rw [happend, clean_cancelAll_clean
      (fun name hm => hsteps name ((List.dropWhile_suffix _).subset hm))
      (by rwa [List.dropWhile_idempotent]) (by rwa [ledFrom_dropWhile, ledFrom_withoutDots]),
      ledFrom_dropWhile, ledFrom_withoutDots]
  | false =>
    have hstart : startOf place p = place := if_neg (by simp [hr])
    rw [hstart] at hc hled ⊢
    obtain ⟨hclean, hkept⟩ := clean_relative_steps hr hne he
    have hplain : ∀ name ∈ place, IsStep name := fun name hm => .inr (hplace name hm)
    have hwhere : ledFrom [] (place ++ (components p).filter fun name => name ≠ ['.']) =
        ledFrom place (components p) := by
      rw [ledFrom_append, ledFrom_of_plain [] hplace, List.nil_append, ledFrom_withoutDots]
    rw [append_rooted_relative (fun n hm => (hplace n hm).ne_nil) hne hclean
        (fun name hm => (hsteps name hm).ne_nil_and_no_slash) hkept,
      clean_cancelAll_clean (List.forall_mem_append.2 ⟨hplain, hsteps⟩), hwhere]
    · cases place with
      | nil => exact hc.isGrounded_dropWhile hs
      | cons first rest =>
        rw [List.cons_append,
          List.dropWhile_cons_of_neg (by simp [(hplace first (by simp)).ne_dots])]
        exact hg
    · rwa [hwhere]

end Joining

end Dotfiles.Path
