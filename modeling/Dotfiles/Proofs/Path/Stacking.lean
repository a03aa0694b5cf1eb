import Dotfiles.Proofs.Path.Climbing

/-!
Joining paths as a walk over their components with a stack. The walk looks at every component
once; joining cleans and cancels until nothing changes. What both come to is steps upwards with
plain names after them, and such a path is known by where it leads from every place.
-/

namespace Dotfiles.Path

/-- The names kept so far, the last one first, after one more component. Two dots take the name
before them away. Where there is none, they are dropped at the root and kept in a relative path. -/
def stackStep (fromRoot : Bool) (stack : List Name) (name : Name) : List Name :=
  if name = ['.'] then stack
  else if name = ['.', '.'] then
    match stack with
    | [] => if fromRoot then [] else [name]
    | top :: below => if top = ['.', '.'] then name :: stack else below
  else name :: stack

/-- What components come to, one after another. -/
def stacked (fromRoot : Bool) (names : List Name) : List Name :=
  (names.foldl (stackStep fromRoot) []).reverse

/-- Steps upwards with plain names after them. -/
def ClimbsFirst (names : List Name) : Prop :=
  ∃ n plain, names = List.replicate n ['.', '.'] ++ plain ∧ ∀ name ∈ plain, IsPlain name

variable {place names : List Name} {name : Name} {pieces : List Text}

section Climbing

theorem ledFrom_replicate (n : Nat) (place names : List Name) :
    ledFrom place (List.replicate n ['.', '.'] ++ names) =
      ledFrom (place.take (place.length - n)) names := by
  induction n generalizing place with
  | zero => simp
  | succ n ih =>
    rw [List.replicate_succ, List.cons_append, ledFrom_dots, ih, List.dropLast_eq_take,
      List.take_take, List.length_take]
    congr 2
    omega

/-- Two paths that climb first are the same if they lead to the same place from everywhere. -/
theorem ClimbsFirst.eq_of_ledFrom {first second : List Name} (hf : ClimbsFirst first)
    (hs : ClimbsFirst second) (h : ∀ place, ledFrom place first = ledFrom place second) :
    first = second := by
  obtain ⟨n, plain, rfl, hplain⟩ := hf
  obtain ⟨m, plain', rfl, hplain'⟩ := hs
  have hroot := h []
  simp only [ledFrom_replicate, List.take_nil, ledFrom_of_plain _ hplain,
    ledFrom_of_plain _ hplain', List.nil_append] at hroot
  subst hroot
  -- a place deep enough for both shows how far each of them climbs
  have hdeep := congrArg List.length (h (List.replicate (n + m) ['x']))
  simp only [ledFrom_replicate, ledFrom_of_plain _ hplain, List.length_append, List.length_take,
    List.length_replicate] at hdeep
  obtain rfl : n = m := by omega
  rfl

theorem ClimbsFirst.isStep (h : ClimbsFirst names) : ∀ name ∈ names, IsStep name := by
  obtain ⟨n, plain, rfl, hplain⟩ := h
  exact List.forall_mem_append.2
    ⟨fun name hm => .inl (List.eq_of_mem_replicate hm), fun name hm => .inr (hplain name hm)⟩

theorem ClimbsFirst.of_concat (h : ClimbsFirst (names ++ [name])) (hname : name ≠ ['.', '.']) :
    ClimbsFirst names := by
  obtain ⟨n, plain, he, hplain⟩ := h
  rcases List.eq_nil_or_concat plain with rfl | ⟨init, last, rfl⟩
  · rw [List.append_nil] at he
    exact absurd (List.eq_of_mem_replicate (he ▸ List.mem_concat_self)) hname
  · rw [List.concat_eq_append, ← List.append_assoc] at he
    refine ⟨n, init, List.append_inj_left' he rfl, fun n hm => hplain n ?_⟩
    rw [List.concat_eq_append]
    exact List.mem_append_left _ hm

/-- What is left where nothing can be cancelled any more climbs first. -/
theorem climbsFirst_of_stable (h : AreSteps pieces) (hs : cancel pieces = pieces) :
    ClimbsFirst (pieces.filter fun s => !s.isEmpty) := by
  have hdots : ∀ name ∈ (pieces.filter fun s => !s.isEmpty).takeWhile (· = ['.', '.']),
      name = ['.', '.'] := fun name hm => by simpa using List.mem_takeWhile_imp hm
  have hplain := isPlain_ledFrom (List.forall_mem_nil _) fun name hm => .inr (h.forall_nonempty name hm)
  rw [ledFrom_nonempty, ← dropWhile_of_stable h hs] at hplain
  refine ⟨((pieces.filter fun s => !s.isEmpty).takeWhile (· = ['.', '.'])).length, _, ?_, hplain⟩
  rw [← List.eq_replicate_iff.2 ⟨rfl, hdots⟩, List.takeWhile_append_dropWhile]

end Climbing

section Stack

theorem stackStep_dot (fromRoot : Bool) (stack : List Name) :
    stackStep fromRoot stack ['.'] = stack :=
  if_pos rfl

theorem stackStep_dots_nil : stackStep false [] ['.', '.'] = [['.', '.']] := rfl

theorem stackStep_dots_dots (fromRoot : Bool) (below : List Name) :
    stackStep fromRoot (['.', '.'] :: below) ['.', '.'] = ['.', '.'] :: ['.', '.'] :: below := by
  simp [stackStep]

theorem stackStep_dots_cons (fromRoot : Bool) (below : List Name) (hname : name ≠ ['.', '.']) :
    stackStep fromRoot (name :: below) ['.', '.'] = below := by
  simp [stackStep, hname]

theorem stackStep_plain (fromRoot : Bool) (stack : List Name) (hn : IsPlain name) :
    stackStep fromRoot stack name = name :: stack := by
  rw [stackStep.eq_def, if_neg hn.ne_dot, if_neg hn.ne_dots]

theorem stacked_concat (fromRoot : Bool) (names : List Name) (name : Name) :
    stacked fromRoot (names ++ [name]) =
      (stackStep fromRoot (stacked fromRoot names).reverse name).reverse := by
  simp [stacked]

/-- One more component behind a path that climbs first. -/
theorem climbsFirst_stackStep (h : ClimbsFirst names) (hname : name = ['.'] ∨ IsStep name) :
    ClimbsFirst (stackStep false names.reverse name).reverse ∧
      ∀ place, ledFrom place (stackStep false names.reverse name).reverse =
        ledFrom place (names ++ [name]) := by
  rcases hname with rfl | rfl | hn
  · rw [stackStep_dot, List.reverse_reverse]
    refine ⟨h, fun place => ?_⟩
    rw [ledFrom_append, ledFrom_dot, ledFrom_nil]
  · obtain ⟨n, plain, rfl, hplain⟩ := h
    rcases List.eq_nil_or_concat plain with rfl | ⟨init, last, rfl⟩
    · -- nothing but steps upwards: one more is kept
      have hstep : stackStep false (List.replicate n ['.', '.'] ++ []).reverse ['.', '.'] =
          List.replicate (n + 1) ['.', '.'] := by
        rw [List.append_nil, List.reverse_replicate]
        cases n with
        | zero => exact stackStep_dots_nil
        | succ n => exact stackStep_dots_dots false _
      rw [hstep, List.reverse_replicate]
      refine ⟨⟨n + 1, [], by simp, by simp⟩, fun place => ?_⟩
      rw [List.append_nil, List.replicate_succ']
    · rw [List.concat_eq_append] at hplain ⊢
      have hlast := hplain last (by simp)
      rw [← List.append_assoc, List.reverse_concat, stackStep_dots_cons false _ hlast.ne_dots,
        List.reverse_reverse]
      refine ⟨⟨n, init, rfl, fun name hm => hplain name (List.mem_append_left _ hm)⟩,
        fun place => ?_⟩
      rw [List.append_assoc _ [last], ledFrom_append _ _ ([last] ++ _), List.singleton_append,
        ledFrom_plain _ hlast, ledFrom_dots, List.dropLast_concat, ledFrom_nil]
  · obtain ⟨n, plain, rfl, hplain⟩ := h
    rw [stackStep_plain false _ hn, List.reverse_cons, List.reverse_reverse]
    refine ⟨⟨n, plain ++ [name], by simp, isPlain_append hplain (by simpa using hn)⟩, fun _ => rfl⟩

/-- The walk over a relative path comes to a path that climbs first and leads to the same place. -/
theorem climbsFirst_stacked (hs : ∀ name ∈ names, name = ['.'] ∨ IsStep name) :
    ClimbsFirst (stacked false names) ∧
      ∀ place, ledFrom place (stacked false names) = ledFrom place names := by
  induction names using List.reverseRecOn with
  | nil => exact ⟨⟨0, [], rfl, by simp⟩, fun _ => rfl⟩
  | append_singleton names name ih =>
    obtain ⟨hclimbs, hled⟩ := ih fun n hm => hs n (List.mem_append_left _ hm)
    obtain ⟨hclimbs', hled'⟩ := climbsFirst_stackStep hclimbs (hs name (by simp))
    rw [stacked_concat]
    refine ⟨hclimbs', fun place => ?_⟩
    rw [hled', ledFrom_append, hled, ledFrom_append]

/-- What the walk over a relative path comes to is known by where it leads. -/
theorem stacked_false_eq {found : List Name} (hs : ∀ name ∈ names, name = ['.'] ∨ IsStep name)
    (hf : ClimbsFirst found) (h : ∀ place, ledFrom place found = ledFrom place names) :
    stacked false names = found := by
  obtain ⟨hclimbs, hled⟩ := climbsFirst_stacked hs
  exact hclimbs.eq_of_ledFrom hf fun place => (hled place).trans (h place).symm

theorem stacked_false_congr {others : List Name}
    (hs : ∀ name ∈ names, name = ['.'] ∨ IsStep name)
    (ho : ∀ name ∈ others, name = ['.'] ∨ IsStep name)
    (h : ∀ place, ledFrom place names = ledFrom place others) :
    stacked false names = stacked false others := by
  obtain ⟨hclimbs, hled⟩ := climbsFirst_stacked ho
  exact stacked_false_eq hs hclimbs fun place => (hled place).trans (h place).symm

/-- From the root, a stack that holds no steps upwards is kept as the stack of normal forms is. -/
theorem stackStep_true {stack : List Name} (hstack : ['.', '.'] ∉ stack) (hname : name ≠ []) :
    stackStep true stack name = step stack name := by
  rw [stackStep.eq_def, step]
  by_cases hdot : name = ['.']
  · rw [if_pos hdot, if_pos (.inr hdot)]
  · rw [if_neg hdot, if_neg (not_or.2 ⟨hname, hdot⟩)]
    by_cases hdots : name = ['.', '.']
    · rw [if_pos hdots, if_pos hdots]
      cases stack with
      | nil => rfl
      | cons top below => exact if_neg fun he => hstack (by rw [he]; exact List.mem_cons_self)
    · rw [if_neg hdots, if_neg hdots]

/-- The walk from the root comes to where the components lead. -/
theorem stacked_true (hne : ∀ name ∈ names, name ≠ []) : stacked true names = ledFrom [] names := by
  have hfold : ∀ stack : List Name, ['.', '.'] ∉ stack →
      names.foldl (stackStep true) stack = names.foldl step stack := by
    induction names with
    | nil => exact fun _ _ => rfl
    | cons name rest ih =>
      obtain ⟨hname, hrest⟩ := List.forall_mem_cons.1 hne
      intro stack hstack
      rw [List.foldl_cons, List.foldl_cons, stackStep_true hstack hname]
      refine ih hrest _ fun hmem => ?_
      have hkept : ∀ n ∈ step stack name, n ≠ ['.', '.'] :=
        forall_mem_step (fun n hm he => hstack (he ▸ hm)) fun _ _ h => h
      exact hkept _ hmem rfl
  rw [stacked, hfold [] (by simp)]
  rfl

end Stack

end Dotfiles.Path
