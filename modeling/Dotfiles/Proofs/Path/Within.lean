import Dotfiles.Proofs.Path.Ordinary

/-!
When a path stays within the root that it is joined to. It does unless a dot line is its
only component or the last one of the root: at the very end of a path, one or two dots with a
line feed after them are taken for the dots, and two dots take the component before them along.
-/

namespace Dotfiles

theorem Text.split_append (sep : Char) (a t : Text) :
    Text.split sep (a ++ sep :: t) = Text.split sep a ++ Text.split sep t := by
  induction a with
  | nil => simp [Text.split]
  | cons c rest ih =>
    by_cases hc : c = sep
    · simp [Text.split, hc, ih]
    · cases hs : Text.split sep rest with
      | nil => exact absurd hs (Text.split_ne_nil sep rest)
      | cons first others => simp [Text.split, hc, ih, hs]

namespace Path

/-- Whether a path is the given one or lies below it. -/
def IsWithin (root p : Path) : Prop := p = root ∨ root ++ ['/'] <+: p

instance (root p : Path) : Decidable (IsWithin root p) := inferInstanceAs (Decidable (_ ∨ _))

/-- Whether components that are joined to those of a root stay below it. -/
def StaysBelow (root names : List Name) : Prop :=
  root.getLast? ≠ some ['.', '\n'] ∧
    match names with
    | [] => root.getLast? ≠ some ['.', '.', '\n']
    | [name] => name ≠ ['.', '\n'] ∧ (name = ['.', '.', '\n'] → root.getLast? = some ['\n'])
    | _ :: _ :: _ => True

instance (root : List Name) : (names : List Name) → Decidable (StaysBelow root names)
  | [] => inferInstanceAs (Decidable (_ ∧ root.getLast? ≠ _))
  | [name] => inferInstanceAs (Decidable (_ ∧ name ≠ _ ∧ (name = _ → root.getLast? = _)))
  | _ :: _ :: _ => inferInstanceAs (Decidable (_ ∧ True))

section Prefixes

theorem components_append_slash (a t : Text) :
    components (a ++ '/' :: t) = components a ++ components t := by
  rw [components, segments, Text.split_append, List.filter_append]
  rfl

variable {a b : List Name}

/-- A rooted path lies within another one if its components begin with those of the other. -/
theorem isWithin_rooted_iff (hne : a ≠ []) (ha : ∀ name ∈ a, IsOrdinary name)
    (hb : ∀ name ∈ b, IsOrdinary name) : IsWithin (rooted a) (rooted b) ↔ a <+: b := by
  constructor
  · rintro (he | ⟨t, ht⟩)
    · have hc := congrArg components he
      rw [components_rooted_ordinary ha, components_rooted_ordinary hb] at hc
      exact hc ▸ List.prefix_refl a
    · rw [List.append_assoc, List.singleton_append] at ht
      have hc := congrArg components ht
      rw [components_append_slash, components_rooted_ordinary ha, components_rooted_ordinary hb] at hc
      exact ⟨components t, hc⟩
  · rintro ⟨below, rfl⟩
    cases below with
    | nil =>
      left
      rw [List.append_nil]
    | cons name rest =>
      right
      rw [rooted_append hne (by simp)]
      exact ⟨ofSegments (name :: rest), by simp⟩

/-- A relative path lies within no rooted one. -/
theorem not_isWithin_of_relative {p : Path} (h : isRooted p = false) : ¬ IsWithin (rooted a) p := by
  rintro (rfl | ⟨t, rfl⟩) <;> simp [rooted, isRooted] at h

end Prefixes

section Joining

variable {root names : List Name}

theorem length_dropFinalDot_le (hn : ∀ name ∈ names, IsOrdinary name) :
    (dropFinalDot names).length ≤ names.length := by
  rcases dropFinalDot_cases fun name hm => (hn name hm).ne_dot with h | ⟨init, name, rfl, h⟩ <;>
    simp [h]

theorem length_cancel_le (hn : ∀ name ∈ names, IsOrdinary name) :
    (cancel names).length ≤ names.length := by
  rcases cancel_cases fun name hm => (hn name hm).ne_dots with h | ⟨init, name, rfl, h⟩ <;>
    simp [h]

theorem cancel_concat {init : List Name} {last : Name}
    (hn : ∀ name ∈ init ++ [last], IsOrdinary name) (hlast : last ≠ ['.', '.', '\n']) :
    cancel (init ++ [last]) = init ++ [last] := by
  rcases cancel_cases fun name hm => (hn name hm).ne_dots with h | ⟨front, name, he, _⟩
  · exact h
  · have hend := congrArg List.getLast? he
    simp only [List.getLast?_append, List.getLast?_singleton, List.getLast?_cons_cons,
      Option.some_or] at hend
    exact absurd (Option.some.inj hend) hlast

/-- A line feed makes no dot line of an ordinary name. -/
theorem not_isDotLine_append_lineFeed {name : Name} (h : IsOrdinary name) :
    ¬ IsDotLine (name ++ ['\n']) := by
  rintro (he | he)
  · exact h.ne_dot (by simpa using congrArg List.dropLast he)
  · exact h.ne_dots (by simpa using congrArg List.dropLast he)

/-- What is left of names without their final dot does not end with such a dot again. -/
theorem getLast?_dropFinalDot_ne (hn : ∀ name ∈ names, IsOrdinary name)
    (hline : names ≠ [['.', '\n']]) : (dropFinalDot names).getLast? ≠ some ['.', '\n'] := by
  intro hend
  obtain ⟨init, he⟩ := List.getLast?_eq_some_iff.1 hend
  rcases dropFinalDot_cases fun name hm => (hn name hm).ne_dot with h | ⟨front, name, rfl, h⟩
  · rw [h] at he
    subst he
    obtain rfl | ⟨front, name, rfl⟩ := List.eq_nil_or_concat init
    · exact hline rfl
    · rw [List.concat_eq_append, List.append_assoc, List.singleton_append, dropFinalDot_dotLine] at h
      simpa using congrArg List.length h
  · rw [h] at hend
    simp only [List.getLast?_append, List.getLast?_singleton, Option.some_or] at hend
    exact not_isDotLine_append_lineFeed (hn name (by simp)) (.inl (Option.some.inj hend))

/-- Two names or more are added to a root whole: only the last of them can be a dot line, and the
name before it takes the loss. -/
theorem isPrefix_cancel_append {first : Name} {rest : List Name} (hne : rest ≠ [])
    (hn : ∀ name ∈ root ++ first :: rest, IsOrdinary name) :
    root <+: cancel (root ++ first :: rest) := by
  rcases cancel_cases fun name hm => (hn name hm).ne_dots with h | ⟨init, last, he, h⟩
  · rw [h]
    exact List.prefix_append _ _
  · rw [h]
    have hlen := congrArg List.length he
    have hrest : 0 < rest.length := List.length_pos_iff.2 hne
    simp only [List.length_append, List.length_cons, List.length_nil] at hlen
    have hinit : root <+: init := by
      refine List.prefix_of_prefix_length_le (List.prefix_append root (first :: rest)) ?_ (by omega)
      rw [he]
      exact List.prefix_append _ _
    exact hinit.trans (List.prefix_append _ _)

/-- Two names or more stay behind a root, whatever they end with. -/
theorem isPrefix_joined_cons_cons {first second : Name} {rest : List Name}
    (hroot : ∀ name ∈ root, IsOrdinary name)
    (hn : ∀ name ∈ first :: second :: rest, IsOrdinary name) :
    root <+: cancel (dropFinalDot (root ++ dropFinalDot (first :: second :: rest))) := by
  have hkept := forall_dropFinalDot hn
  have hend := getLast?_dropFinalDot_ne hn (by simp)
  have hall := forall_mem_append_ordinary hroot hkept
  obtain ⟨front, last, he⟩ := List.eq_nil_or_concat _ |>.resolve_left
    (dropFinalDot_ne_nil hn (by simp))
  rw [List.concat_eq_append] at he
  rw [he] at hkept hend hall ⊢
  have hdrop : dropFinalDot (root ++ (front ++ [last])) = root ++ (front ++ [last]) := by
    rw [← List.append_assoc]
    exact dropFinalDot_concat _ (hkept last (by simp)).ne_dot (by simpa using hend)
  rw [hdrop]
  cases front with
  | cons name more => exact isPrefix_cancel_append (by simp) hall
  | nil =>
    -- only a final dot leaves a single name of two, and it leaves its line feed
    have hline : last ≠ ['.', '.', '\n'] := by
      rcases dropFinalDot_cases fun name hm => (hn name hm).ne_dot with h | ⟨init, name, hs, h⟩
      · rw [he] at h
        simp at h
      · rw [he] at h
        have hlast := congrArg List.getLast? h
        simp only [List.nil_append, List.getLast?_append, List.getLast?_singleton,
          Option.some_or] at hlast
        intro hdots
        exact not_isDotLine_append_lineFeed (hn name (by simp [hs]))
          (.inr ((Option.some.inj hlast).symm.trans hdots))
    rw [List.nil_append] at hall ⊢
    rw [cancel_concat hall hline]
    exact List.prefix_append _ _

/-- One dot and a line feed behind a name leave the line feed to the name. -/
theorem cancel_dropFinalDot_dotLine {init : List Name} {last : Name}
    (hroot : ∀ name ∈ init ++ [last], IsOrdinary name) :
    cancel (dropFinalDot (init ++ [last] ++ [['.', '\n']])) = init ++ [last ++ ['\n']] := by
  have hlast := hroot last (by simp)
  have hn := forall_mem_append_ordinary (a := init) (b := [last ++ ['\n']])
    (fun n hm => hroot n (by simp [hm])) (by simpa using hlast.append_lineFeed)
  rw [List.append_assoc, List.singleton_append, dropFinalDot_dotLine]
  exact cancel_concat hn fun he => not_isDotLine_append_lineFeed hlast (.inr he)

/-- Two dots and a line feed behind a name leave only the line feed. -/
theorem cancel_dropFinalDot_dotsLine {init : List Name} {last : Name}
    (hroot : ∀ name ∈ init ++ [last], IsOrdinary name) :
    cancel (dropFinalDot (init ++ [last] ++ [['.', '.', '\n']])) = init ++ [['\n']] := by
  rw [dropFinalDot_concat _ (by simp) (by simp), List.append_assoc, List.singleton_append]
  exact cancel_dotsLine (fun n hm => (hroot n (by simp [hm])).ne_dots) (hroot last (by simp))

theorem cancel_dropFinalDot_concat (hroot : ∀ name ∈ root, IsOrdinary name) {name : Name}
    (hname : IsOrdinary name) (hline : ¬ IsDotLine name) :
    cancel (dropFinalDot (root ++ [name])) = root ++ [name] := by
  rw [dropFinalDot_concat root hname.ne_dot fun he => hline (.inl he)]
  exact cancel_concat (forall_mem_append_ordinary hroot (by simpa using hname))
    fun he => hline (.inr he)

/-- One name behind a root: a dot line does not stay there. -/
theorem isPrefix_joined_singleton {init : List Name} {last name : Name}
    (hroot : ∀ n ∈ init ++ [last], IsOrdinary n) (hname : IsOrdinary name) :
    init ++ [last] <+: cancel (dropFinalDot (init ++ [last] ++ [name])) ↔
      name ≠ ['.', '\n'] ∧ (name = ['.', '.', '\n'] → last = ['\n']) := by
  by_cases hline : IsDotLine name
  · obtain rfl | rfl := hline
    · rw [cancel_dropFinalDot_dotLine hroot]
      simp [List.prefix_append_right_inj]
    · rw [cancel_dropFinalDot_dotsLine hroot]
      simp [List.prefix_append_right_inj]
  · rw [cancel_dropFinalDot_concat hroot hname hline]
    refine iff_of_true (List.prefix_append _ _) ⟨fun he => hline (.inl he), fun he => ?_⟩
    exact absurd (.inr he) hline

/-- A root that nothing is joined to stays as it is, unless it ends with two dots and a line
feed. -/
theorem isPrefix_cancel_self (hg : IsGrounded root) (hroot : ∀ name ∈ root, IsOrdinary name) :
    root <+: cancel root ↔ root.getLast? ≠ some ['.', '.', '\n'] := by
  obtain rfl | ⟨init, last, rfl⟩ := List.eq_nil_or_concat root
  · simp [cancel]
  · rw [List.concat_eq_append] at hg hroot ⊢
    by_cases hdots : last = ['.', '.', '\n']
    · subst hdots
      obtain rfl | ⟨front, name, rfl⟩ := List.eq_nil_or_concat init
      · exact absurd (by decide) (hg ['.', '.', '\n'] (by simp))
      · rw [List.concat_eq_append, List.append_assoc, List.singleton_append] at hroot ⊢
        rw [cancel_dotsLine (fun n hm => (hroot n (by simp [hm])).ne_dots) (hroot name (by simp))]
        refine iff_of_false (fun h => ?_) (by simp)
        simpa using h.length_le
    · rw [cancel_concat hroot hdots]
      simp [hdots]

/-- What is joined to a root whose last name loses its dots is not below the root any more. -/
theorem not_isPrefix_joined_of_dotLine {init : List Name} {last : Name}
    (hroot : ∀ name ∈ init ++ [last, ['.', '\n']], IsOrdinary name)
    (hn : ∀ name ∈ names, IsOrdinary name) :
    ¬ init ++ [last, ['.', '\n']] <+: joined (init ++ [last, ['.', '\n']]) names := by
  have hlast := hroot last (by simp)
  have hkept : ∀ name ∈ init ++ [last ++ ['\n']], IsOrdinary name :=
    forall_mem_append_ordinary (fun n hm => hroot n (by simp [hm]))
      (by simpa using hlast.append_lineFeed)
  rw [joined, dropFinalDot_dotLine]
  intro h
  -- the result is too short, or it begins with what the root has become
  have hcases : (cancel (dropFinalDot (init ++ [last ++ ['\n']] ++ dropFinalDot names))).length ≤
        (init ++ [last ++ ['\n']]).length ∨
      init ++ [last ++ ['\n']] <+:
        cancel (dropFinalDot (init ++ [last ++ ['\n']] ++ dropFinalDot names)) := by
    rcases names with _ | ⟨name, _ | ⟨second, rest⟩⟩
    · left
      rw [dropFinalDot, List.append_nil]
      exact Nat.le_trans (length_cancel_le (forall_dropFinalDot hkept))
        (length_dropFinalDot_le hkept)
    · have hsingle : dropFinalDot [name] = [name] := rfl
      rw [hsingle]
      by_cases hline : IsDotLine name
      · obtain rfl | rfl := hline
        · rw [cancel_dropFinalDot_dotLine hkept]
          simp
        · rw [cancel_dropFinalDot_dotsLine hkept]
          simp
      · rw [cancel_dropFinalDot_concat hkept (hn name (by simp)) hline]
        exact .inr (List.prefix_append _ _)
    · exact .inr (isPrefix_joined_cons_cons hkept hn)
  rcases hcases with hlen | hprefix
  · have hle := h.length_le
    simp only [List.length_append, List.length_cons, List.length_nil] at hle hlen
    omega
  · have hfront : init ++ [last] <+: init ++ [last, ['.', '\n']] :=
      ⟨[['.', '\n']], by simp⟩
    have heq := List.prefix_of_prefix_length_le (hfront.trans h) hprefix (by simp)
    simp [List.prefix_append_right_inj] at heq

/-- Joined components begin with those of the root just if they stay below it. -/
theorem isPrefix_joined_iff (hne : root ≠ []) (hg : IsGrounded root)
    (hroot : ∀ name ∈ root, IsOrdinary name) (hline : root ≠ [['.', '\n']])
    (hn : ∀ name ∈ names, IsOrdinary name) :
    root <+: joined root names ↔ StaysBelow root names := by
  obtain ⟨init, last, rfl⟩ := (List.eq_nil_or_concat root).resolve_left hne
  rw [List.concat_eq_append] at hg hroot hline ⊢
  by_cases hlast : last = ['.', '\n']
  · subst hlast
    obtain ⟨front, name, rfl⟩ := (List.eq_nil_or_concat init).resolve_left (by
      rintro rfl
      exact hline rfl)
    rw [List.concat_eq_append, List.append_assoc, List.singleton_append] at hroot ⊢
    exact iff_of_false (not_isPrefix_joined_of_dotLine hroot hn) (by simp [StaysBelow])
  · have hkept : dropFinalDot (init ++ [last]) = init ++ [last] :=
      dropFinalDot_concat init (hroot last (by simp)).ne_dot hlast
    rw [joined, hkept]
    rcases names with _ | ⟨name, _ | ⟨second, rest⟩⟩
    · have hself := isPrefix_cancel_self hg hroot
      rw [dropFinalDot, List.append_nil, hkept, hself]
      simp [StaysBelow, hlast]
    · have hsingle : dropFinalDot [name] = [name] := rfl
      rw [hsingle, isPrefix_joined_singleton hroot (hn name (by simp))]
      simp [StaysBelow, hlast]
    · exact iff_of_true (isPrefix_joined_cons_cons hroot hn) (by simp [StaysBelow, hlast])

/-- A path of ordinary names stays within the root it is joined to just if its components stay
below those of the root. -/
theorem isWithin_join_iff (hne : root ≠ []) (hg : IsGrounded root)
    (hroot : ∀ name ∈ root, IsOrdinary name) (hn : ∀ name ∈ names, IsOrdinary name) :
    IsWithin (rooted root) (join [rooted root, ofSegments names]) ↔ StaysBelow root names := by
  have hc := components_rooted_ordinary hroot
  by_cases hline : root = [['.', '\n']]
  · -- the root loses its slash together with its only name
    subst hline
    have hstart : join [rooted [['.', '\n']], ofSegments names] =
        join [ofSegments [['\n']], ofSegments names] := rfl
    have hjoin := join_ofSegments_ordinary (a := [['\n']]) (by decide) hn
    rw [hstart, hjoin]
    refine iff_of_false (not_isWithin_of_relative (isRooted_ofSegments ?_)) (by simp [StaysBelow])
    exact forall_joined (by decide) hn
  · have hjoin : join [rooted root, ofSegments names] =
        rooted (joined (components (rooted root)) names) :=
      join_of_isRooted rfl (by rwa [hc]) (by rwa [hc]) (by rwa [hc]) (by rwa [hc]) hn
    rw [hjoin, hc, isWithin_rooted_iff hne hroot (forall_joined hroot hn)]
    exact isPrefix_joined_iff hne hg hroot hline hn

end Joining

end Path

end Dotfiles
