import Mathlib.Data.List.Infix
import Dotfiles.Text.Basic

/-!
Texts read from left to right: up to a mark, along a run of characters of one kind, and past
backslashes that take the meaning of a mark away. Resolving such backslashes looks one character
ahead, so two texts can be resolved apart unless a backslash at the end of the first one stands in
front of a mark that begins the second one.
-/

namespace Dotfiles.Text

variable {mark : Char} {t first second : Text}

theorem cut?_append (h : mark ∉ first) (second : Text) :
    cut? mark (first ++ mark :: second) = some (first, second) := by
  induction first with
  | nil => simp [cut?]
  | cons c rest ih =>
    rw [List.mem_cons, not_or] at h
    rw [List.cons_append, cut?, if_neg (Ne.symm h.1), ih h.2]
    rfl

theorem cut?_of_not_mem (h : mark ∉ t) : cut? mark t = none := by
  induction t with
  | nil => rfl
  | cons c rest ih =>
    rw [List.mem_cons, not_or] at h
    rw [cut?, if_neg (Ne.symm h.1), ih h.2]
    rfl

/-- A run of characters of one kind ends where one of another kind, or none, comes next. -/
theorem takeWhile_run {kind : Char → Bool} (hfirst : ∀ c ∈ first, kind c = true)
    (hsecond : ∀ c ∈ second.head?, kind c = false) :
    (first ++ second).takeWhile kind = first ∧ (first ++ second).dropWhile kind = second := by
  rw [List.takeWhile_append_of_pos hfirst, List.dropWhile_append_of_pos hfirst]
  cases second with
  | nil => simp
  | cons c rest => simp [hsecond c rfl]

theorem hasEscaped_iff : hasEscaped mark t = true ↔ ['\\', mark] <:+: t := by
  fun_induction hasEscaped mark t with
  | case1 c rest ih =>
    have hcons : ['\\', mark] <:+: '\\' :: c :: rest ↔ c = mark ∨ ['\\', mark] <:+: c :: rest := by
      rw [List.infix_cons_iff]
      simp [List.cons_prefix_cons, eq_comm]
    rw [Bool.or_eq_true, ih, hcons, decide_eq_true_eq]
  | case2 c rest hesc ih =>
    rw [ih, List.infix_cons_iff, or_iff_right]
    rintro ⟨more, hmore⟩
    cases hmore
    exact hesc _ _ rfl rfl
  | case3 => simp

theorem unescape_cons {c : Char} (h : c ≠ '\\') (rest : Text) :
    unescape mark (c :: rest) = c :: unescape mark rest := by
  rw [unescape]
  intro _ _ hc
  exact absurd hc h

theorem unescape_escaped (mark : Char) (rest : Text) :
    unescape mark ('\\' :: mark :: rest) = mark :: unescape mark rest := by
  rw [unescape, if_pos rfl]

theorem unescape_backslash (h : t.head? ≠ some mark) :
    unescape mark ('\\' :: t) = '\\' :: unescape mark t := by
  cases t with
  | nil => rfl
  | cons c rest => rw [unescape, if_neg (by simpa using h)]

/-- Nothing changes where no escape stands. -/
theorem unescape_eq_self (h : ¬ ['\\', mark] <:+: t) : unescape mark t = t := by
  fun_induction unescape mark t with
  | case1 rest => exact absurd ⟨[], rest, rfl⟩ h
  | case2 c rest hc ih => rw [ih fun hi => h (hi.trans (List.suffix_cons _ _).isInfix)]
  | case3 c rest _ ih => rw [ih fun hi => h (hi.trans (List.suffix_cons _ _).isInfix)]
  | case4 => rfl

theorem getLast?_of_rest {c : Char} (h : t.getLast? = some c) (first : Char) :
    (first :: t).getLast? = some c := by
  rw [List.getLast?_cons, h, Option.getD_some]

/-- Texts are resolved apart if no escape stands across their border. -/
theorem unescape_append (h : first.getLast? = some '\\' → second.head? ≠ some mark) :
    unescape mark (first ++ second) = unescape mark first ++ unescape mark second := by
  fun_induction unescape mark first with
  | case1 rest ih =>
    rw [List.cons_append, List.cons_append, unescape_escaped, List.cons_append,
      ih fun hl => h (getLast?_of_rest (getLast?_of_rest hl _) _)]
  | case2 c rest hc ih =>
    have hhead : ((c :: rest) ++ second).head? ≠ some mark := by simpa using hc
    rw [List.cons_append, unescape_backslash hhead, ih fun hl => h (getLast?_of_rest hl _),
      List.cons_append]
  | case3 c rest hend ih =>
    have hrest : unescape mark (rest ++ second) = unescape mark rest ++ unescape mark second :=
      ih fun hl => h (getLast?_of_rest hl _)
    by_cases hc : c = '\\'
    · subst hc
      -- only at the end of the text a backslash is left alone without a look at what follows it
      obtain rfl : rest = [] := by
        cases rest with
        | nil => rfl
        | cons d more => exact absurd rfl (hend d more rfl)
      rw [List.singleton_append, unescape_backslash (h rfl)]
      rfl
    · rw [List.cons_append, unescape_cons hc, hrest, List.cons_append]
  | case4 => rfl

end Dotfiles.Text
