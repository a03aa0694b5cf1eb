import Dotfiles.Proofs.Text.Scanning
import Dotfiles.Settings.Reference

/-!
Tildes at the start of a path. The name after a tilde ends at the first slash, and its home
directory takes the place of both. An escaped tilde anywhere in the path keeps this from
happening: then the escapes are resolved and nothing else.
-/

namespace Dotfiles.Reference

variable {w : World} {name rest : Text} {home : Path}

/-- Whether a text ends a name after a tilde: it is empty, or begins with a slash. -/
def EndsUserName (rest : Text) : Prop := rest = [] ∨ rest.head? = some '/'

/-- Without an escaped tilde the home directory takes the place of the tilde and the name. -/
theorem expandTilde_of_home (hname : '/' ∉ name) (hrest : EndsUserName rest)
    (hhome : homeOf? w name = some home)
    (hesc : ¬ ['\\', '~'] <:+: '~' :: (name ++ rest)) :
    expandTilde w ('~' :: (name ++ rest)) = home ++ rest := by
  obtain ⟨htake, hdrop⟩ : (name ++ rest).takeWhile (· ≠ '/') = name ∧
      (name ++ rest).dropWhile (· ≠ '/') = rest := by
    refine Text.takeWhile_run (fun c hc => decide_eq_true fun he => hname (he ▸ hc)) ?_
    rcases hrest with rfl | hslash
    · simp
    · simp [hslash]
  rw [expandTilde, if_neg (mt Text.hasEscaped_iff.1 hesc)]
  simp only [htake, hdrop, hhome]

/-- With an escaped tilde only the escapes are resolved. -/
theorem expandTilde_of_escaped {p : Path} (h : ['\\', '~'] <:+: p) :
    expandTilde w p = Text.unescape '~' p := by
  unfold expandTilde
  rw [if_pos (Text.hasEscaped_iff.2 h)]

/-- No escape stands across the end of a name. -/
theorem unescape_name (hrest : EndsUserName rest) :
    Text.unescape '~' ('~' :: (name ++ rest)) =
      '~' :: (Text.unescape '~' name ++ Text.unescape '~' rest) := by
  rw [Text.unescape_cons (by decide), Text.unescape_append]
  rintro -
  rcases hrest with rfl | hslash
  · simp
  · simp [hslash]

/-- A path without a tilde at its start keeps its escapes from now on as plain tildes. A tilde at
the start, with the name after it, is replaced by a home directory that is known, and the escapes
behind the name are resolved, exactly if no tilde of the path is escaped (or if the home directory
is the tilde and the name themselves, as they are written without escapes). -/
theorem expandTilde_iff (w : World) :
    (∀ p : Path, p.head? ≠ some '~' → expandTilde w p = Text.unescape '~' p) ∧
    ∀ name rest home, '/' ∉ name → EndsUserName rest → homeOf? w name = some home →
      (expandTilde w ('~' :: (name ++ rest)) = home ++ Text.unescape '~' rest ↔
        ¬ ['\\', '~'] <:+: '~' :: (name ++ rest) ∨ home = '~' :: Text.unescape '~' name) := by
  constructor
  · intro p hp
    by_cases hesc : ['\\', '~'] <:+: p
    · exact expandTilde_of_escaped hesc
    · unfold expandTilde
      rw [if_neg (mt Text.hasEscaped_iff.1 hesc), Text.unescape_eq_self hesc]
      split
      · exact absurd rfl hp
      · rfl
  · intro name rest home hname hrest hhome
    by_cases hesc : ['\\', '~'] <:+: '~' :: (name ++ rest)
    · rw [expandTilde_of_escaped hesc, unescape_name hrest, ← List.cons_append,
        List.append_cancel_right_eq, eq_comm]
      simp [hesc]
    · have hbehind : ¬ ['\\', '~'] <:+: rest := fun h =>
        hesc (h.trans ((List.suffix_append name rest).trans (List.suffix_cons _ _)).isInfix)
      rw [expandTilde_of_home hname hrest hhome hesc, Text.unescape_eq_self hbehind]
      simp [hesc]

/-- Surroundings with a home directory for the user, by a variable, and one for another user. -/
def homesWorld : World where
  files := .empty
  environment := [("HOME".toList, "/home/u".toList)]
  users := [⟨"bob".toList, 7, "/home/bob/".toList⟩]
  uid := 1000
  platform := .posix

/-- Further tildes and backslashes do not matter as long as they do not stand together. -/
theorem expandTilde_iff_named :
    '/' ∉ "bob".toList ∧ EndsUserName "/~\\x".toList ∧
      homeOf? homesWorld "bob".toList = some "/home/bob/".toList ∧
      expandTilde homesWorld "~bob/~\\x".toList = "/home/bob//~\\x".toList := by
  have hname : '/' ∉ "bob".toList := by decide
  have hrest : EndsUserName "/~\\x".toList := .inr rfl
  have hhome : homeOf? homesWorld "bob".toList = some "/home/bob/".toList := by decide
  refine ⟨hname, hrest, hhome, ?_⟩
  exact ((expandTilde_iff homesWorld).2 _ _ _ hname hrest hhome).2 (.inl (by decide))

/-- An escaped tilde further down keeps the home directory from being put in. -/
theorem expandTilde_escaped :
    homeOf? homesWorld [] = some "/home/u".toList ∧
      expandTilde homesWorld "~/a\\~b".toList = "~/a~b".toList ∧
      expandTilde homesWorld "~/a\\~b".toList ≠
        "/home/u".toList ++ Text.unescape '~' "/a\\~b".toList := by
  decide

section Users

variable {label : Text} {p : Path} {e : Error}

theorem checkUser_eq_error_iff : checkUser w p = .error e ↔
    ∃ name defect, userOf? p = some name ∧ homeOf? w name = none ∧
      Path.defect? name = some defect ∧ e = .unusableName name defect := by
  unfold checkUser
  cases userOf? p with
  | none => simp
  | some name =>
    cases hhome : homeOf? w name with
    | some home => simp [hhome]
    | none => cases hdefect : Path.defect? name <;> simp [hhome, hdefect, eq_comm]

/-- References are replaced unless a variable has no value, or a user without a home directory has
a name that cannot be handed to the system. -/
theorem expand_eq_error_iff : expand w label p = .error e ↔
    expandVariables w label p = .error e ∨
      ∃ replaced name defect, expandVariables w label p = .ok replaced ∧
        userOf? replaced = some name ∧ homeOf? w name = none ∧
        Path.defect? name = some defect ∧ e = .unusableName name defect := by
  unfold expand
  cases expandVariables w label p with
  | error e' => simp [bind, Except.bind]
  | ok replaced =>
    have hcheck := @checkUser_eq_error_iff w replaced e
    cases hc : checkUser w replaced with
    | error e' => simpa [hc, bind, Except.bind] using hcheck
    | ok _ => simpa [hc, bind, Except.bind, pure, Except.pure] using hcheck

end Users

end Dotfiles.Reference
