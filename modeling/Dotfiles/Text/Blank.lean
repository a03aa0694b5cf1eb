import Dotfiles.Text.Ranges

/-!
White space: the characters that are stripped from the two ends of a glob or a
number. The class is the one of the Unicode standard together with the four
information separators, which do not count around numbers; it holds no zero-width
character.
-/

namespace Dotfiles.Text

/-- The code points of white space. -/
def blankRanges : List (Nat × Nat) := [
  (0x09, 0x0d), (0x1c, 0x20), (0x85, 0x85), (0xa0, 0xa0), (0x1680, 0x1680), (0x2000, 0x200a),
  (0x2028, 0x2029), (0x202f, 0x202f), (0x205f, 0x205f), (0x3000, 0x3000)]

/-- Whether a character is white space. -/
def isBlank (c : Char) : Bool := inRanges blankRanges c

/-- The text without the white space at its start. -/
def stripLeft (t : Text) : Text := t.dropWhile isBlank

/-- The text without the white space at its end. -/
def stripRight (t : Text) : Text := (t.reverse.dropWhile isBlank).reverse

/-- The text without the white space at either end. -/
def strip (t : Text) : Text := stripRight (stripLeft t)

/-- Whether a character may stand around a number: white space apart from the
information separators. -/
def isSpacing (c : Char) : Bool := isBlank c && !inRanges [(0x1c, 0x1f)] c

/-- The text without the white space that may stand around a number. -/
def stripSpacing (t : Text) : Text :=
  ((t.dropWhile isSpacing).reverse.dropWhile isSpacing).reverse

/-- What core counts as white space is white space here too. -/
theorem isBlank_of_isWhitespace (c : Char) (h : c.isWhitespace = true) : isBlank c = true := by
  simp only [Char.isWhitespace, Bool.or_eq_true, decide_eq_true_eq] at h
  rcases h with ((rfl | rfl) | rfl) | rfl <;> decide

end Dotfiles.Text
