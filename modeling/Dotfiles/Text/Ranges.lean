import Dotfiles.Text.Basic

/-!
Character classes given by a table of code point ranges, and the class of what has no encoding.
-/

namespace Dotfiles.Text

/-- Whether a character lies in one of the ranges, both ends included. -/
def inRanges (ranges : List (Nat × Nat)) (c : Char) : Bool :=
  ranges.any fun (first, last) => decide (first ≤ c.toNat) && decide (c.toNat ≤ last)

theorem inRanges_eq_true_iff (ranges : List (Nat × Nat)) (c : Char) :
    inRanges ranges c = true ↔ ∃ r ∈ ranges, r.1 ≤ c.toNat ∧ c.toNat ≤ r.2 := by
  simp [inRanges]

/-- The character that stands for half of a surrogate pair, which is no character: one
for private use with the same last bits, which is taken to stand for nothing else. Two
halves are not put together. -/
def halfPair (code : Nat) : Char := Char.ofNat (0x100000 + code)

/-- Whether a character stands for half of a surrogate pair and has no encoding. The
halves left out stand for the single bytes of a name that is not UTF-8. -/
def isUnencodable : Char → Bool := inRanges [(0x10d800, 0x10dc7f), (0x10dd00, 0x10dfff)]

example : isUnencodable (halfPair 0xd83d) = true := by decide
example : isUnencodable (halfPair 0xdcff) = false := by decide

end Dotfiles.Text
