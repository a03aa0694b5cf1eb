import Dotfiles.Text.Blank

/-!
Decimal digits of every script, and the integers written with them. The digits
of one script are ten consecutive code points, so the code point of its zero
says it all (version 14 of the Unicode character database).
-/

namespace Dotfiles.Text

/-- The code point of the digit zero of each script. -/
def digitZeros : List Nat := [
  0x30, 0x660, 0x6f0, 0x7c0, 0x966, 0x9e6, 0xa66, 0xae6, 0xb66, 0xbe6, 0xc66, 0xce6, 0xd66, 0xde6,
  0xe50, 0xed0, 0xf20, 0x1040, 0x1090, 0x17e0, 0x1810, 0x1946, 0x19d0, 0x1a80, 0x1a90, 0x1b50,
  0x1bb0, 0x1c40, 0x1c50, 0xa620, 0xa8d0, 0xa900, 0xa9d0, 0xa9f0, 0xaa50, 0xabf0, 0xff10, 0x104a0,
  0x10d30, 0x11066, 0x110f0, 0x11136, 0x111d0, 0x112f0, 0x11450, 0x114d0, 0x11650, 0x116c0,
  0x11730, 0x118e0, 0x11950, 0x11c50, 0x11d50, 0x11da0, 0x16a60, 0x16ac0, 0x16b50, 0x1d7ce,
  0x1d7d8, 0x1d7e2, 0x1d7ec, 0x1d7f6, 0x1e140, 0x1e2f0, 0x1e950, 0x1fbf0]

/-- The value of a decimal digit of any script. -/
def digitValue? (c : Char) : Option Nat :=
  (digitZeros.find? fun first => decide (first ≤ c.toNat) && decide (c.toNat ≤ first + 9)).map
    (c.toNat - ·)

theorem digitValue?_lt {c : Char} {d : Nat} (h : digitValue? c = some d) : d < 10 := by
  obtain ⟨first, found, rfl⟩ := Option.map_eq_some_iff.1 h
  have := List.find?_some found
  simp only [Bool.and_eq_true, decide_eq_true_eq] at this
  omega

/-- An integer has at most this many digits; a longer one is not read. -/
def digitLimit : Nat := 4300

/-- The values of the digits of an unsigned integer, in which a single underscore
may stand between two digits; `afterDigit` says whether one may stand next. -/
def digits? (afterDigit : Bool) : Text → Option (List Nat)
  | [] => if afterDigit then some [] else none
  | '_' :: rest => if afterDigit then digits? false rest else none
  | c :: rest => do
    let d ← digitValue? c
    let ds ← digits? true rest
    pure (d :: ds)

/-- The number written by digits in a base, most significant first. -/
def ofDigits (base : Nat) (digits : List Nat) : Nat :=
  digits.foldl (fun n d => n * base + d) 0

/-- An unsigned integer, with single underscores allowed between its digits. -/
def readNat? (t : Text) : Option Nat := do
  let ds ← digits? false t
  if ds.length ≤ digitLimit then some (ofDigits 10 ds) else none

/-- An integer: white space around it, a sign and single underscores between
digits are allowed. -/
def readInt? (t : Text) : Option Int :=
  match stripSpacing t with
  | '-' :: rest => (readNat? rest).map fun n => -(n : Int)
  | '+' :: rest => (readNat? rest).map fun n => (n : Int)
  | rest => (readNat? rest).map fun n => (n : Int)

example : readInt? " -1_000\n".toList = some (-1000) := by decide
example : readInt? "1__0".toList = none ∧ readInt? "_1".toList = none := by decide
example : readInt? "１２".toList = some 12 := by decide
example : readInt? "\x855".toList = some 5 ∧ readInt? "\x1c5".toList = none := by decide

end Dotfiles.Text
