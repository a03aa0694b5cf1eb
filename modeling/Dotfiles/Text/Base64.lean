import Dotfiles.Text.Basic

/-!
Bytes written as text, six bits a character. Characters outside of the alphabet are
passed over when such a text is read, and so is padding that is not needed.
-/

namespace Dotfiles.Text

/-- The bits that a character stands for. -/
def sixBits? (c : Char) : Option Nat :=
  if c.isUpper then some (c.toNat - 'A'.toNat)
  else if c.isLower then some (c.toNat - 'a'.toNat + 26)
  else if c.isDigit then some (c.toNat - '0'.toNat + 52)
  else if c = '+' then some 62
  else if c = '/' then some 63
  else none

/-- The bytes of a text, after those of its beginning: `place` tells how many characters
of a group of four have been read, `left` holds the bits of the last one that are in no
byte yet, and `pads` counts the padding just read. A group of two or three characters
has to be filled up with padding, and what follows full padding does not count. -/
def bytesFrom? (place left pads : Nat) : Text → Option (List UInt8)
  | [] => if place = 0 then some [] else none
  | c :: rest =>
    if c = '=' then
      if place < 2 then bytesFrom? place left pads rest
      else if 4 ≤ place + pads + 1 then some []
      else bytesFrom? place left (pads + 1) rest
    else
      match sixBits? c with
      | none => bytesFrom? place left pads rest
      | some bits =>
        match place with
        | 0 => bytesFrom? 1 bits 0 rest
        | 1 => (bytesFrom? 2 (bits % 16) 0 rest).map (UInt8.ofNat (left * 4 + bits / 16) :: ·)
        | 2 => (bytesFrom? 3 (bits % 4) 0 rest).map (UInt8.ofNat (left * 16 + bits / 4) :: ·)
        | _ => (bytesFrom? 0 0 0 rest).map (UInt8.ofNat (left * 64 + bits) :: ·)

/-- The bytes that a text stands for, unless it holds a character that is not ASCII or
ends within a group. -/
def base64? (t : Text) : Option (List UInt8) :=
  if t.all fun c => c.toNat < 128 then bytesFrom? 0 0 0 t else none

example : base64? "aG\nk=".toList = some [104, 105] := by decide
example : base64? "aGk".toList = none ∧ base64? "a===".toList = none := by decide
example : base64? "aGkx=".toList = some [104, 105, 49] := by decide
example : base64? "aG==k".toList = some [104] := by decide

end Dotfiles.Text
