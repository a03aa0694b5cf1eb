import Dotfiles.Binary64.Arithmetic
import Dotfiles.Binary64.Shortest
import Dotfiles.Value.Basic
import Dotfiles.Yaml.Failure

/-!
Numbers in documents. Integers are decimal, or binary, octal or hexadecimal behind a
mark; both kinds of numbers may be written in base 60, with colons between the digits.
Underscores do not count.
-/

namespace Dotfiles.Yaml

/-- What is read, or else the defect of a malformed part. -/
def orMalformed {α : Type} : Option α → Except Defect α
  | some a => .ok a
  | none => .error .malformed

/-- The sign in front of a number, and the number without it. -/
def signed : Text → Bool × Text
  | '-' :: rest => (true, rest)
  | '+' :: rest => (false, rest)
  | t => (false, t)

/-- The value of a digit in a base up to 16: a decimal digit of any script, or a letter. -/
def baseDigit? (base : Nat) (c : Char) : Option Nat :=
  let digit :=
    if 'a'.toNat ≤ c.toNat ∧ c.toNat ≤ 'f'.toNat then some (c.toNat - 'a'.toNat + 10)
    else if 'A'.toNat ≤ c.toNat ∧ c.toNat ≤ 'F'.toNat then some (c.toNat - 'A'.toNat + 10)
    else Text.digitValue? c
  digit.filter fun d => d < base

/-- The text without the mark of a base, a zero and a letter, if it begins with it. -/
def dropMark (letter : Char) : Text → Text
  | '0' :: c :: rest => if c = letter || c = letter.toUpper then rest else '0' :: c :: rest
  | t => t

/-- An integer in a base. White space around it, a sign and the mark of the base in front
of it may be there or not; at least one digit has to be. -/
def readInBase? (base : Nat) (letter : Char) (t : Text) : Option Int := do
  let (negative, rest) := signed (Text.stripSpacing t)
  let digits ← (dropMark letter rest).mapM (baseDigit? base)
  if digits.isEmpty then none
  return Binary64.signedInt negative (Text.ofDigits base digits)

/-- The value of an integer. -/
def readInt (t : Text) : Except Defect Int := do
  let (negative, digits) := signed (t.filter (· ≠ '_'))
  let n ←
    match digits with
    | [] => throw .empty
    | '0' :: 'b' :: rest => orMalformed (readInBase? 2 'b' rest)
    | '0' :: 'x' :: rest => orMalformed (readInBase? 16 'x' rest)
    | '0' :: _ => orMalformed (readInBase? 8 'o' digits)
    | _ =>
      if digits.contains ':' then do
        let parts ← orMalformed ((Text.split ':' digits).mapM Text.readInt?)
        pure (parts.foldl (fun n part => n * 60 + part) 0)
      else orMalformed (Text.readInt? digits)
  return if negative then -n else n

/-- The number in base 60 with the given digits, least significant first, on top of a sum.
Every step is rounded. The weight of a digit has to be a floating point number itself. -/
def sumInBase60 (sum : Binary64) (weight : Nat) : List Binary64 → Except Defect Binary64
  | [] => .ok sum
  | digit :: rest =>
    match Binary64.ofNat? weight with
    | some factor => sumInBase60 (sum.add (digit.mul factor)) (weight * 60) rest
    | none => .error .tooLarge

/-- The value of a floating point number. -/
def readFloat (t : Text) : Except Defect Scalar := do
  let plain := (t.filter (· ≠ '_')).map Char.toLower
  if plain.isEmpty then throw .empty
  let (negative, digits) := signed plain
  if digits = ".nan".toList then return .nan
  let x ←
    if digits = ".inf".toList then pure (Binary64.infinity false)
    else if digits.contains ':' then do
      let parts ← orMalformed ((Text.split ':' digits).mapM Binary64.read?)
      sumInBase60 (Binary64.withSign false 0) 1 parts.reverse
    else orMalformed (Binary64.read? digits)
  return .float (if negative then x.neg else x)

/-- Whether a number is read as an integer from a text. -/
def readsAs (t : String) (n : Int) : Bool :=
  match readInt t.toList with
  | .ok m => m = n
  | .error _ => false

example : readsAs "-0x_1F" (-31) ∧ readsAs "010" 8 ∧ readsAs "1:30" 90 := by decide +kernel
example : readInBase? 2 'b' "0b1 ".toList = some 1 := by decide +kernel
example : readInBase? 8 'o' "08".toList = none := by decide +kernel

end Dotfiles.Yaml
