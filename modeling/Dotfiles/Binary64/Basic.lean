/-!
Binary floating point numbers of 64 bits, kept as their bits so that equality
decides and the sign of zero is not lost. A finite number is an integer times a
power of two; the nearest number to a quotient is found in exact arithmetic.
-/

namespace Dotfiles

/-- A 64-bit floating point number: sign bit, eleven bits of exponent, 52 bits of fraction. -/
structure Binary64 where
  bits : UInt64
  deriving DecidableEq, Repr

namespace Binary64

/-- A power of two. -/
def pow2 (n : Nat) : Nat := Nat.pow 2 n

/-- A power of ten. -/
def pow10 (n : Nat) : Nat := Nat.pow 10 n

/-- What the bits below the sign stand for. -/
inductive Magnitude where
  /-- The number `significand * 2 ^ exponent`. -/
  | finite (significand : Nat) (exponent : Int)
  | infinite
  | nan
  deriving DecidableEq, Repr

/-- Whether the sign bit is set. -/
def negative (x : Binary64) : Bool := decide (pow2 63 ≤ x.bits.toNat)

/-- The magnitude the bits below the sign stand for. -/
def magnitude (x : Binary64) : Magnitude :=
  let exponent : Nat := x.bits.toNat / pow2 52 % pow2 11
  let fraction : Nat := x.bits.toNat % pow2 52
  if exponent = 2047 then if fraction = 0 then .infinite else .nan
  else if exponent = 0 then .finite fraction (-1074)
  else .finite (pow2 52 + fraction) ((exponent : Int) - 1075)

/-- The number with the given sign and the given bits below it. -/
def withSign (negative : Bool) (rest : Nat) : Binary64 :=
  ⟨UInt64.ofNat (if negative then pow2 63 + rest else rest)⟩

/-- The infinity of the given sign. -/
def infinity (negative : Bool) : Binary64 := withSign negative (2047 * pow2 52)

/-- A number that equals nothing. -/
def nan : Binary64 := withSign false (2047 * pow2 52 + pow2 51)

/-- Whether the number is zero, of either sign. -/
def isZero (x : Binary64) : Bool :=
  match x.magnitude with
  | .finite 0 _ => true
  | _ => false

/-- The quotient rounded to the nearest integer, a half going to the even one. -/
def roundDiv (num den : Nat) : Nat :=
  let q := num / den
  let r := num % den
  if 2 * r < den then q else if den < 2 * r then q + 1 else if q % 2 = 0 then q else q + 1

/-- The number of the given sign nearest to `num / den`, a tie going to the even
significand and a quotient beyond the largest finite number to infinity. -/
def ofQuotient (negative : Bool) (num den : Nat) : Binary64 :=
  if num = 0 then withSign negative 0
  else
    let guess : Int := (num.log2 : Int) - den.log2 - 52
    let scaled (e : Int) : Nat × Nat := (num * pow2 (-e).toNat, den * pow2 e.toNat)
    let (n, d) := scaled guess
    let exponent := max (if n < pow2 52 * d then guess - 1 else guess) (-1074)
    let (n, d) := scaled exponent
    let significand := roundDiv n d
    let rest :=
      if significand < pow2 52 then significand
      else (exponent + 1075).toNat * pow2 52 + (significand - pow2 52)
    if 2047 * pow2 52 ≤ rest then infinity negative else withSign negative rest

/-- The number of the given sign nearest to `digits * 10 ^ exponent`. Beyond 400
places the answer is infinity or zero, whatever the digits. -/
def ofDecimal (negative : Bool) (digits : Nat) (exponent : Int) : Binary64 :=
  let places : Int := (Nat.toDigits 10 digits).length + exponent
  if digits = 0 || decide (places < -400) then withSign negative 0
  else if 400 < places then infinity negative
  else ofQuotient negative (digits * pow10 exponent.toNat) (pow10 (-exponent).toNat)

/-- The integer the number equals, if it equals one. -/
def toInt? (x : Binary64) : Option Int :=
  match x.magnitude with
  | .finite m e =>
    let num := m * pow2 e.toNat
    let den := pow2 (-e).toNat
    if num % den = 0 then
      some (if x.negative then -((num / den : Nat) : Int) else ((num / den : Nat) : Int))
    else none
  | _ => none

/-- Numerical equality: the two zeros are equal, and nothing equals a NaN. -/
def sameNumber (x y : Binary64) : Bool :=
  match x.magnitude with
  | .nan => false
  | _ => x = y || (x.isZero && y.isZero)

end Binary64

end Dotfiles
