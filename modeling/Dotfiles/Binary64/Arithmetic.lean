import Dotfiles.Binary64.Basic

/-!
Sums and products of floating point numbers: the exact result, rounded once. Where there
is no exact result, as in a difference of infinities, the result is a NaN.
-/

namespace Dotfiles.Binary64

/-- The number of the given sign nearest to `significand * 2 ^ exponent`. -/
def ofScaled (negative : Bool) (significand : Nat) (exponent : Int) : Binary64 :=
  ofQuotient negative (significand * pow2 exponent.toNat) (pow2 (-exponent).toNat)

/-- The number nearest to a natural number, unless that lies beyond the largest finite
number. -/
def ofNat? (n : Nat) : Option Binary64 :=
  let x := ofQuotient false n 1
  match x.magnitude with
  | .finite .. => some x
  | _ => none

/-- An integer from its sign and its absolute value. -/
def signedInt (negative : Bool) (n : Nat) : Int := if negative then -(n : Int) else (n : Int)

/-- The sum. A sum of zero is the negative zero only if both numbers are. -/
def add (x y : Binary64) : Binary64 :=
  match x.magnitude, y.magnitude with
  | .finite m e, .finite n f =>
    let unit := min e f
    let sum := signedInt x.negative (m * pow2 (e - unit).toNat) +
      signedInt y.negative (n * pow2 (f - unit).toNat)
    if sum = 0 then withSign (x.negative && y.negative) 0
    else ofScaled (decide (sum < 0)) sum.natAbs unit
  | .nan, _ => nan
  | _, .nan => nan
  | .infinite, .infinite => if x.negative = y.negative then x else nan
  | .infinite, .finite .. => x
  | .finite .., .infinite => y

/-- The product. -/
def mul (x y : Binary64) : Binary64 :=
  let negative : Bool := x.negative != y.negative
  match x.magnitude, y.magnitude with
  | .finite m e, .finite n f => ofScaled negative (m * n) (e + f)
  | .nan, _ => nan
  | _, .nan => nan
  | .infinite, .finite n _ => if n = 0 then nan else infinity negative
  | .finite m _, .infinite => if m = 0 then nan else infinity negative
  | .infinite, .infinite => infinity negative

/-- The number with the opposite sign; a NaN stays the same. -/
def neg (x : Binary64) : Binary64 :=
  match x.magnitude with
  | .nan => x
  | _ => withSign (!x.negative) (x.bits.toNat % pow2 63)

example : add (ofDecimal false 1 (-1)) (ofDecimal false 2 (-1)) =
    ofDecimal false 30000000000000004 (-17) := by decide +kernel
example : add (infinity false) (infinity true) = nan := by decide +kernel
example : mul (ofDecimal true 15 (-1)) (ofDecimal false 60 0) = ofDecimal true 90 0 := by
  decide +kernel

end Dotfiles.Binary64
