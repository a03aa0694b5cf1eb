import Dotfiles.Binary64.Basic
import Dotfiles.Text.Digit

/-!
Decimal text of floating point numbers. A number is written with the fewest
digits that read back as it, and of those with the nearest; `Layout` fixes what
is left to choose.
-/

namespace Dotfiles.Binary64

/-- The reals that round to a number, as bounds in units of `2 ^ unit`, with the
number itself between them. -/
structure Interval where
  low : Nat
  mid : Nat
  high : Nat
  unit : Int
  /-- Whether the two bounds belong to it. -/
  closed : Bool

/-- The interval of a finite number `significand * 2 ^ exponent`. Its lower half is
half as wide above a power of two, where the numbers below are twice as dense. -/
def Interval.around (significand : Nat) (exponent : Int) : Interval :=
  let dense := significand = pow2 52 && decide (-1074 < exponent)
  { low := 4 * significand - (if dense then 1 else 2)
    mid := 4 * significand
    high := 4 * significand + 2
    unit := exponent - 2
    closed := significand % 2 = 0 }

/-- The number of digits before the decimal point of `mid * 2 ^ unit`; negative for
zeros after the point. -/
def Interval.pointPlace (i : Interval) : Int :=
  (Nat.toDigits 10 (i.mid * pow2 i.unit.toNat * pow10 400 / pow2 (-i.unit).toNat)).length - 400

/-- The point of the grid of multiples of `10 ^ place` that lies in the interval,
the nearer one if two do. Only the two neighbours of the middle can. -/
def Interval.onGrid? (i : Interval) (place : Int) : Option Nat :=
  let grid := pow10 place.toNat * pow2 (-i.unit).toNat
  let scale := pow2 i.unit.toNat * pow10 (-place).toNat
  let inside (c : Nat) : Bool :=
    if i.closed then i.low * scale ≤ c * grid && c * grid ≤ i.high * scale
    else i.low * scale < c * grid && c * grid < i.high * scale
  let below := i.mid * scale / grid
  let twiceOver := 2 * (i.mid * scale % grid)
  match inside below, inside (below + 1) with
  | true, true =>
    if twiceOver < grid || (twiceOver = grid && below % 2 = 0) then some below
    else some (below + 1)
  | true, false => some below
  | false, true => some (below + 1)
  | false, false => none

/-- The digits and their place without zeros at the end. -/
def dropZeros : Nat → Nat → Int → Nat × Int
  | 0, digits, place => (digits, place)
  | fuel + 1, digits, place =>
    if digits ≠ 0 ∧ digits % 10 = 0 then dropZeros fuel (digits / 10) (place + 1)
    else (digits, place)

/-- The fewest digits that read back, with the place of the last one: the number is
`digits * 10 ^ place`. Seventeen digits always read back. -/
def shortest (significand : Nat) (exponent : Int) : Nat × Int :=
  if significand = 0 then (0, 0)
  else
    let i := Interval.around significand exponent
    let point := i.pointPlace
    let hits := (List.range 17).filterMap fun (n : Nat) =>
      let place := point - (n + 1)
      (i.onGrid? place).map fun digits => dropZeros 20 digits place
    hits.headD (0, 0)

/-- What a written number leaves open once its digits are known. -/
structure Layout where
  /-- The first and the last exponent written without exponent notation. -/
  leastPositional : Int
  mostPositional : Int
  /-- The least number of digits of a written exponent. -/
  exponentWidth : Nat

/-- Digits with a point before the given one of them. -/
def positional (digits : Text) (point : Int) : Text :=
  if point ≤ 0 then '0' :: '.' :: List.replicate (-point).toNat '0' ++ digits
  else
    let n := point.toNat
    let after := digits.drop n
    digits.take n ++ List.replicate (n - digits.length) '0' ++
      '.' :: (if after.isEmpty then ['0'] else after)

/-- Digits with a point after the first of them and an exponent of ten. -/
def scientific (layout : Layout) (digits : Text) (exponent : Int) : Text :=
  let mantissa :=
    match digits with
    | d :: rest@(_ :: _) => d :: '.' :: rest
    | short => short
  mantissa ++ 'e' :: (if exponent < 0 then '-' else '+') ::
    Text.padLeft layout.exponentWidth '0' (Text.ofNat exponent.natAbs)

/-- The text of a number. -/
def write (layout : Layout) (x : Binary64) : Text :=
  let sign : Text := if x.negative then ['-'] else []
  match x.magnitude with
  | .nan => "nan".toList
  | .infinite => sign ++ "inf".toList
  | .finite m e =>
    let (digits, place) := shortest m e
    let digits := Text.ofNat digits
    let exponent := (digits.length : Int) + place - 1
    sign ++
      if layout.leastPositional ≤ exponent ∧ exponent ≤ layout.mostPositional then
        positional digits (exponent + 1)
      else scientific layout digits exponent

/-- The digits at the start of a text, with what follows them. -/
def takeDigits : Text → List Nat × Text
  | [] => ([], [])
  | c :: rest =>
    match Text.digitValue? c with
    | some d => let (ds, after) := takeDigits rest; (d :: ds, after)
    | none => ([], c :: rest)

/-- An exponent: nothing, or `e` with an optional sign and at least one digit. -/
def readExponent? : Text → Option Int
  | [] => some 0
  | 'e' :: rest | 'E' :: rest =>
    let (negative, rest) : Bool × Text := match rest with
      | '-' :: r => (true, r)
      | '+' :: r => (false, r)
      | r => (false, r)
    match takeDigits rest with
    | (d :: ds, []) =>
      let n : Int := Text.ofDigits 10 (d :: ds)
      some (if negative then -n else n)
    | _ => none
  | _ => none

/-- An unsigned number: digits with at most one point among them and an optional
exponent, or one of the words for infinity and NaN. -/
def readUnsigned? (negative : Bool) (t : Text) : Option Binary64 :=
  let word := t.map Char.toLower
  if word = "inf".toList || word = "infinity".toList then some (infinity negative)
  else if word = "nan".toList then some nan
  else do
    let (whole, rest) := takeDigits t
    let (part, rest) := match rest with
      | '.' :: r => takeDigits r
      | r => ([], r)
    if whole.isEmpty && part.isEmpty then none
    let exponent ← readExponent? rest
    pure (ofDecimal negative (Text.ofDigits 10 (whole ++ part)) (exponent - part.length))

/-- A number with white space around it and an optional sign. -/
def read? (t : Text) : Option Binary64 :=
  match Text.stripSpacing t with
  | '-' :: rest => readUnsigned? true rest
  | '+' :: rest => readUnsigned? false rest
  | rest => readUnsigned? false rest

end Dotfiles.Binary64
