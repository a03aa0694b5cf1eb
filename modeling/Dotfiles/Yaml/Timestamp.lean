import Dotfiles.Text.Digit
import Dotfiles.Value.Basic
import Dotfiles.Yaml.Failure

/-!
Dates and moments in documents: `2024-01-31`, or such a date and a time of day, with `T`
or blanks between them, perhaps with a fraction of a second and a zone.
-/

namespace Dotfiles.Yaml.Timestamp

/-- A number of at least and at most so many digits at the start of a text, and the text
after it. -/
def number? (least most : Nat) (t : Text) : Option (Nat × Text) :=
  let digits := (t.take most).takeWhile Char.isDigit
  if digits.length < least then none
  else some (Text.ofDigits 10 (digits.map fun c => c.toNat - '0'.toNat), t.drop digits.length)

/-- The text after a character that it has to begin with. -/
def after? (c : Char) (t : Text) : Option Text := Text.dropPrefix? [c] t

/-- Whether a character may stand between a date and a time. -/
def isBlankMark (c : Char) : Bool := c = ' ' || c = '\t'

/-- The text after the mark between a date and a time. -/
def afterMark? : Text → Option Text
  | [] => none
  | c :: rest =>
    if c = 'T' || c = 't' then some rest
    else if isBlankMark c then some (rest.dropWhile isBlankMark)
    else none

/-- The microseconds after the seconds of a time, of which six digits count, and the text
after them. -/
def fraction (t : Text) : Nat × Text :=
  match t with
  | '.' :: rest =>
    let digits := rest.takeWhile Char.isDigit
    let counted := (digits.map fun c => c.toNat - '0'.toNat).take 6
    (Text.ofDigits 10 (counted ++ List.replicate (6 - counted.length) 0), rest.drop digits.length)
  | _ => (0, t)

/-- The distance of the hours and minutes of a zone, and the text after them. -/
def zoneOffset? (t : Text) : Option (Int × Text) := do
  let (hours, t) ← number? 1 2 t
  match t with
  | ':' :: rest => do
    let (minutes, t) ← number? 2 2 rest
    return (hours * 60 + minutes, t)
  | _ => return (hours * 60, t)

/-- The zone at the end of a time, and the text after it. Without a zone no blanks may
stand there. -/
def zone? (t : Text) : Option (Option Int × Text) :=
  match t.dropWhile isBlankMark with
  | 'Z' :: rest => some (some 0, rest)
  | '+' :: rest => (zoneOffset? rest).map fun (minutes, t) => (some minutes, t)
  | '-' :: rest => (zoneOffset? rest).map fun (minutes, t) => (some (-minutes), t)
  | _ => some (none, t)

/-- Whether nothing is left but the break of a line. -/
def isEnd (t : Text) : Bool := t = [] || t = ['\n']

/-- The numbers of a date, each of the given least number of digits, and the text after
them. -/
def date? (least : Nat) (t : Text) : Option (Nat × Nat × Nat × Text) := do
  let (year, t) ← number? 4 4 t
  let (month, t) ← number? least 2 (← after? '-' t)
  let (day, t) ← number? least 2 (← after? '-' t)
  return (year, month, day, t)

/-- The moment that a text states, whether the calendar has it or not. -/
def moment? (t : Text) : Option Moment := do
  let (year, month, day, t) ← date? 1 t
  let (hour, t) ← number? 1 2 (← afterMark? t)
  let (minute, t) ← number? 2 2 (← after? ':' t)
  let (second, t) ← number? 2 2 (← after? ':' t)
  let (microsecond, t) := fraction t
  let (offset, t) ← zone? t
  if isEnd t then some ⟨year, month, day, hour, minute, second, microsecond, offset⟩ else none

/-- Whether a plain text is read as a date or a moment. A date alone has two digits for
month and day. -/
def isForm (t : Text) : Bool :=
  (moment? t).isSome || (date? 2 t).any fun (_, _, _, rest) => isEnd rest

/-- The date or the moment that a text states. -/
def read (t : Text) : Except Defect Scalar :=
  match moment? t, date? 1 t with
  | some m, _ => if m.isValid then .ok (.moment m) else .error .malformed
  | none, some (year, month, day, rest) =>
    if !isEnd rest then .error .notATime
    else if isDate year month day then .ok (.date year month day)
    else .error .malformed
  | none, none => .error .notATime

example : moment? "2024-1-2t3:04:05.1234567 -1:30".toList =
    some ⟨2024, 1, 2, 3, 4, 5, 123456, some (-90)⟩ := by decide +kernel
example : moment? "2024-01-02 03:04:05 ".toList = none := by decide +kernel
example : isForm "2024-01-02".toList = true ∧ isForm "2024-1-2".toList = false := by decide +kernel

end Dotfiles.Yaml.Timestamp
