import Dotfiles.Text.Basic

/-!
Dates of the calendar, and moments: a time of day on such a date, perhaps with the
distance of its zone from universal time.
-/

namespace Dotfiles

/-- The number of days of a month. -/
def daysIn (year month : Nat) : Nat :=
  if month = 2 then
    if year % 4 = 0 && (year % 100 ≠ 0 || year % 400 = 0) then 29 else 28
  else if month = 4 || month = 6 || month = 9 || month = 11 then 30
  else 31

/-- The number of days of so many months of a year, counted from its first one. -/
def daysOfMonths (year : Nat) : Nat → Nat
  | 0 => 0
  | months + 1 => daysOfMonths year months + daysIn year (months + 1)

/-- Whether there is such a date in the calendar, which begins with the year one. -/
def isDate (year month day : Nat) : Bool :=
  1 ≤ year && 1 ≤ month && month ≤ 12 && 1 ≤ day && day ≤ daysIn year month

/-- A time of day on a date. -/
structure Moment where
  year : Nat
  month : Nat
  day : Nat
  hour : Nat
  minute : Nat
  second : Nat
  microsecond : Nat
  /-- How many minutes the clocks of its zone are ahead of universal time, if it has one. -/
  offset : Option Int
  deriving DecidableEq, Repr

namespace Moment

/-- The number of minutes of a day. -/
def dayMinutes : Nat := 1440

/-- Whether the calendar and the clock have such a moment. A zone is less than a day
away from universal time. -/
def isValid (m : Moment) : Bool :=
  isDate m.year m.month m.day && m.hour < 24 && m.minute < 60 && m.second < 60 &&
    m.offset.all fun minutes => minutes.natAbs < dayMinutes

/-- The number of days in the years and months before those of a moment, and in its
month up to its day. -/
def days (m : Moment) : Nat :=
  let years := m.year - 1
  years * 365 + years / 4 - years / 100 + years / 400 + daysOfMonths m.year (m.month - 1) + m.day

/-- The number of microseconds up to a moment, by the clocks of its zone. -/
def localTime (m : Moment) : Nat :=
  (((m.days * 24 + m.hour) * 60 + m.minute) * 60 + m.second) * 1000000 + m.microsecond

/-- Whether two moments are the same. One with a zone is never the same as one without. -/
def isSame (a b : Moment) : Bool :=
  match a.offset, b.offset with
  | none, none => a.localTime = b.localTime
  | some m, some n => (a.localTime : Int) - m * 60000000 = (b.localTime : Int) - n * 60000000
  | _, _ => false

/-- A number in decimal, filled up with zeros. -/
def padded (width n : Nat) : Text := Text.padLeft width '0' (Text.ofNat n)

/-- The offset as hours and minutes behind a sign. -/
def offsetText (minutes : Int) : Text :=
  (if minutes < 0 then '-' else '+') :: padded 2 (minutes.natAbs / 60) ++
    ':' :: padded 2 (minutes.natAbs % 60)

/-- A date in its plain form. -/
def dateText (year month day : Nat) : Text :=
  padded 4 year ++ '-' :: padded 2 month ++ '-' :: padded 2 day

/-- The plain form, with the given mark between date and time. -/
def written (mark : Char) (m : Moment) : Text :=
  dateText m.year m.month m.day ++ mark :: padded 2 m.hour ++ ':' :: padded 2 m.minute ++
    ':' :: padded 2 m.second ++
    (if m.microsecond = 0 then [] else '.' :: padded 6 m.microsecond) ++
    (match m.offset with
      | none => []
      | some minutes => offsetText minutes)

/-- The offset in the quoted form: whole days, of which there is a negative one if the
offset is negative, and seconds. -/
def quotedOffset (minutes : Int) : Text :=
  if minutes = 0 then "datetime.timezone.utc".toList
  else
    let day : Text := if minutes < 0 then "days=-1, ".toList else []
    let seconds := (if minutes < 0 then minutes + dayMinutes else minutes) * 60
    "datetime.timezone(datetime.timedelta(".toList ++ day ++ "seconds=".toList ++
      Text.ofInt seconds ++ "))".toList

/-- The quoted form. Seconds and microseconds are left out where they are zero. -/
def quoted (m : Moment) : Text :=
  let seconds : List Nat :=
    if m.microsecond ≠ 0 then [m.second, m.microsecond]
    else if m.second ≠ 0 then [m.second]
    else []
  let numbers := [m.year, m.month, m.day, m.hour, m.minute] ++ seconds
  "datetime.datetime(".toList ++ ", ".toList.intercalate (numbers.map Text.ofNat) ++
    (match m.offset with
      | none => []
      | some minutes => ", tzinfo=".toList ++ quotedOffset minutes) ++ [')']

example : daysOfMonths 2024 12 = 366 ∧ daysOfMonths 1900 12 = 365 := by decide
example : written ' ' ⟨2024, 1, 2, 3, 4, 5, 600000, some (-90)⟩ =
    "2024-01-02 03:04:05.600000-01:30".toList := by decide
example : quoted ⟨2024, 1, 2, 3, 4, 0, 0, some (-300)⟩ =
    ("datetime.datetime(2024, 1, 2, 3, 4, tzinfo=datetime.timezone(" ++
      "datetime.timedelta(days=-1, seconds=68400)))").toList := by decide

end Moment

end Dotfiles
