import Dotfiles.Text.Ranges
import Dotfiles.Yaml.Cursor
import Dotfiles.Yaml.Failure

/-!
Quoted scalars. Between single quotes a quote is written twice and nothing else is
special; between double quotes a backslash begins an escape. Lines are folded.
-/

namespace Dotfiles.Yaml.Quoted

/-- The character that a backslash with the given character stands for. -/
def escaped? : Char → Option Char
  | '0' => some '\x00'
  | 'a' => some '\x07'
  | 'b' => some '\x08'
  | 't' => some '\t'
  | '\t' => some '\t'
  | 'n' => some '\n'
  | 'v' => some '\x0b'
  | 'f' => some '\x0c'
  | 'r' => some '\r'
  | 'e' => some '\x1b'
  | ' ' => some ' '
  | '"' => some '"'
  | '\\' => some '\\'
  | '/' => some '/'
  | 'N' => some '\x85'
  | '_' => some '\xa0'
  | 'L' => some '\u2028'
  | 'P' => some '\u2029'
  | _ => none

/-- The number of hexadecimal digits after a backslash with the given character. -/
def codeWidth? : Char → Option Nat
  | 'x' => some 2
  | 'u' => some 4
  | 'U' => some 8
  | _ => none

/-- The value of a hexadecimal digit. -/
def hexDigit? (c : Char) : Option Nat :=
  if c.isDigit then some (c.toNat - '0'.toNat)
  else if 'a'.toNat ≤ c.toNat ∧ c.toNat ≤ 'f'.toNat then some (c.toNat - 'a'.toNat + 10)
  else if 'A'.toNat ≤ c.toNat ∧ c.toNat ≤ 'F'.toNat then some (c.toNat - 'A'.toNat + 10)
  else none

/-- The number that hexadecimal digits stand for. -/
def hexNumber? (digits : Text) : Option Nat := do
  let ds ← digits.mapM hexDigit?
  return ds.foldl (fun n d => n * 16 + d) 0

/-- The character with the given code. -/
def character (code : Nat) : Except Failure Char :=
  if h : code.isValidChar then .ok (Char.ofNatAux code h)
  else if code < 0x110000 then .ok (Text.halfPair code)
  else .error (.defective (if code < 0x80000000 then .malformed else .tooLarge))

/-- Breaks between two lines, with the blanks around them, and the place after them. A
marker must not stand at the start of a line inside quotes. -/
def breaks : Nat → Text → Cursor → Option (Text × Cursor)
  | 0, _, _ => none
  | fuel + 1, found, c =>
    if c.atMarker then none
    else
      let c := c.skipWhile fun ch => ch = ' ' || ch = '\t'
      match c.lineBreak? with
      | none => some (found, c)
      | some (b, after) => breaks fuel (found ++ [b]) after

/-- Blanks at a place: kept inside a line, folded at the end of one. -/
def blanks (c : Cursor) : Option (Text × Cursor) := do
  let (spaces, c) := c.takeWhile fun ch => ch = ' ' || ch = '\t'
  if c.rest.isEmpty then none
  match c.lineBreak? with
  | none => some (spaces, c)
  | some (first, after) =>
    let (further, c) ← breaks (after.rest.length + 2) [] after
    some (fold first further, c)

/-- The escape after a backslash. A line break after it joins the lines without a space. -/
def escape (c : Cursor) : Except Failure (Text × Cursor) := do
  let ch ← wellFormed c.peek
  match escaped? ch, codeWidth? ch with
  | some meant, _ => return ([meant], c.next)
  | none, some width => do
    let digits := c.next.rest.take width
    if digits.length ≠ width then throw .invalid
    let meant ← character (← wellFormed (hexNumber? digits))
    return ([meant], c.advance (width + 1))
  | none, none => do
    let (_, after) ← wellFormed c.lineBreak?
    wellFormed (breaks (after.rest.length + 2) [] after)

/-- The text from a place up to the closing quote, and the place after it. `read` is the
text in front of the place, its last character first. -/
def body (quote : Char) : Nat → Text → Cursor → Except Failure (Text × Cursor)
  | 0, _, _ => .error .invalid
  | fuel + 1, read, c => do
    let ch ← wellFormed c.peek
    if ch = quote then
      if quote = '\'' && c.ahead 1 = some '\'' then body quote fuel (ch :: read) (c.advance 2)
      else return (read.reverse, c.next)
    else if ch = '\\' && quote = '"' then do
      let (meant, after) ← escape c.next
      body quote fuel (meant.reverse ++ read) after
    else if isGap (some ch) then do
      let (space, after) ← wellFormed (blanks c)
      body quote fuel (space.reverse ++ read) after
    else body quote fuel (ch :: read) c.next

/-- The quoted scalar at a place, which is at its opening quote, and the place after it. -/
def scan (quote : Char) (c : Cursor) : Except Failure (Text × Cursor) :=
  body quote (c.rest.length + 1) [] c.next

end Dotfiles.Yaml.Quoted
