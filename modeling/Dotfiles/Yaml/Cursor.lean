import Dotfiles.Text.Basic

/-!
A place in a document that is being read: the text that is left, and the line and
column, by which indentation is measured.
-/

namespace Dotfiles.Yaml

/-- A place in a document. -/
structure Cursor where
  rest : Text
  index : Nat
  line : Nat
  column : Nat

/-- Whether a character ends a line. -/
def isBreak (c : Char) : Bool :=
  c = '\n' || c = '\r' || c = '\x85' || c = '\u2028' || c = '\u2029'

/-- Whether the end of a line, or of the text, comes next. -/
def endsLine : Option Char → Bool
  | none => true
  | some c => isBreak c

/-- Whether the end of a line or a space comes next. -/
def endsWord : Option Char → Bool
  | some ' ' => true
  | c => endsLine c

/-- Whether the end of a line, a space or a tab comes next. -/
def isGap : Option Char → Bool
  | some '\t' => true
  | c => endsWord c

/-- The mark at the start of a text that tells the order of its bytes. It has no width. -/
def byteOrderMark : Char := '\ufeff'

/-- Whether a character of an anchor, a tag handle or the name of a directive. -/
def isNameChar (c : Char) : Bool := c.isAlphanum || c = '-' || c = '_'

namespace Cursor

/-- The start of a text. -/
def start (t : Text) : Cursor := ⟨t, 0, 0, 0⟩

/-- The character that comes next. -/
def peek (c : Cursor) : Option Char := c.rest.head?

/-- The character that comes after the given number of others. -/
def ahead (c : Cursor) (n : Nat) : Option Char := (c.rest.drop n).head?

/-- The place after the next character. A carriage return in front of a line feed does
not end the line; the line feed will. -/
def next (c : Cursor) : Cursor :=
  match c.rest with
  | [] => c
  | ch :: rest =>
    let ends := isBreak ch && !(ch = '\r' && rest.head? = some '\n')
    { rest := rest
      index := c.index + 1
      line := if ends then c.line + 1 else c.line
      column := if ends then 0 else if ch = byteOrderMark then c.column else c.column + 1 }

/-- The place after the given number of characters. -/
def advance : Nat → Cursor → Cursor
  | 0, c => c
  | n + 1, c => advance n c.next

/-- The characters up to the first that fails a test, and the place after them. -/
def takeWhile (p : Char → Bool) (c : Cursor) : Text × Cursor :=
  let taken := c.rest.takeWhile p
  (taken, c.advance taken.length)

/-- The place after the characters that pass a test. -/
def skipWhile (p : Char → Bool) (c : Cursor) : Cursor := (c.takeWhile p).2

/-- The place after spaces. -/
def skipSpaces (c : Cursor) : Cursor := c.skipWhile (· = ' ')

/-- The place after spaces up to a column. -/
def skipIndent (c : Cursor) (column : Nat) : Cursor :=
  c.advance (Nat.min (column - c.column) (c.rest.takeWhile (· = ' ')).length)

/-- The place at the end of the line if a comment comes next. -/
def skipComment (c : Cursor) : Cursor :=
  if c.peek = some '#' then c.skipWhile fun ch => !isBreak ch else c

/-- The break at the end of a line, read as one character, and the place after it. -/
def lineBreak? (c : Cursor) : Option (Char × Cursor) :=
  match c.rest with
  | '\r' :: '\n' :: _ => some ('\n', c.advance 2)
  | ch :: _ =>
    if isBreak ch then some (if ch = '\u2028' || ch = '\u2029' then ch else '\n', c.next) else none
  | [] => none

/-- Whether the marker that begins a document comes next. -/
def atDocumentStart (c : Cursor) : Bool :=
  Text.startsWith c.rest "---".toList && isGap (c.ahead 3)

/-- Whether the marker that ends a document comes next. -/
def atDocumentEnd (c : Cursor) : Bool :=
  Text.startsWith c.rest "...".toList && isGap (c.ahead 3)

/-- Whether a marker comes next that begins or ends a document. -/
def atMarker (c : Cursor) : Bool := c.atDocumentStart || c.atDocumentEnd

/-- The end of a line after an indicator: spaces, perhaps a comment, and the break. -/
def restOfLine? (c : Cursor) : Option Cursor :=
  let c := c.skipSpaces.skipComment
  match c.lineBreak? with
  | some (_, after) => some after
  | none => if c.rest.isEmpty then some c else none

end Cursor

/-- How a single break between the lines of folded text, followed by the given further
breaks, is read: alone it is a space, and in front of others nothing. A separator that
is no line feed stays. -/
def fold (first : Char) (further : Text) : Text :=
  if first ≠ '\n' then first :: further else if further.isEmpty then [' '] else further

end Dotfiles.Yaml
