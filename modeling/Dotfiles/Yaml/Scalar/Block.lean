import Dotfiles.Yaml.Cursor

/-!
Block scalars: indented lines after an indicator. The literal style keeps the breaks
between them; the folded style folds those between lines that begin with text. What
becomes of the breaks at the end is said by the header.
-/

namespace Dotfiles.Yaml.Block

/-- What becomes of the breaks at the end. -/
inductive Chomping where
  /-- All go. -/
  | strip
  /-- One stays. -/
  | clip
  /-- All stay. -/
  | keep
  deriving DecidableEq, Repr

/-- What stands after the indicator of a block scalar. -/
structure Header where
  chomping : Chomping
  /-- How much deeper than its surroundings the text is indented, if it is said. -/
  increment : Option Nat

/-- The chomping that a sign stands for. -/
def chomping? : Option Char → Option Chomping
  | some '+' => some .keep
  | some '-' => some .strip
  | _ => none

/-- The increment that a digit stands for; zero is none. -/
def increment? : Option Char → Option Nat
  | some ch => if ch.isDigit && ch ≠ '0' then some (ch.toNat - '0'.toNat) else none
  | none => none

/-- The header at a place, in which sign and digit may come in either order, and the
place after its line. -/
def header? (c : Cursor) : Option (Header × Cursor) := do
  let (header, c) : Header × Cursor :=
    match chomping? c.peek, increment? c.peek with
    | some ch, _ =>
      match increment? (c.ahead 1) with
      | some n => (⟨ch, some n⟩, c.advance 2)
      | none => (⟨ch, none⟩, c.next)
    | none, some n =>
      match chomping? (c.ahead 1) with
      | some ch => (⟨ch, some n⟩, c.advance 2)
      | none => (⟨.clip, some n⟩, c.next)
    | none, none => (⟨.clip, none⟩, c)
  if endsWord c.peek then
    let after ← c.restOfLine?
    some (header, after)
  else none

/-- The breaks of empty lines at a place, in front of the text, with the greatest column
that spaces reach there, and the place after them. -/
def leading : Nat → Text → Nat → Cursor → Text × Nat × Cursor
  | 0, breaks, reach, c => (breaks, reach, c)
  | fuel + 1, breaks, reach, c =>
    if c.peek = some ' ' then leading fuel breaks (Nat.max reach c.next.column) c.next
    else
      match c.lineBreak? with
      | none => (breaks, reach, c)
      | some (b, after) => leading fuel (breaks ++ [b]) reach after

/-- The breaks of empty lines between lines that are indented to a column, and the place
after them and the indentation. -/
def between (column : Nat) : Nat → Text → Cursor → Text × Cursor
  | 0, breaks, c => (breaks, c)
  | fuel + 1, breaks, c =>
    let c := c.skipIndent column
    match c.lineBreak? with
    | none => (breaks, c)
    | some (b, after) => between column fuel (breaks ++ [b]) after

/-- Whether a line that begins with the given character can be folded with another. -/
def beginsWithText : Option Char → Bool
  | some ' ' => false
  | some '\t' => false
  | _ => true

/-- What is left at the end of the lines of a block scalar. -/
structure Lines where
  /-- The text, its last character first. -/
  reversed : Text
  /-- The break at the end of the last line, if there is one. -/
  lastBreak : Text
  /-- The breaks of the empty lines after it. -/
  breaks : Text
  cursor : Cursor

/-- The lines from a place on that are indented to a column, behind those read so far.
Every line takes a character or a break, so that the rounds that are left also suffice
for the empty lines below it. -/
def lines (folded : Bool) (column : Nat) : Nat → Lines → Lines
  | 0, l => l
  | fuel + 1, l =>
    if l.cursor.column = column && l.cursor.peek.isSome then
      let (line, c) := l.cursor.takeWhile fun ch => !isBreak ch
      let (lastBreak, c) : Text × Cursor :=
        match c.lineBreak? with
        | some (b, after) => ([b], after)
        | none => ([], c)
      let (breaks, after) := between column (fuel + 1) [] c
      let goesOn := after.column = column && after.peek.isSome
      let joint : Text :=
        if !goesOn then []
        else if folded && lastBreak = ['\n'] && beginsWithText l.cursor.peek &&
            beginsWithText after.peek then
          if breaks.isEmpty then [' '] else []
        else lastBreak
      let reversed :=
        joint.reverseAux (line.reverseAux (l.breaks.reverseAux l.reversed))
      lines folded column fuel ⟨reversed, lastBreak, breaks, after⟩
    else l

/-- The block scalar after an indicator at a place, and the place after it; `indent` is
the least column of its text. -/
def scan (folded : Bool) (indent : Nat) (c : Cursor) : Option (Text × Cursor) := do
  let (header, c) ← header? c.next
  let fuel := c.rest.length + 1
  let (column, breaks, c) : Nat × Text × Cursor :=
    match header.increment with
    | some n =>
      let column := indent + n - 1
      let (breaks, c) := between column fuel [] c
      (column, breaks, c)
    | none =>
      let (breaks, reach, c) := leading fuel [] 0 c
      (Nat.max indent reach, breaks, c)
  let l := lines folded column fuel ⟨[], [], breaks, c⟩
  let ending : Text :=
    match header.chomping with
    | .strip => []
    | .clip => l.lastBreak
    | .keep => l.lastBreak ++ l.breaks
  return (l.reversed.reverseAux ending, l.cursor)

end Dotfiles.Yaml.Block
