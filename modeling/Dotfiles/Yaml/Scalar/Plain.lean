import Dotfiles.Yaml.Cursor

/-!
Plain scalars: text without quotes, up to a character that means something else. It
goes on over line breaks as long as the lines are indented.
-/

namespace Dotfiles.Yaml.Plain

/-- Whether a plain scalar can begin at a place. `flow` says whether the place is inside
brackets or braces. -/
def canStart (flow : Bool) (c : Cursor) : Bool :=
  match c.peek with
  | none => false
  | some ch =>
    !(isGap (some ch) || "-?:,[]\x7b\x7d#&*!|>'\"%@\x60".toList.contains ch) ||
      (!isGap (c.ahead 1) && (ch = '-' || (!flow && (ch = '?' || ch = ':'))))

/-- The number of characters up to the first that cannot stand in a plain scalar. -/
def run (flow : Bool) : Text → Nat
  | [] => 0
  | c :: rest =>
    if isGap (some c) then 0
    else if c = ':' && (isGap rest.head? ||
        (flow && (rest.head?.any fun n => ",[]\x7b\x7d".toList.contains n))) then 0
    else if flow && ",?[]\x7b\x7d".toList.contains c then 0
    else run flow rest + 1

/-- Breaks and spaces between two lines, and the place after them; `none` in place of the
breaks if a marker begins or ends a document there. -/
def gap : Nat → Text → Cursor → Option Text × Cursor
  | 0, breaks, c => (some breaks, c)
  | fuel + 1, breaks, c =>
    if c.peek = some ' ' then gap fuel breaks c.next
    else
      match c.lineBreak? with
      | none => (some breaks, c)
      | some (b, after) =>
        if after.atMarker then (none, after) else gap fuel (breaks ++ [b]) after

/-- What may stand between two pieces of a plain scalar. -/
structure Spacing where
  /-- The text it is read as; empty if the scalar ends here. -/
  text : Text
  cursor : Cursor
  /-- Whether a line was ended. -/
  crossed : Bool

/-- The spacing at a place. -/
def spacing (c : Cursor) : Spacing :=
  let (spaces, c) := c.takeWhile (· = ' ')
  match c.lineBreak? with
  | none => ⟨spaces, c, false⟩
  | some (first, after) =>
    if after.atMarker then ⟨[], after, true⟩
    else
      match gap (after.rest.length + 1) [] after with
      | (none, c) => ⟨[], c, true⟩
      | (some breaks, c) => ⟨fold first breaks, c, true⟩

/-- The text of a plain scalar from a spacing in it on, and the spacing after it. It ends
at a comment, at the end of its line if the next one is indented less than `indent`, and
where nothing can stand in it. -/
def pieces (flow : Bool) (indent : Nat) : Nat → Spacing → Text × Spacing
  | 0, s => ([], s)
  | fuel + 1, s =>
    let n := if s.cursor.peek = some '#' then 0 else run flow s.cursor.rest
    if n = 0 then ([], s)
    else
      let here := s.text ++ s.cursor.rest.take n
      let s := spacing (s.cursor.advance n)
      if s.text.isEmpty || s.cursor.peek = some '#' || (!flow && s.cursor.column < indent) then
        (here, s)
      else
        let (further, last) := pieces flow indent fuel s
        (here ++ further, last)

/-- The plain scalar at a place, the place after it, and whether a line was ended there. -/
def scan (flow : Bool) (indent : Nat) (c : Cursor) : Text × Cursor × Bool :=
  let (text, s) := pieces flow indent (c.rest.length + 1) ⟨[], c, false⟩
  (text, s.cursor, s.crossed)

end Dotfiles.Yaml.Plain
