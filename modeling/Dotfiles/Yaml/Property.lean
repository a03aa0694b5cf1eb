import Dotfiles.Text.Digit
import Dotfiles.Yaml.Scalar.Quoted
import Dotfiles.Yaml.Token

/-!
What may stand in front of a node or a document: anchors and aliases, tags, and
directives.
-/

namespace Dotfiles.Yaml

/-- The name after the indicator of an anchor or an alias, and the place after it. -/
def anchorName? (c : Cursor) : Option (Text × Cursor) :=
  let (name, after) := c.next.takeWhile isNameChar
  let ends : Bool :=
    isGap after.peek || after.peek.any fun ch => "?:,]\x7d%@\x60".toList.contains ch
  if !name.isEmpty && ends then some (name, after) else none

namespace Tag

/-- Whether a character can stand in a tag as it is. -/
def isUriChar (c : Char) : Bool :=
  c.isAlphanum || "-;/?:@&=+$,_.!~*'()[]".toList.contains c

/-- The bytes of consecutive escapes, each a percent sign and two digits, and the text
after them. -/
def escapedBytes? : Text → Option (List UInt8 × Text)
  | '%' :: high :: low :: rest => do
    let h ← Quoted.hexDigit? high
    let l ← Quoted.hexDigit? low
    match rest with
    | '%' :: _ => do
      let (bytes, after) ← escapedBytes? rest
      some (UInt8.ofNat (h * 16 + l) :: bytes, after)
    | _ => some ([UInt8.ofNat (h * 16 + l)], rest)
  | _ => none

/-- The text of a tag from a place on, with its escapes read as UTF-8, and the place
after it. -/
def uri? : Nat → Text → Cursor → Option (Text × Cursor)
  | 0, _, _ => none
  | fuel + 1, text, c =>
    match c.peek with
    | some '%' => do
      let (bytes, after) ← escapedBytes? c.rest
      let meant ← String.fromUTF8? ⟨bytes.toArray⟩
      uri? fuel (text ++ meant.toList) (c.advance (c.rest.length - after.length))
    | some ch =>
      if isUriChar ch then uri? fuel (text ++ [ch]) c.next
      else if text.isEmpty then none else some (text, c)
    | none => if text.isEmpty then none else some (text, c)

/-- The text of a tag at a place. -/
def scanUri? (c : Cursor) : Option (Text × Cursor) := uri? (c.rest.length + 1) [] c

/-- The handle at a place: an exclamation mark, or a name between two. -/
def handle? (c : Cursor) : Option (Text × Cursor) :=
  if c.peek ≠ some '!' then none
  else if c.ahead 1 = some ' ' then some (['!'], c.next)
  else
    let (name, after) := c.next.takeWhile isNameChar
    if after.peek = some '!' then some ('!' :: name ++ ['!'], after.next) else none

/-- Whether a tag goes on with a second exclamation mark before it ends. -/
def hasHandle (c : Cursor) : Bool :=
  (c.next.rest.takeWhile fun ch => !endsWord (some ch)).contains '!'

/-- The tag at a place, which is at its exclamation mark, and the place after it. -/
def scan? (c : Cursor) : Option (Token × Cursor) := do
  let (handle, suffix, after) ←
    if c.ahead 1 = some '<' then do
      let (suffix, after) ← scanUri? (c.advance 2)
      if after.peek = some '>' then some (none, suffix, after.next) else none
    else if isGap (c.ahead 1) then some (none, ['!'], c.next)
    else if hasHandle c then do
      let (handle, after) ← handle? c
      let (suffix, after) ← scanUri? after
      some (some handle, suffix, after)
    else do
      let (suffix, after) ← scanUri? c.next
      some (some ['!'], suffix, after)
  if endsWord after.peek then some (.tag handle suffix, after) else none

end Tag

namespace Directive

/-- The digits of a version number at a place, and the place after them. There may not be
more than an integer can have. -/
def scanNumber (c : Cursor) : Except Failure (Nat × Cursor) :=
  let (digits, after) := c.takeWhile Char.isDigit
  if digits.isEmpty then .error .invalid
  else if Text.digitLimit < digits.length then .error (.defective .malformed)
  else .ok (Text.ofDigits 10 (digits.map fun ch => ch.toNat - '0'.toNat), after)

/-- The version at a place, of which the major number counts, and the place after it. -/
def scanVersion (c : Cursor) : Except Failure (Directive × Cursor) := do
  let (major, c) ← scanNumber c
  if c.peek ≠ some '.' then throw .invalid
  let (_, c) ← scanNumber c.next
  if endsWord c.peek then return (.version major, c) else throw .invalid

/-- The handle and what it stands for at a place, and the place after them. -/
def scanHandle? (c : Cursor) : Option (Directive × Cursor) := do
  let (short, c) ← Tag.handle? c
  if c.peek ≠ some ' ' then none
  let (expansion, c) ← Tag.scanUri? c.skipSpaces
  if endsWord c.peek then some (.handle short expansion, c) else none

/-- The directive at a place, which is at its percent sign, and the place after its line. -/
def scan (c : Cursor) : Except Failure (Token × Cursor) := do
  let (name, after) := c.next.takeWhile isNameChar
  if name.isEmpty || !endsWord after.peek then throw .invalid
  let (directive, after) ←
    if name = "YAML".toList then scanVersion after.skipSpaces
    else if name = "TAG".toList then wellFormed (scanHandle? after.skipSpaces)
    else pure (Directive.other, after.skipWhile fun ch => !isBreak ch)
  let after ← wellFormed after.restOfLine?
  return (.directive directive, after)

end Directive

end Dotfiles.Yaml
