import Dotfiles.Yaml.Property
import Dotfiles.Yaml.Scalar.Block
import Dotfiles.Yaml.Scalar.Plain

/-!
Cutting a document into tokens. Outside of brackets the indentation of lines says where
blocks begin and end. A key need not be marked as one: every token that could be a key is
remembered as a candidate, and when a colon follows it on the same line, the marks that a
key has are put in front of it.
-/

namespace Dotfiles.Yaml

/-- A token that turns out to be a key if a colon follows. -/
structure Candidate where
  /-- The number of tokens in front of it. -/
  tokens : Nat
  /-- Whether it can be nothing but a key, because it stands at the indentation of a block. -/
  required : Bool
  index : Nat
  line : Nat
  column : Nat

/-- A document that has been cut into tokens up to a place. -/
structure Layout where
  cursor : Cursor
  tokens : Array Token
  /-- The columns of the open blocks, the innermost first. -/
  indents : List Nat
  /-- The candidate inside each open bracket, the innermost first. -/
  enclosing : List (Option Candidate)
  /-- The candidate outside the brackets or inside the innermost one. -/
  candidate : Option Candidate
  /-- Whether a key can begin here without a mark. -/
  keyAllowed : Bool

namespace Layout

/-- The beginning of a document. -/
def start (t : Text) : Layout := ⟨Cursor.start t, #[], [], [], none, true⟩

/-- Whether the place is inside brackets or braces. -/
def inFlow (l : Layout) : Bool := !l.enclosing.isEmpty

/-- The layout with another token. -/
def add (l : Layout) (token : Token) : Layout := { l with tokens := l.tokens.push token }

/-- The layout at another place. -/
def goTo (l : Layout) (c : Cursor) : Layout := { l with cursor := c }

/-- The layout with keys allowed or not. -/
def allow (l : Layout) (allowed : Bool) : Layout := { l with keyAllowed := allowed }

/-- The layout with a token put behind the given number of others. -/
def insert (l : Layout) (position : Nat) (token : Token) : Layout :=
  { l with tokens := l.tokens.insertIdxIfInBounds position token }

/-- The layout at the next token. Outside of brackets the start of a line allows a key. -/
def skipBlank : Nat → Layout → Layout
  | 0, l => l
  | fuel + 1, l =>
    let c := l.cursor.skipSpaces.skipComment
    match c.lineBreak? with
    | none => l.goTo c
    | some (_, after) => skipBlank fuel ((l.goTo after).allow (l.keyAllowed || !l.inFlow))

/-- Whether a candidate can no longer become a key: its line has ended, or it is too long. -/
def isStale (c : Cursor) (k : Candidate) : Bool :=
  k.line ≠ c.line || decide (1024 < c.index - k.index)

/-- The candidate that is left at a place; a required one must not be lost. -/
def refresh (c : Cursor) : Option Candidate → Except Failure (Option Candidate)
  | none => .ok none
  | some k =>
    if isStale c k then if k.required then .error .invalid else .ok none else .ok (some k)

/-- The layout without the candidates that can no longer become keys. -/
def dropStale (l : Layout) : Except Failure Layout := do
  let candidate ← refresh l.cursor l.candidate
  let enclosing ← l.enclosing.mapM (refresh l.cursor)
  return { l with candidate := candidate, enclosing := enclosing }

/-- The layout without its candidate, which must not be a required one. -/
def dropCandidate (l : Layout) : Except Failure Layout :=
  match l.candidate with
  | some k => if k.required then .error .invalid else .ok { l with candidate := none }
  | none => .ok l

/-- The layout with the next token as candidate, if a key can begin here. -/
def saveCandidate (l : Layout) : Except Failure Layout :=
  if l.keyAllowed then do
    let l ← l.dropCandidate
    let c := l.cursor
    let required := !l.inFlow && l.indents.head? = some c.column
    return { l with candidate := some ⟨l.tokens.size, required, c.index, c.line, c.column⟩ }
  else return l

/-- The tokens of which it is settled that no key begins in front of them: those before
the first candidate. -/
def settled (l : Layout) : List Token :=
  let pending := (l.candidate :: l.enclosing).filterMap fun k => k.filter fun k => !isStale l.cursor k
  l.tokens.toList.take ((pending.map Candidate.tokens).foldl min l.tokens.size)

/-- Ends the blocks that are indented deeper than a column; without a column, all. -/
def closeBlocks (column : Option Nat) : List Nat → Array Token → List Nat × Array Token
  | [], tokens => ([], tokens)
  | indent :: outer, tokens =>
    if column.all fun n => decide (n < indent) then closeBlocks column outer (tokens.push .blockEnd)
    else (indent :: outer, tokens)

/-- The layout with the blocks ended that a column lies outside of. -/
def unwind (l : Layout) (column : Option Nat) : Layout :=
  if l.inFlow then l
  else
    let (indents, tokens) := closeBlocks column l.indents l.tokens
    { l with indents := indents, tokens := tokens }

/-- Whether a block that begins at a column lies inside all others. -/
def isDeeper (l : Layout) (column : Nat) : Bool := l.indents.head?.all fun n => decide (n < column)

/-- The layout with a block begun at a column, behind the given number of tokens, if it
lies inside all others. -/
def openBlock (l : Layout) (column position : Nat) (token : Token) : Layout :=
  if l.isDeeper column then { l with indents := column :: l.indents }.insert position token else l

/-- The layout with a block begun here. -/
def openBlockHere (l : Layout) (token : Token) : Layout :=
  l.openBlock l.cursor.column l.tokens.size token

/-- The least column of text inside the innermost block. -/
def innerColumn (l : Layout) : Nat :=
  match l.indents with
  | [] => 0
  | indent :: _ => indent + 1

/-- A directive. -/
def directive (l : Layout) : Except Failure Layout := do
  let l ← (l.unwind none).dropCandidate
  let (token, after) ← Directive.scan l.cursor
  return ((l.allow false).add token).goTo after

/-- A marker that begins or ends a document. -/
def marker (l : Layout) (token : Token) : Except Failure Layout := do
  let l ← (l.unwind none).dropCandidate
  return ((l.allow false).add token).goTo (l.cursor.advance 3)

/-- An opening bracket. -/
def openFlow (l : Layout) (token : Token) : Except Failure Layout := do
  let l ← l.saveCandidate
  let l := { l with enclosing := l.candidate :: l.enclosing, candidate := none }
  return ((l.allow true).add token).goTo l.cursor.next

/-- A closing bracket. -/
def closeFlow (l : Layout) (token : Token) : Except Failure Layout := do
  let l ← l.dropCandidate
  match l.enclosing with
  | [] => throw .invalid
  | outer :: rest =>
    let l := { l with enclosing := rest, candidate := outer }
    return ((l.allow false).add token).goTo l.cursor.next

/-- A comma between brackets. -/
def flowComma (l : Layout) : Except Failure Layout := do
  let l ← l.dropCandidate
  return ((l.allow true).add .comma).goTo l.cursor.next

/-- The hyphen in front of an item. -/
def blockItem (l : Layout) : Except Failure Layout := do
  if !l.inFlow && !l.keyAllowed then throw .invalid
  let l := if l.inFlow then l else l.openBlockHere .blockListStart
  let l ← l.dropCandidate
  return ((l.allow true).add .item).goTo l.cursor.next

/-- The question mark in front of a key. -/
def markedKey (l : Layout) : Except Failure Layout := do
  if !l.inFlow && !l.keyAllowed then throw .invalid
  let l := if l.inFlow then l else l.openBlockHere .blockMapStart
  let l ← l.dropCandidate
  return ((l.allow !l.inFlow).add .key).goTo l.cursor.next

/-- The colon in front of a value. -/
def markedValue (l : Layout) : Except Failure Layout := do
  let l ←
    match l.candidate with
    | some k =>
      let l := { l with candidate := none }.insert k.tokens .key
      let l := if l.inFlow then l else l.openBlock k.column k.tokens .blockMapStart
      pure (l.allow false)
    | none =>
      if l.inFlow then pure (l.allow false)
      else if l.keyAllowed then pure ((l.openBlockHere .blockMapStart).allow true)
      else throw .invalid
  return (l.add .value).goTo l.cursor.next

/-- An anchor or an alias. -/
def named (l : Layout) (token : Text → Token) : Except Failure Layout := do
  let l ← l.saveCandidate
  let (name, after) ← wellFormed (anchorName? l.cursor)
  return ((l.allow false).add (token name)).goTo after

/-- A tag. -/
def tag (l : Layout) : Except Failure Layout := do
  let l ← l.saveCandidate
  let (token, after) ← wellFormed (Tag.scan? l.cursor)
  return ((l.allow false).add token).goTo after

/-- A block scalar. -/
def blockScalar (l : Layout) (folded : Bool) : Except Failure Layout := do
  let l ← l.dropCandidate
  let (text, after) ← wellFormed (Block.scan folded (Nat.max 1 l.innerColumn) l.cursor)
  return ((l.allow true).add (.scalar text false)).goTo after

/-- A quoted scalar. -/
def quotedScalar (l : Layout) (quote : Char) : Except Failure Layout := do
  let l ← l.saveCandidate
  let (text, after) ← Quoted.scan quote l.cursor
  return ((l.allow false).add (.scalar text false)).goTo after

/-- A plain scalar. -/
def plainScalar (l : Layout) : Except Failure Layout := do
  let l ← l.saveCandidate
  let (text, after, crossed) := Plain.scan l.inFlow l.innerColumn l.cursor
  return ((l.allow crossed).add (.scalar text true)).goTo after

/-- The token that begins with a character. -/
def fetch (l : Layout) (ch : Char) : Except Failure Layout :=
  let c := l.cursor
  let gapAfter := isGap (c.ahead 1)
  if ch = '%' && c.column = 0 then l.directive
  else if c.column = 0 && c.atDocumentStart then l.marker .documentStart
  else if c.column = 0 && c.atDocumentEnd then l.marker .documentEnd
  else if ch = '[' then l.openFlow .flowListStart
  else if ch = '\x7b' then l.openFlow .flowMapStart
  else if ch = ']' then l.closeFlow .flowListEnd
  else if ch = '\x7d' then l.closeFlow .flowMapEnd
  else if ch = ',' then l.flowComma
  else if ch = '-' && gapAfter then l.blockItem
  else if ch = '?' && (l.inFlow || gapAfter) then l.markedKey
  else if ch = ':' && (l.inFlow || gapAfter) then l.markedValue
  else if ch = '*' then l.named .alias
  else if ch = '&' then l.named .anchor
  else if ch = '!' then l.tag
  else if ch = '|' && !l.inFlow then l.blockScalar false
  else if ch = '>' && !l.inFlow then l.blockScalar true
  else if ch = '\'' || ch = '"' then l.quotedScalar ch
  else if Plain.canStart l.inFlow c then l.plainScalar
  else .error .invalid

/-- The layout after the next token and those in front of it, and whether that was the end
of the text. At most the given number of lines are passed over in front of the token. -/
def step (lines : Nat) (l : Layout) : Except Failure (Layout × Bool) := do
  let l ← (skipBlank lines l).dropStale
  match l.cursor.peek with
  | none => return (← (l.unwind none).dropCandidate, true)
  | some ch => return (← (l.unwind (some l.cursor.column)).fetch ch, false)

/-- The tokens from a place on. Each round takes at least one character, so the rounds that
are left are no fewer than the lines that are. Where no further token can be read, those
that are settled stay known. -/
def run : Nat → Layout → Tokens
  | 0, l => ⟨l.settled, some .invalid⟩
  | fuel + 1, l =>
    match l.step (fuel + 1) with
    | .error f => ⟨l.settled, some f⟩
    | .ok (l, true) => ⟨l.tokens.toList, none⟩
    | .ok (l, false) => run fuel l

end Layout

/-- Whether a character may stand in a document. -/
def isAllowed (c : Char) : Bool :=
  let n := c.toNat
  n = 0x09 || n = 0x0a || n = 0x0d || decide (0x20 ≤ n) && decide (n ≤ 0x7e) || n = 0x85 ||
    decide (0xa0 ≤ n) && !(n = 0xfffe || n = 0xffff)

/-- The tokens of a document. A byte order mark at its very start is passed over. -/
def Tokens.ofText (t : Text) : Tokens :=
  if t.all isAllowed then
    let l := Layout.start t
    let l := if l.cursor.peek = some byteOrderMark then l.goTo l.cursor.next else l
    Layout.run (t.length + 1) l
  else ⟨[], some .invalid⟩

end Dotfiles.Yaml
