import Dotfiles.Yaml.Graph
import Dotfiles.Yaml.Token

/-!
The nodes that tokens form. A document is read by descent over its tokens, which may be
known up to some place only; whoever needs a token beyond that place learns why it is not
known.
-/

namespace Dotfiles.Yaml

/-- The tokens that are left, and what is known so far. -/
structure Reader where
  tokens : Tokens
  graph : Graph
  /-- The nodes at anchors, also those that are still being read. -/
  anchors : List (Text × NodeId)
  /-- What the handles of tags stand for. -/
  handles : List (Text × Text)

/-- A step of reading, which fails where the tokens form no node. -/
abbrev Read := StateT Reader (Except Failure)

namespace Read

/-- The end of reading at tokens that form no node. -/
def refuse {α : Type} : Read α := throw .invalid

/-- The next token, if there is one. -/
def peek : Read (Option Token) := do
  let r ← get
  match r.tokens.known, r.tokens.failure with
  | token :: _, _ => return some token
  | [], some failure => throw failure
  | [], none => return none

/-- Goes past the next token. -/
def skip : Read Unit :=
  modify fun r => { r with tokens := { r.tokens with known := r.tokens.known.tail } }

/-- Goes past the next token if it is the given one, and tells whether it was. -/
def accept (token : Token) : Read Bool := do
  if (← peek) = some token then
    skip
    return true
  else return false

/-- Goes past the given token, which has to come next. -/
def expect (token : Token) : Read Unit := do
  if !(← accept token) then refuse

/-- Whether one of the given tokens comes next. -/
def isAt (tokens : List Token) : Read Bool := return (← peek).any fun t => tokens.contains t

/-- The number of tokens that are left. -/
def remaining : Read Nat := return (← get).tokens.known.length

/-- The anchor that comes next, if one does. -/
def anchor : Read (Option Text) := do
  match ← peek with
  | some (.anchor name) => do
    skip
    return some name
  | _ => return none

/-- A tag as it is written: a handle, if it has one, and the rest. -/
structure WrittenTag where
  handle : Option Text
  suffix : Text

/-- The tag that comes next, if one does. -/
def tag : Read (Option WrittenTag) := do
  match ← peek with
  | some (.tag handle suffix) => do
    skip
    return some ⟨handle, suffix⟩
  | _ => return none

/-- The full text of a tag. -/
def expand : Option WrittenTag → Read (Option Text)
  | none => return none
  | some ⟨none, suffix⟩ => return some suffix
  | some ⟨some handle, suffix⟩ => do
    match (← get).handles.lookup handle with
    | some expansion => return some (expansion ++ suffix)
    | none => refuse

/-- What stands in front of a node. -/
structure Properties where
  anchor : Option Text
  tag : Option Text

/-- Whether anything stands in front of a node. -/
def Properties.any (p : Properties) : Bool := p.anchor.isSome || p.tag.isSome

/-- Anchor and tag, in either order. -/
def properties : Read Properties := do
  match ← anchor with
  | some name => return ⟨some name, ← expand (← tag)⟩
  | none => do
    let written ← tag
    let name ← anchor
    return ⟨name, ← expand written⟩

/-- A new node, known by an anchor if it has one. Every anchor is given once. -/
def begin (name : Option Text) : Read NodeId := do
  let known := (← get).anchors
  if name.any fun name => (known.lookup name).isSome then refuse
  modifyGet fun r =>
    let id := r.graph.size
    let named := name.toList.map fun name => (name, id)
    (id, { r with graph := r.graph.push .absent, anchors := named ++ r.anchors })

/-- The node of a value that is left out. -/
def absent : Read NodeId := begin none

/-- Says what a node is that has begun. -/
def complete (id : NodeId) (node : Node) : Read Unit :=
  modify fun r => { r with graph := r.graph.set id node }

/-- The node that an alias stands for. -/
def aliased (name : Text) : Read NodeId := do
  match (← get).anchors.lookup name with
  | some id => return id
  | none => refuse

/-- The kind of a scalar. A lone exclamation mark as tag leaves it to the text. -/
def scalarKind (tag : Option Text) (text : Text) (plain : Bool) : Kind :=
  match tag with
  | none => if plain then Kind.ofPlain text else .text
  | some ['!'] => Kind.ofText text
  | some t => Kind.ofTag t

/-- The kind of a list or a mapping: the given one, unless a tag says otherwise. -/
def collectionKind (tag : Option Text) (usual : Kind) : Kind :=
  match tag with
  | none => usual
  | some ['!'] => usual
  | some t => Kind.ofTag t

/-- Where a node stands, which says what it can be. -/
inductive Place where
  /-- Between brackets or braces, where no block can be. -/
  | flow
  /-- In a block. -/
  | block
  /-- As key or value in a block. There the items of a list may be indented no deeper than
  the key. -/
  | field
  deriving DecidableEq, Repr

/-- The tokens after which an item of an unindented list is absent. -/
def unindentedEnds : List Token := [.item, .key, .value, .blockEnd]

/-- The tokens in whose place a key or value of a block is absent. -/
def blockEnds : List Token := [.key, .value, .blockEnd]

/-- The given node, or an absent one in front of one of the given tokens. -/
def unlessAt (ends : List Token) (node : Read NodeId) : Read NodeId := do
  if ← isAt ends then absent else node

/-- The items of a block, up to its end. Every round takes a token, so the number of all
tokens bounds the number of rounds, here and in what follows. -/
def blockItems (node : Place → Read NodeId) : Nat → Read (List NodeId)
  | 0 => refuse
  | rounds + 1 => do
    if ← accept .item then
      let item ← unlessAt [.item, .blockEnd] (node .block)
      return item :: (← blockItems node rounds)
    else
      expect .blockEnd
      return []

/-- The items of an unindented list. -/
def unindentedItems (node : Place → Read NodeId) : Nat → Read (List NodeId)
  | 0 => refuse
  | rounds + 1 => do
    if ← accept .item then
      let item ← unlessAt unindentedEnds (node .block)
      return item :: (← unindentedItems node rounds)
    else return []

/-- The value after a key; one of the given tokens in its place means that it is absent. -/
def valueAfterKey (ends : List Token) (node : Read NodeId) : Read NodeId := do
  if ← accept .value then unlessAt ends node else absent

/-- The keys and values of a block, up to its end. -/
def blockPairs (node : Place → Read NodeId) : Nat → Read (List (NodeId × NodeId))
  | 0 => refuse
  | rounds + 1 => do
    if ← accept .key then
      let key ← unlessAt blockEnds (node .field)
      let value ← valueAfterKey blockEnds (node .field)
      return (key, value) :: (← blockPairs node rounds)
    else
      expect .blockEnd
      return []

/-- A key and its value between brackets or braces, of which the given token is the
closing one. -/
def flowPair (node : Place → Read NodeId) (closing : Token) : Read (NodeId × NodeId) := do
  let key ← unlessAt [.value, .comma, closing] (node .flow)
  let value ← valueAfterKey [.comma, closing] (node .flow)
  return (key, value)

/-- The items between brackets, up to the closing one. A key among them is a mapping with
that key alone. -/
def flowItems (node : Place → Read NodeId) : Nat → Bool → Read (List NodeId)
  | 0, _ => refuse
  | rounds + 1, first => do
    if ← accept .flowListEnd then return []
    if !first then expect .comma
    if ← accept .key then
      let id ← begin none
      let pair ← flowPair node .flowListEnd
      complete id (.map .map [pair])
      return id :: (← flowItems node rounds false)
    else if ← accept .flowListEnd then return []
    else
      let item ← node .flow
      return item :: (← flowItems node rounds false)

/-- The keys and values between braces, up to the closing one. -/
def flowPairs (node : Place → Read NodeId) : Nat → Bool → Read (List (NodeId × NodeId))
  | 0, _ => refuse
  | rounds + 1, first => do
    if ← accept .flowMapEnd then return []
    if !first then expect .comma
    if ← accept .key then
      let pair ← flowPair node .flowMapEnd
      return pair :: (← flowPairs node rounds false)
    else if ← accept .flowMapEnd then return []
    else
      let key ← node .flow
      let value ← absent
      return (key, value) :: (← flowPairs node rounds false)

/-- What a node is, given how the nodes in it are read. Behind properties there may be
nothing. -/
def content (rounds : Nat) (node : Place → Read NodeId) (place : Place) (p : Properties) :
    Read Node := do
  match ← peek, place with
  | some .item, .field =>
    .list (collectionKind p.tag .list) <$> unindentedItems node rounds
  | some (.scalar text plain), _ => do
    skip
    return .scalar (scalarKind p.tag text plain) text
  | some .flowListStart, _ => do
    skip
    .list (collectionKind p.tag .list) <$> flowItems node rounds true
  | some .flowMapStart, _ => do
    skip
    .map (collectionKind p.tag .map) <$> flowPairs node rounds true
  | some .blockListStart, .block | some .blockListStart, .field => do
    skip
    .list (collectionKind p.tag .list) <$> blockItems node rounds
  | some .blockMapStart, .block | some .blockMapStart, .field => do
    skip
    .map (collectionKind p.tag .map) <$> blockPairs node rounds
  | _, _ => if p.any then return .scalar (scalarKind p.tag [] true) [] else refuse

/-- The node that comes next, which may hold the given number of levels of further nodes. -/
def node (rounds : Nat) : Nat → Place → Read NodeId
  | 0, _ => throw .tooDeep
  | levels + 1, place => do
    match ← peek with
    | some (.alias name) => do
      skip
      aliased name
    | _ => do
      let p ← properties
      let _ ← peek
      let id ← begin p.anchor
      complete id (← content rounds (node rounds levels) place p)
      return id

/-- The handles that are always known. -/
def usualHandles : List (Text × Text) := [("!".toList, "!".toList), ("!!".toList, Kind.tagStem)]

/-- The handles that directives define, each once; there is at most one version, and it
begins with one. -/
def directives : Nat → Bool → List (Text × Text) → Read (List (Text × Text))
  | 0, _, _ => refuse
  | rounds + 1, versioned, handles => do
    match ← peek with
    | some (.directive d) => do
      skip
      match d with
      | .version major => do
        if versioned || major ≠ 1 then refuse
        directives rounds true handles
      | .handle name expansion => do
        if (handles.lookup name).isSome then refuse
        directives rounds versioned ((name, expansion) :: handles)
      | .other => directives rounds versioned handles
    | _ => return handles

/-- What follows a document: nothing but marks of its end. A directive would begin another
document. -/
def endOfText : Nat → Read Unit
  | 0 => refuse
  | rounds + 1 => do
    match ← peek with
    | none => return ()
    | some .documentEnd => do
      skip
      endOfText rounds
    | some (.directive _) => do
      let _ ← directives (rounds + 1) false []
      let _ ← peek
      refuse
    | _ => refuse

/-- How many levels of nodes a document may have. -/
def deepest : Nat := 490

/-- The node of the only document. A text without any is null. -/
def document : Read NodeId := do
  let rounds := (← remaining) + 1
  let root ←
    match ← peek with
    | none => absent
    | some (.directive _) | some .documentStart => do
      let handles ← directives rounds false []
      modify fun r => { r with handles := handles ++ usualHandles }
      expect .documentStart
      match ← peek with
      | none | some (.directive _) | some .documentStart | some .documentEnd => absent
      | _ => node rounds deepest .block
    | _ => node rounds deepest .block
  endOfText rounds
  return root

end Read

/-- The nodes of a text's only document, and the number of its root. -/
def Graph.ofTokens (tokens : Tokens) : Except Failure (Graph × NodeId) := do
  let (root, r) ← Read.document.run ⟨tokens, Graph.empty, [], Read.usualHandles⟩
  return (r.graph, root)

end Dotfiles.Yaml
