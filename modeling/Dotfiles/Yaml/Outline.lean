import Dotfiles.Text.Base64
import Dotfiles.Yaml.MergeKey
import Dotfiles.Yaml.Number

/-!
The outlines of the values that nodes stand for, in which the nodes of parts stand in for
the parts. A scalar is read where it is met. Everything else begins empty and is filled
later, in the order in which it began; of two faults in a document, the one that is met
first in this order is the one that counts.
-/

namespace Dotfiles.Yaml

/-- The outline of a value. -/
inductive Outline where
  | scalar (s : Scalar)
  | list (items : List NodeId)
  | map (fields : List (Scalar × NodeId))
  | set (members : List Scalar)
  | pairs (items : List (NodeId × NodeId))
  deriving DecidableEq, Repr

namespace Graph

/-- The text of a node that is read as a scalar. A mapping gives the text at its equals
sign. -/
def textOf (g : Graph) : Nat → NodeId → Except Failure Text
  | 0, _ => .error .tooDeep
  | levels + 1, id =>
    match g.node id with
    | .scalar _ text => .ok text
    | .list .. => .error .invalid
    | .map _ pairs =>
      match pairs.find? fun (key, _) => (g.node key).kind = .equals with
      | some (_, value) => textOf g levels value
      | none => .error .invalid

/-- The truth value of a word, whatever its case. -/
def readBool (t : Text) : Except Defect Scalar :=
  match Kind.boolWords.lookup (t.map Char.toLower) with
  | some b => .ok (.bool b)
  | none => .error .unknownWord

/-- The scalar that a node is read as. -/
def scalarOf (g : Graph) (id : NodeId) : Except Failure Scalar := do
  let node := g.node id
  let text := g.textOf (g.size + 1) id
  match node.kind with
  | .null => do
    let _ ← text
    return .null
  | .bool => sound (readBool (← text))
  | .int => .int <$> sound (readInt (← text))
  | .float => sound (readFloat (← text))
  | .timestamp => do
    let t ← text
    match node with
    | .scalar .. => sound (Timestamp.read t)
    | _ => throw (.defective .notAText)
  | .text => .text <$> text
  | .binary => .bytes <$> wellFormed (Text.base64? (← text))
  | .list | .map | .set | .pairs | .merge | .equals | .unknown => throw .invalid

/-- The outline with which the value of a node begins. -/
def firstOutline (g : Graph) (id : NodeId) : Except Failure Outline :=
  match (g.node id).kind with
  | .list => .ok (.list [])
  | .map => .ok (.map [])
  | .set => .ok (.set [])
  | .pairs => .ok (.pairs [])
  | _ => .scalar <$> g.scalarOf id

end Graph

/-- A key of a mapping with its node. A key that equals no number is still the same as
itself. -/
structure Key where
  node : NodeId
  scalar : Scalar

/-- Whether two keys are the same. -/
def Key.isSame (a b : Key) : Bool := a.node = b.node || a.scalar.sameKey b.scalar

/-- Fields with one more. A key that is there already keeps its place and takes the
value. -/
def Key.insert (key : Key) (value : NodeId) : List (Key × NodeId) → List (Key × NodeId)
  | [] => [(key, value)]
  | (k, v) :: rest =>
    if k.isSame key then (k, value) :: rest else (k, v) :: insert key value rest

/-- The outlines of a document as far as they are drawn. -/
structure Sketch where
  graph : Graph
  /-- The outlines by the numbers of their nodes. -/
  outlines : Array (Option Outline)
  /-- The nodes whose outlines are still empty, the last one first. -/
  pending : List NodeId

/-- A step of drawing. -/
abbrev Draw := StateT Sketch (Except Failure)

namespace Draw

/-- The node with a number. -/
def node (id : NodeId) : Draw Node := return (← get).graph.node id

/-- Sets the outline of a node. -/
def put (id : NodeId) (outline : Outline) : Draw Unit :=
  modify fun s => { s with outlines := s.outlines.setIfInBounds id (some outline) }

/-- The outline of a node, which begins here unless it has begun before. -/
def begin (id : NodeId) : Draw Outline := do
  let s ← get
  match s.outlines.getD id none with
  | some outline => return outline
  | none => do
    let outline ← s.graph.firstOutline id
    put id outline
    match outline with
    | .scalar _ => return outline
    | _ => do
      modify fun s => { s with pending := id :: s.pending }
      return outline

/-- The key that a node stands for, which has to be a scalar. -/
def key (id : NodeId) : Draw Key := do
  match ← begin id with
  | .scalar s => return ⟨id, s⟩
  | _ => throw .invalid

/-- The fields of keys and values, after those drawn before. -/
def fields (drawn : List (Key × NodeId)) :
    List (NodeId × NodeId) → Draw (List (Key × NodeId))
  | [] => return drawn
  | (k, value) :: rest => do
    let k ← key k
    let _ ← begin value
    fields (k.insert value drawn) rest

/-- The fields of a mapping, with what it merges. -/
def mapping (mergeLimit : Nat) (id : NodeId) : Draw (List (Key × NodeId)) := do
  let s ← get
  let ((), graph) ← (Rework.resolve mergeLimit [] id).run s.graph
  set { s with graph := graph }
  fields [] (graph.node id).pairs

/-- The key and the value of a mapping that has no other. -/
def pair (id : NodeId) : Draw (NodeId × NodeId) := do
  match ← node id with
  | .map _ [(key, value)] => do
    let _ ← begin key
    let _ ← begin value
    return (key, value)
  | _ => throw .invalid

/-- Fills the outline of a node. -/
def fill (mergeLimit : Nat) (id : NodeId) : Draw Unit := do
  match ← node id with
  | .list .list items => do
    items.forM fun item => discard (begin item)
    put id (.list items)
  | .list .pairs items => put id (.pairs (← items.mapM pair))
  | .map .map _ => do
    let found ← mapping mergeLimit id
    put id (.map (found.map fun (k, value) => (k.scalar, value)))
  | .map .set _ => do
    let found ← mapping mergeLimit id
    put id (.set (found.map fun (k, _) => k.scalar))
  | _ => throw .invalid

/-- Fills all outlines that are pending, and those that begin meanwhile. Every outline
begins once, so there are no more rounds than nodes. -/
def fillAll (mergeLimit : Nat) : Nat → Draw Unit
  | 0 => return ()
  | rounds + 1 => do
    match (← get).pending with
    | [] => return ()
    | pending => do
      modify fun s => { s with pending := [] }
      pending.reverse.forM (fill mergeLimit)
      fillAll mergeLimit rounds

end Draw

/-- The outlines of the values of a document, by the numbers of their nodes. -/
def Graph.outlines (g : Graph) (root : NodeId) : Except Failure (Array (Option Outline)) := do
  let work : Draw Unit := do
    let _ ← Draw.begin root
    Draw.fillAll (g.keyCount + 1) (g.size + 1)
  let ((), s) ← work.run ⟨g, Array.replicate g.size none, []⟩
  return s.outlines

end Dotfiles.Yaml
