import Dotfiles.Yaml.Layout
import Dotfiles.Yaml.Node
import Dotfiles.Yaml.Outline

/-!
The values that documents stand for. An outline becomes a value once the values of its
parts are known. Parts of a value that contains itself are never known that way; such a
value is unfolded level by level instead.
-/

namespace Dotfiles.Yaml

/-- The values of nodes by their numbers, as far as they are known. -/
abbrev Values := Array (Option Value)

namespace Outline

/-- The value with this outline, if the values of all its parts are known. -/
def value? (values : Values) : Outline → Option Value
  | .scalar s => some (.scalar s)
  | .list items => .list <$> items.mapM fun id => values.getD id none
  | .map fields => .map <$> fields.mapM fun (k, id) => (k, ·) <$> values.getD id none
  | .set members => some (.set members)
  | .pairs items => .list <$> items.mapM fun (a, b) =>
    .pair <$> values.getD a none <*> values.getD b none

end Outline

namespace Values

/-- The value of a node by its outline. -/
def at? (outlines : Array (Option Outline)) (values : Values) (id : NodeId) : Option Value :=
  (outlines.getD id none).bind fun outline => outline.value? values

/-- The values after one pass over all nodes, the last one first: the parts of a node
follow it, unless an alias refers back. -/
def pass (outlines : Array (Option Outline)) (values : Values) : Values :=
  (List.range outlines.size).foldr (fun id values =>
    if (values.getD id none).isSome then values
    else values.setIfInBounds id (at? outlines values id)) values

/-- The number of known values. -/
def known (values : Values) : Nat := values.foldl (fun n v => if v.isSome then n + 1 else n) 0

/-- All values that can be known, after passes until none brings a new one. -/
def settle (outlines : Array (Option Outline)) : Nat → Values → Values
  | 0, values => values
  | rounds + 1, values =>
    let before := known values
    let values := pass outlines values
    if known values = before then values else settle outlines rounds values

/-- The settled values, and all others unfolded to the given number of levels. -/
def unfold (outlines : Array (Option Outline)) (settled : Values) : Nat → Values
  | 0 => settled.map fun v => some (v.getD .endless)
  | levels + 1 =>
    let below := unfold outlines settled levels
    settled.mapIdx fun id v =>
      match v with
      | some v => some v
      | none => at? outlines below id

/-- How many levels a value is unfolded that contains itself. -/
def unfolding : Nat := 1000

end Values

/-- The value of a node, given all outlines. -/
def valueOf (outlines : Array (Option Outline)) (root : NodeId) : Value :=
  let nothing : Values := Array.replicate outlines.size none
  let settled := Values.settle outlines (outlines.size + 1) nothing
  match settled.getD root none with
  | some value => value
  | none => ((Values.unfold outlines settled Values.unfolding).getD root none).getD .endless

/-- The value of a document. -/
def read (t : Text) : Except Failure Value := do
  let (graph, root) ← Graph.ofTokens (Tokens.ofText t)
  return valueOf (← graph.outlines root) root

end Dotfiles.Yaml
