import Dotfiles.Yaml.Graph
import Dotfiles.Yaml.Failure

/-!
Merge keys. A mapping takes in the fields of the mappings that stand at its merge keys, in
front of its own, so that its own values win. Of several mappings in a list the first
wins.
-/

namespace Dotfiles.Yaml

/-- A step that may change the nodes of a document. -/
abbrev Rework := StateT Graph (Except Failure)

namespace Graph

/-- The value of the first merge key among some keys and values, and the others. -/
def takeMerge? (g : Graph) :
    List (NodeId × NodeId) → Option (NodeId × List (NodeId × NodeId))
  | [] => none
  | (key, value) :: rest =>
    if (g.node key).kind = .merge then some (value, rest)
    else (takeMerge? g rest).map fun (v, others) => (v, (key, value) :: others)

/-- The number of keys of all mappings. -/
def keyCount (g : Graph) : Nat := g.nodes.foldl (fun n node => n + node.pairs.length) 0

/-- The graph in which equals signs that are keys of a mapping are text. -/
def textKeys (g : Graph) (pairs : List (NodeId × NodeId)) : Graph :=
  pairs.foldl (fun g (key, _) =>
    let node := g.node key
    if node.kind = .equals then g.set key (node.withKind .text) else g) g

/-- The graph with other keys and values for a mapping. -/
def setPairs (g : Graph) (id : NodeId) (pairs : List (NodeId × NodeId)) : Graph :=
  g.set id (.map (g.node id).kind pairs)

end Graph

namespace Rework

/-- The keys and values of a mapping that is given for a merge, once they are complete. -/
def taken (resolve : NodeId → Rework Unit) (id : NodeId) : Rework (List (NodeId × NodeId)) := do
  match (← get).node id with
  | .map .. => do
    resolve id
    return ((← get).node id).pairs
  | _ => throw .invalid

/-- The keys and values that the value of a merge key gives. -/
def given (resolve : NodeId → Rework Unit) (value : NodeId) :
    Rework (List (NodeId × NodeId)) := do
  match (← get).node value with
  | .list _ items => do
    let found ← items.mapM (taken resolve)
    return found.reverse.flatten
  | _ => taken resolve value

/-- Takes in what a mapping merges, after what it has taken in already. A merge key is
gone before its value is looked at, so that a mapping may even merge itself, and so that
every step leaves one merge key less: their number bounds the depth. -/
def resolve : Nat → List (NodeId × NodeId) → NodeId → Rework Unit
  | 0, _, _ => throw .tooDeep
  | limit + 1, merged, id => do
    let g ← get
    let pairs := (g.node id).pairs
    match g.takeMerge? pairs with
    | none => set ((g.textKeys pairs).setPairs id (merged ++ pairs))
    | some (value, others) => do
      set (g.setPairs id others)
      let more ← given (resolve limit []) value
      resolve limit (merged ++ more) id

end Rework

end Dotfiles.Yaml
