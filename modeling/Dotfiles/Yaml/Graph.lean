import Dotfiles.Yaml.Kind

/-!
The nodes of a document: scalars, lists and mappings, each with its kind. Nodes refer to
one another by number, because an alias stands for the very node at its anchor, and that
node may be one that the alias is a part of.
-/

namespace Dotfiles.Yaml

/-- The number of a node. Nodes are numbered in the order in which they begin. -/
abbrev NodeId := Nat

/-- A node of a document. -/
inductive Node where
  | scalar (kind : Kind) (text : Text)
  | list (kind : Kind) (items : List NodeId)
  | map (kind : Kind) (pairs : List (NodeId × NodeId))
  deriving DecidableEq, Repr

namespace Node

/-- The node of a value that is left out. -/
def absent : Node := .scalar .null []

/-- What a node is to be read as. -/
def kind : Node → Kind
  | .scalar kind _ => kind
  | .list kind _ => kind
  | .map kind _ => kind

/-- The node with another kind. -/
def withKind (kind : Kind) : Node → Node
  | .scalar _ text => .scalar kind text
  | .list _ items => .list kind items
  | .map _ pairs => .map kind pairs

/-- The keys and values of a mapping; other nodes have none. -/
def pairs : Node → List (NodeId × NodeId)
  | .map _ pairs => pairs
  | _ => []

end Node

/-- The nodes of a document by their numbers. -/
structure Graph where
  nodes : Array Node

namespace Graph

/-- The graph without nodes. -/
def empty : Graph := ⟨#[]⟩

/-- The number of nodes. -/
def size (g : Graph) : Nat := g.nodes.size

/-- The node with a number. -/
def node (g : Graph) (id : NodeId) : Node := g.nodes.getD id .absent

/-- The graph with one more node, whose number is that of the nodes before. -/
def push (g : Graph) (node : Node) : Graph := ⟨g.nodes.push node⟩

/-- The graph with another node in the place of one. -/
def set (g : Graph) (id : NodeId) (node : Node) : Graph := ⟨g.nodes.setIfInBounds id node⟩

/-- A node that has been put into the graph is found there. -/
theorem node_set_self (g : Graph) (id : NodeId) (node : Node) (h : id < g.size) :
    (g.set id node).node id = node := by
  simp only [Graph.node, Graph.set, Graph.size] at *
  simp [h]

/-- All other nodes stay as they are. -/
theorem node_set_ne (g : Graph) (id other : NodeId) (node : Node) (h : other ≠ id) :
    (g.set id node).node other = g.node other := by
  simp only [Graph.node, Graph.set, Array.getD_eq_getD_getElem?,
    Array.getElem?_setIfInBounds_ne (Ne.symm h)]

end Graph

end Dotfiles.Yaml
