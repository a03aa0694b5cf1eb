import Dotfiles.Profile.Attributes

/-!
Trees of attributes. The same type serves for the declarations of a profile, whose
keys are paths as they were written, and for the tree of components that they are
gathered into, whose keys are single names.
-/

namespace Dotfiles

/-- A tree with attributes at every node. -/
inductive ProfileTree where
  | node (attributes : Attributes) (children : List (Text × ProfileTree))
  deriving Repr

namespace ProfileTree

/-- The attributes at the root of a tree. -/
def attributes : ProfileTree → Attributes
  | .node attributes _ => attributes

/-- The subtrees below the root, with their keys. -/
def children : ProfileTree → List (Text × ProfileTree)
  | .node _ children => children

/-- The tree that declares nothing. -/
def empty : ProfileTree := .node Attributes.empty []

/-- The subtree of a key. -/
def childOf (key : Text) : List (Text × ProfileTree) → Option ProfileTree
  | [] => none
  | (k, tree) :: rest => if k = key then some tree else childOf key rest

/-- The children with a subtree under a key. A key that is there already keeps its
place; a new one goes to the end. -/
def setChild (key : Text) (tree : ProfileTree) :
    List (Text × ProfileTree) → List (Text × ProfileTree)
  | [] => [(key, tree)]
  | (k, old) :: rest =>
    if k = key then (k, tree) :: rest else (k, old) :: setChild key tree rest

@[simp] theorem childOf_setChild_self (key : Text) (tree : ProfileTree)
    (children : List (Text × ProfileTree)) :
    childOf key (setChild key tree children) = some tree := by
  induction children with
  | nil => simp [setChild, childOf]
  | cons c rest ih => by_cases h : c.1 = key <;> simp [setChild, childOf, h, ih]

theorem childOf_setChild_ne {key other : Text} (h : other ≠ key) (tree : ProfileTree)
    (children : List (Text × ProfileTree)) :
    childOf other (setChild key tree children) = childOf other children := by
  induction children with
  | nil => simp [setChild, childOf, Ne.symm h]
  | cons c rest ih =>
    by_cases hc : c.1 = key
    · simp [setChild, childOf, hc, Ne.symm h]
    · by_cases ho : c.1 = other
      · simp [setChild, childOf, ho, h]
      · simp [setChild, childOf, hc, ho, ih]

mutual

/-- The tree with another one declared at the same place. -/
def merge (into : ProfileTree) : ProfileTree → ProfileTree
  | .node attributes children =>
    .node (into.attributes.merge attributes) (mergeChildren into.children children)

/-- The children with further ones, of which those with a key that is there already
are merged into the subtree under it. -/
def mergeChildren (into : List (Text × ProfileTree)) :
    List (Text × ProfileTree) → List (Text × ProfileTree)
  | [] => into
  | (key, child) :: rest =>
    match childOf key into with
    | some old => mergeChildren (setChild key (merge old child) into) rest
    | none => mergeChildren (into ++ [(key, child)]) rest

end

/-- The tree with attributes declared at the end of a sequence of names, the nodes on
the way created where there are none. -/
def declare (attributes : Attributes) : List Name → ProfileTree → ProfileTree
  | [], .node own children => .node (own.merge attributes) children
  | name :: rest, .node own children =>
    .node own (setChild name (declare attributes rest ((childOf name children).getD empty)) children)

mutual

/-- Every node of a tree below the given names, with the names of its own and its
attributes, depth first. A key with several components adds all of them. -/
def flatten (place : List Name) : ProfileTree → List (List Name × Attributes)
  | .node attributes children => (place, attributes) :: flattenChildren place children

/-- Every node of the given subtrees. -/
def flattenChildren (place : List Name) :
    List (Text × ProfileTree) → List (List Name × Attributes)
  | [] => []
  | (key, child) :: rest =>
    flatten (place ++ Path.components key) child ++ flattenChildren place rest

end

/-- The tree keyed by single components that holds the same declarations. What is
declared in several places for the same target comes together at one node. -/
def byComponent (tree : ProfileTree) : ProfileTree :=
  (flatten [] tree).foldl (fun gathered (place, attributes) => declare attributes place gathered)
    empty

end ProfileTree

end Dotfiles
