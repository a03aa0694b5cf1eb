import Dotfiles.Profile.Declaration

/-!
Resolving a profile: inheriting attributes down the tree of components. A node
without a source of its own continues its parent's source by its name; method and
recursion come from the nearest declaration; globs add up from the root down.
-/

namespace Dotfiles

/-- A target with all of its attributes settled. -/
structure Entry where
  target : Path
  source : Path
  method : Method
  recursive : Bool
  ignore : GlobList
  deriving DecidableEq, Repr

namespace ProfileTree

/-- The attributes of a node inside its parent's, apart from the source. -/
def inherit (parent own : Attributes) (source : Option Path) : Attributes where
  source := source
  method := own.method.or parent.method
  recursive := own.recursive.or parent.recursive
  ignore := some (parent.globs.union own.globs)

/-- The source of a node below another one: its own, or else its parent's continued by
its name. -/
def sourceBelow (above : Option Path) (name : Name) (own : Option Path) : Traced (Option Path) :=
  match own, above with
  | some source, _ => pure (some source)
  | none, some path => some <$> Traced.join [path, name]
  | none, none => pure none

/-- Whether a target with these attributes is made in one piece, so that nothing can be
declared below it: a link or a template that is not expanded. -/
def isSealed (a : Attributes) : Bool :=
  (a.method = some .link || a.method = some .template) && a.recursive ≠ some true

/-- The entry of a node with settled attributes, if it has a source. -/
def entryOf? (target : Path) (a : Attributes) : Option Entry :=
  a.source.map fun source =>
    { target := target
      source := source
      method := a.method.getD .copy
      recursive := a.recursive.getD false
      ignore := a.globs }

mutual

/-- The entries at and below a node, those below it first. `target` and `source` are
its own, after inheritance. -/
def resolveAt (parent : Attributes) (target : Path) (source : Option Path) :
    ProfileTree → Traced (List Entry)
  | .node own children => do
    let settled := inherit parent own source
    if isSealed settled && !children.isEmpty then Traced.fail (.unexpectedChildren target)
    Traced.emit (.resolving target source)
    let below ← resolveChildren settled target children
    match entryOf? target settled with
    | some entry => return below ++ [entry]
    | none => do
      Traced.emit (.dropped target)
      return below

/-- The entries at and below the children of a node, whose settled attributes and
target are given. -/
def resolveChildren (parent : Attributes) (place : Path) :
    List (Name × ProfileTree) → Traced (List Entry)
  | [] => pure []
  | (name, child) :: rest => do
    let target ← Traced.join [place, name]
    let source ← sourceBelow parent.source name child.attributes.source
    let first ← resolveAt parent target source child
    let others ← resolveChildren parent place rest
    return first ++ others

end

/-- The entries of a tree keyed by components, in the order of their targets. -/
def resolve (tree : ProfileTree) : Traced (List Entry) := do
  let entries ← resolveAt Attributes.empty [] tree.attributes.source tree
  return Path.sortOn Entry.target entries

end ProfileTree

/-- The entries of a profile, in the order of their targets. -/
def Profile.entries (profile : Profile) : Traced (List Entry) :=
  profile.declarations.byComponent.resolve

end Dotfiles
