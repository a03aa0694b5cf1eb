import Dotfiles.Profile.Resolution
import Dotfiles.World

/-!
Expanding an entry over the source tree. A link is replaced by what it points to,
one hop and no further. A directory is descended into if the entry is expanded, and
every name in it that is not ignored is visited in turn; everything else is recorded
as it is. A target that the table holds already is left alone.
-/

namespace Dotfiles

/-- What is to be done for one target. -/
structure Action where
  source : Path
  method : Method
  deriving DecidableEq, Repr

/-- The compiled table: an action for each target, in the order they were recorded. -/
abbrev Table := List (Path × Action)

/-- Whether the table holds a target. -/
def Table.holds (table : Table) (target : Path) : Bool := table.any fun (t, _) => t = target

/-- The action recorded for a target. -/
def Table.action? (table : Table) (target : Path) : Option Action := table.lookup target

namespace Expansion

/-- The source that stands in for a link, with its kind; every other source stands for
itself. The destination of a link is read from the directory that holds it. -/
def oneHop (fs : FileSystem) (source : Path) : Traced (Path × NodeKind) := do
  match ← Traced.call .inspect source (fs.inspect source) with
  | .link => do
    let destination ← Traced.call .readLink source (fs.readLink source)
    let resolved ← Traced.join [Path.parent source, destination]
    Traced.emit (.followedLink source resolved)
    let kind ← Traced.call .inspect resolved (fs.inspect resolved)
    if kind = .link then Traced.emit (.secondLink resolved)
    return (resolved, kind)
  | kind => return (source, kind)

/-- The matcher of an entry's ignore list. -/
def matcherOf (entry : Entry) : Traced Matcher := do
  if !entry.ignore.isEmpty then Traced.emit (.compilingGlobs entry.ignore.globs)
  match entry.ignore.compile with
  | .ok matcher => return matcher
  | .error (.malformed defect glob) =>
    Traced.fail (.badIgnoreList entry.target entry.ignore.globs defect glob)
  | .error .reversedRange => Traced.fail .reversedRange

/-- The table with an action recorded at its end. -/
def record (entry : Entry) (target source : Path) (table : Table) : Traced Table := do
  Traced.emit (.recorded entry.method target source)
  return table ++ [(target, ⟨source, entry.method⟩)]

/-- Whether directories are expanded for an entry. Copies always are. -/
def isExpanded (entry : Entry) : Bool := entry.recursive || entry.method = .copy

/-- Visits the names of a directory that are not ignored, one after another. -/
def visitNames (visit : Path → Path → Table → Traced Table) (matcher : Matcher)
    (target source : Path) : List Name → Table → Traced Table
  | [], table => pure table
  | name :: rest, table =>
    if matcher.isMatch name then do
      Traced.emit (.ignoring (← Traced.join [source, name]))
      visitNames visit matcher target source rest table
    else do
      let nextTarget ← Traced.join [target, name]
      let nextSource ← Traced.join [source, name]
      let table ← visit nextTarget nextSource table
      visitNames visit matcher target source rest table

/-- The table with everything that an entry reaches from a target and a source, at most
the given number of levels deep. -/
def visit (fs : FileSystem) (entry : Entry) : Nat → Path → Path → Table → Traced Table
  | 0, _, _, _ => Traced.fail .tooDeep
  | depth + 1, target, source, table =>
    if table.holds target then do
      Traced.emit (.skipping target)
      return table
    else do
      let (source, kind) ← oneHop fs source
      match kind, isExpanded entry with
      | .dir, true => do
        let matcher ← matcherOf entry
        let names ← Traced.call .list source (fs.list source)
        visitNames (visit fs entry depth) matcher target source names table
      | .dir, false =>
        if entry.method = .template then Traced.fail (.templateIsDirectory source)
        else record entry target source table
      | _, _ => record entry target source table

/-- How deep an expansion goes at most. Without links it cannot go deeper than the tree
is high; links may lead back upwards and make it longer, but not for ever. -/
def depthLimit (fs : FileSystem) : Nat := fs.root.height + 1000

end Expansion

end Dotfiles
