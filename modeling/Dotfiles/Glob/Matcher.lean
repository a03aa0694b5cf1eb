import Dotfiles.Glob.Alternates
import Dotfiles.Glob.Rule
import Dotfiles.Value.Written

/-!
Lists of globs and the matchers compiled from them. Every glob of a list is an
alternative of its own: a name matches as soon as one of them matches it.
-/

namespace Dotfiles

/-- An ordered list of globs that are not compiled yet. -/
structure GlobList where
  globs : List Text
  deriving DecidableEq, Repr

namespace GlobList

/-- Why a value is no list of globs. -/
inductive Fault where
  /-- An item that is not a text, with the name of its type. -/
  | itemNotText (typeName : String)
  /-- A value without items, with the name of its type. -/
  | notIterable (typeName : String)
  deriving DecidableEq, Repr

/-- The message for a value that is no list of globs. -/
def Fault.message : Fault → String
  | .itemNotText typeName => "a glob pattern must be a string, not " ++ typeName
  | .notIterable typeName => "'" ++ typeName ++ "' object is not iterable"

/-- The list without globs. -/
def empty : GlobList := ⟨[]⟩

/-- A single item of a list of globs. -/
def globOfValue : Value → Except Fault Text
  | .scalar (.text t) => .ok t
  | v => .error (.itemNotText v.typeName)

/-- The globs that a value stands for: a text is a single one, a list, a pair or a set
holds them, and of a mapping they are the keys. Bytes hold numbers. -/
def ofValue : Value → Except Fault GlobList
  | .scalar (.text t) => .ok ⟨[t]⟩
  | .list items => do return ⟨← items.mapM globOfValue⟩
  | .map fields => do return ⟨← fields.mapM fun (k, _) => globOfValue (.scalar k)⟩
  | .set members => do return ⟨← members.mapM fun s => globOfValue (.scalar s)⟩
  | .pair a b => do return ⟨← [a, b].mapM globOfValue⟩
  | .scalar (.bytes data) => do
    return ⟨← data.mapM fun b => globOfValue (.scalar (.int b.toNat))⟩
  | v => .error (.notIterable v.typeName)

/-- Whether the list holds no glob. -/
def isEmpty (l : GlobList) : Bool := l.globs.isEmpty

/-- The globs of both lists, the first list's before the second's. -/
def union (a b : GlobList) : GlobList := ⟨a.globs ++ b.globs⟩

end GlobList

/-- The rules that a list of globs compiles to, with the globs. -/
structure Matcher where
  globs : List Text
  rules : List Glob.Rule
  deriving DecidableEq, Repr

namespace Glob

/-- The line of an ignore file that says no more than the given glob: a mark at its
start is escaped, so that it is neither a comment nor takes names back. -/
def literalLine (glob : Text) : Text :=
  match Text.stripLeft glob with
  | '!' :: rest => '\\' :: '!' :: rest
  | '#' :: rest => '\\' :: '#' :: rest
  | _ => glob

/-- The lines that a list of globs becomes. Every glob is expanded before any line
is compiled. -/
def lines (globs : List Text) : Except Failure (List Text) := do
  let expanded ← globs.mapM alternates
  return expanded.flatten.map literalLine

/-- The name that rules are matched against: one slash at its start, or else a dot
with a slash, is dropped. -/
def bareName : Text → Text
  | '/' :: rest => rest
  | '.' :: '/' :: rest => rest
  | name => name

end Glob

/-- The matcher of the globs, or the first failure among them. -/
def GlobList.compile (l : GlobList) : Except Glob.Failure Matcher := do
  let lines ← Glob.lines l.globs
  let rules ← (lines.filter fun line => !line.isEmpty).mapM Glob.Rule.ofLine
  return ⟨l.globs, rules.filterMap id⟩

/-- Whether a name is ignored. Of all rules that match it the last one decides. -/
def Matcher.isMatch (m : Matcher) (name : Text) : Bool :=
  let name := Glob.bareName name
  m.rules.foldl (fun ignored rule => if rule.isMatch name then rule.ignores else ignored) false

/-- The matcher in a message: its globs, quoted. -/
def Matcher.shown (m : Matcher) : Text :=
  "Matcher(".toList ++ Text.quotedList m.globs ++ [')']

end Dotfiles
