import Dotfiles.Path.Basic
import Dotfiles.Value.Basic

/-!
File trees: directories with named entries, symbolic links, and files. Nothing
here follows a link; that is the business of a lookup.
-/

namespace Dotfiles

/-- What a file holds: bytes that are still to be read, or the outcome of reading it
as a document, which is a value or the reason why there is none. -/
inductive Content where
  | bytes (data : List UInt8)
  | document (outcome : Except Text Value)

/-- A file tree. -/
inductive FileTree where
  | file (content : Content)
  | link (destination : Path)
  | dir (entries : List (Name × FileTree))

namespace FileTree

/-- The entry of a name, the first one if there are several. -/
def entryOf (name : Name) : List (Name × FileTree) → Option FileTree
  | [] => none
  | (n, node) :: rest => if n = name then some node else entryOf name rest

/-- The entries with a node under a name, in place of the one that was there. -/
def setEntry (name : Name) (node : FileTree) : List (Name × FileTree) → List (Name × FileTree)
  | [] => [(name, node)]
  | (n, old) :: rest => if n = name then (n, node) :: rest else (n, old) :: setEntry name node rest

@[simp] theorem entryOf_setEntry_self (name : Name) (node : FileTree)
    (entries : List (Name × FileTree)) : entryOf name (setEntry name node entries) = some node := by
  induction entries with
  | nil => simp [setEntry, entryOf]
  | cons e rest ih => by_cases h : e.1 = name <;> simp [setEntry, entryOf, h, ih]

theorem entryOf_setEntry_ne {name other : Name} (h : other ≠ name) (node : FileTree)
    (entries : List (Name × FileTree)) :
    entryOf other (setEntry name node entries) = entryOf other entries := by
  induction entries with
  | nil => simp [setEntry, entryOf, Ne.symm h]
  | cons e rest ih =>
    by_cases he : e.1 = name
    · simp [setEntry, entryOf, he, Ne.symm h]
    · by_cases ho : e.1 = other
      · simp [setEntry, entryOf, ho, h]
      · simp [setEntry, entryOf, he, ho, ih]

/-- The node below another one under a name. -/
def child? (name : Name) : FileTree → Option FileTree
  | .dir entries => entryOf name entries
  | _ => none

/-- The node at the end of a sequence of names. -/
def at? : List Name → FileTree → Option FileTree
  | [], node => some node
  | name :: rest, node => (node.child? name).bind (at? rest)

/-- A sequence of names leads where its parts lead one after the other. -/
theorem at?_append (p q : List Name) (node : FileTree) :
    at? (p ++ q) node = (at? p node).bind (at? q) := by
  induction p generalizing node with
  | nil => simp [at?]
  | cons name rest ih =>
    cases hc : node.child? name with
    | none => simp [at?, hc]
    | some child => simp [at?, hc, ih]

/-- The names in a directory, each once, in code point order. -/
def namesOf (entries : List (Name × FileTree)) : List Name :=
  Text.sort (entries.map (·.1)).eraseDups

/-- The tree with a node at a place, the directories above it created where there
are none. A directory changes nothing where a node is already. -/
def place (node : FileTree) : List Name → Option FileTree → FileTree
  | [], none => node
  | [], some old =>
    match node with
    | .dir _ => old
    | _ => node
  | name :: rest, old =>
    let entries :=
      match old with
      | some (.dir entries) => entries
      | _ => []
    .dir (setEntry name (place node rest (entryOf name entries)) entries)

mutual

/-- The greatest number of names between the root of a tree and one of its nodes. -/
def height : FileTree → Nat
  | .file _ => 0
  | .link _ => 0
  | .dir entries => heights entries

/-- One more than the greatest height among the entries of a directory. -/
def heights : List (Name × FileTree) → Nat
  | [] => 0
  | (_, node) :: rest => Nat.max (node.height + 1) (heights rest)

end

theorem height_entryOf_lt {name : Name} {node : FileTree} {entries : List (Name × FileTree)}
    (h : entryOf name entries = some node) : node.height < height (.dir entries) := by
  induction entries with
  | nil => simp [entryOf] at h
  | cons e rest ih =>
    obtain ⟨n, other⟩ := e
    simp only [entryOf] at h
    simp only [height, heights] at ih ⊢
    split at h
    · simp only [Option.some.injEq] at h
      subst h
      exact Nat.lt_of_lt_of_le (Nat.lt_succ_self _) (Nat.le_max_left _ _)
    · exact Nat.lt_of_lt_of_le (ih h) (Nat.le_max_right _ _)

end FileTree

end Dotfiles
