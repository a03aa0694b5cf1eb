import Dotfiles.FileTree.FileSystem
import Dotfiles.Proofs.Except

/-!
What files hold, apart from where they are. No lookup depends on it, so changing the content
of every file changes what is read, and nothing else.
-/

namespace Dotfiles

namespace FileTree

mutual

/-- The tree with the content of every file changed. -/
def mapContents (change : Content → Content) : FileTree → FileTree
  | .file content => .file (change content)
  | .link destination => .link destination
  | .dir entries => .dir (mapEntries change entries)

/-- The entries of a directory with the content of every file changed. -/
def mapEntries (change : Content → Content) : List (Name × FileTree) → List (Name × FileTree)
  | [] => []
  | (name, node) :: rest => (name, mapContents change node) :: mapEntries change rest

end

variable {change : Content → Content} {root : FileTree}

theorem entryOf_mapEntries (name : Name) (entries : List (Name × FileTree)) :
    entryOf name (mapEntries change entries) = (entryOf name entries).map (mapContents change) := by
  induction entries with
  | nil => rfl
  | cons entry rest ih =>
    rw [mapEntries, entryOf, entryOf]
    split
    · rfl
    · exact ih

theorem at?_mapContents (names : List Name) (node : FileTree) :
    (node.mapContents change).at? names = (node.at? names).map (mapContents change) := by
  induction names generalizing node with
  | nil => rfl
  | cons name rest ih =>
    cases node with
    | dir entries =>
      rw [mapContents, at?, at?, child?, child?, entryOf_mapEntries]
      cases entryOf name entries with
      | none => rfl
      | some child => exact ih child
    | _ => rfl

/-- A lookup takes the same way whatever files hold. -/
theorem descend_mapContents (follow : Bool) (jump : Location → List Name → Except Errno Location)
    (here : Location) (names : List Name) :
    descend (root.mapContents change) follow jump here names =
      descend root follow jump here names := by
  induction names generalizing here with
  | nil => rfl
  | cons name rest ih =>
    rw [descend, descend, at?_mapContents]
    cases root.at? here with
    | none => rfl
    | some node =>
      cases node with
      | dir entries =>
        simp only [Option.map_some, mapContents, entryOf_mapEntries, ih]
        cases entryOf name entries with
        | none => rfl
        | some child => cases child <;> rfl
      | _ => rfl

theorem walk_mapContents (follow : Bool) (links : Nat) :
    walk (root.mapContents change) follow links = walk root follow links := by
  induction links with
  | zero =>
    funext here names
    exact descend_mapContents follow _ here names
  | succ links ih =>
    funext here names
    rw [walk, walk, ih]
    exact descend_mapContents follow _ here names

theorem find_mapContents (follow : Bool) (p : Path) :
    (root.mapContents change).find follow p = mapContents change <$> root.find follow p := by
  rw [find, find, locate, locate, walk_mapContents]
  split
  · rfl
  · cases walk root follow linkLimit [] (Path.components p) with
    | error e => rfl
    | ok location =>
      simp only [Except.ok_bind, at?_mapContents]
      cases root.at? location <;> rfl

end FileTree

/-- What is read from a file is its content, changed. -/
theorem FileSystem.read_mapContents (change : Content → Content) (fs : FileSystem) (p : Path) :
    FileSystem.read ⟨fs.root.mapContents change, fs.faults⟩ p = change <$> fs.read p := by
  rw [read, read, FileTree.find_mapContents, check, check]
  cases fs.faults.find? fun f => f.call = .read && f.path = p with
  | some fault => rfl
  | none =>
    cases fs.root.find true p with
    | error e => rfl
    | ok node => cases node <;> rfl

end Dotfiles
