import Dotfiles.FileTree.Basic

/-!
Finding the node a path names. A path is resolved one component at a time from
the root; a link is followed from the directory that holds it, at the end of a
path only on request. The answer is a location: the names that lead from the
root to the node without passing a link.
-/

namespace Dotfiles

/-- Why a file call fails. -/
inductive Errno where
  | noEntry
  | ioFault
  | denied
  | notDirectory
  | isDirectory
  | invalid
  | nameTooLong
  | linkLoop
  deriving DecidableEq, Repr

/-- The number of a failure. -/
def Errno.number : Errno → Nat
  | .noEntry => 2
  | .ioFault => 5
  | .denied => 13
  | .notDirectory => 20
  | .isDirectory => 21
  | .invalid => 22
  | .nameTooLong => 36
  | .linkLoop => 40

/-- The wording of a failure. -/
def Errno.message : Errno → String
  | .noEntry => "No such file or directory"
  | .ioFault => "Input/output error"
  | .denied => "Permission denied"
  | .notDirectory => "Not a directory"
  | .isDirectory => "Is a directory"
  | .invalid => "Invalid argument"
  | .nameTooLong => "File name too long"
  | .linkLoop => "Too many levels of symbolic links"

/-- The names from the root of a tree to one of its nodes. -/
abbrev Location := List Name

namespace FileTree

/-- Follows names downwards from a location. Two dots lead to the directory above, at
the root nowhere. A link, unless it is the last name and `follow` is false, hands the
names that are left to `jump`, behind those of the link's own destination. -/
def descend (root : FileTree) (follow : Bool)
    (jump : Location → List Name → Except Errno Location) :
    Location → List Name → Except Errno Location
  | here, [] => .ok here
  | here, name :: rest =>
    match root.at? here with
    | some (.dir entries) =>
      if name = ['.'] then descend root follow jump here rest
      else if name = ['.', '.'] then descend root follow jump here.dropLast rest
      else
        match entryOf name entries with
        | none => .error .noEntry
        | some (.link destination) =>
          if rest.isEmpty && !follow then .ok (here ++ [name])
          else if destination.isEmpty then .error .noEntry
          else
            jump (if Path.isRooted destination then [] else here)
              (Path.components destination ++ rest)
        | some _ => descend root follow jump (here ++ [name]) rest
    | _ => .error .notDirectory

/-- Follows names from a location across at most the given number of links. -/
def walk (root : FileTree) (follow : Bool) : Nat → Location → List Name → Except Errno Location
  | 0 => descend root follow fun _ _ => .error .linkLoop
  | links + 1 => descend root follow (walk root follow links)

/-- The number of links that one lookup follows at most. -/
def linkLimit : Nat := 40

/-- The location a path names. Relative paths start at the root, which is the working
directory; the empty path names nothing. -/
def locate (root : FileTree) (follow : Bool) (p : Path) : Except Errno Location :=
  if p.isEmpty then .error .noEntry else walk root follow linkLimit [] (Path.components p)

/-- The node a path names. -/
def find (root : FileTree) (follow : Bool) (p : Path) : Except Errno FileTree := do
  let location ← locate root follow p
  match root.at? location with
  | some node => .ok node
  | none => .error .noEntry

end FileTree

end Dotfiles
