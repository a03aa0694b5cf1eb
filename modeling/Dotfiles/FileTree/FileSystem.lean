import Dotfiles.FileTree.Lookup
import Dotfiles.Text.Ranges

/-!
File systems: a tree together with the calls on it that fail for a reason of
their own. None of the calls changes anything. Not every text can be handed to the
system as a path; a call with one that cannot fails before the system sees it.
-/

namespace Dotfiles

/-- Why a text cannot be handed to the system as a path. -/
inductive Path.Defect where
  /-- It has no encoding. -/
  | unencodable
  /-- It holds the null character, at which a path would end. -/
  | holdsNull
  deriving DecidableEq, Repr

/-- What keeps a path from being handed to the system. It is encoded first. -/
def Path.defect? (p : Path) : Option Path.Defect :=
  if p.any Text.isUnencodable then some .unencodable
  else if p.contains '\x00' then some .holdsNull
  else none

example : Path.defect? "a\x00b".toList = some .holdsNull := by decide
example : Path.defect? ['\x00', Text.halfPair 0xd83d] = some .unencodable := by decide

/-- The calls that can be made to fail. -/
inductive FileCall where
  /-- What kind of node a path names, links not followed. -/
  | inspect
  /-- The destination of a link. -/
  | readLink
  /-- The names in a directory. -/
  | list
  /-- The content of a file. -/
  | read
  deriving DecidableEq, Repr

/-- A call on exactly the given path fails. -/
structure FileFault where
  call : FileCall
  path : Path
  errno : Errno
  deriving DecidableEq, Repr

/-- Why a file call gives no answer. -/
inductive CallFailure where
  /-- The system refuses it. -/
  | refused (errno : Errno)
  /-- The path does not come as far as the system. -/
  | unusable (defect : Path.Defect)
  deriving DecidableEq, Repr

/-- The failure of a call on a path that the system refuses, or would refuse. -/
def CallFailure.of (p : Path) (errno : Errno) : CallFailure :=
  match p.defect? with
  | some defect => .unusable defect
  | none => .refused errno

/-- A tree and the faults of the device it is on. -/
structure FileSystem where
  root : FileTree
  faults : List FileFault

/-- The kinds of nodes. -/
inductive NodeKind where
  | file
  | link
  | dir
  deriving DecidableEq, Repr

/-- The kind of a node. -/
def FileTree.kind : FileTree → NodeKind
  | .file _ => .file
  | .link _ => .link
  | .dir _ => .dir

namespace FileSystem

/-- The file system that holds nothing. -/
def empty : FileSystem := ⟨.dir [], []⟩

/-- Fails where a fault is recorded for the call on the path. -/
def check (fs : FileSystem) (call : FileCall) (p : Path) : Except Errno Unit :=
  match fs.faults.find? fun f => f.call = call && f.path = p with
  | some fault => .error fault.errno
  | none => .ok ()

/-- The answer to a call on a path. No name that a file system holds keeps a path from
being handed over, so a path with a defect is never found; the call fails for the defect
then, whatever the lookup fails for. -/
def answer {α : Type} (p : Path) (found : Except Errno α) : Except CallFailure α :=
  found.mapError (CallFailure.of p)

/-- The kind of the node a path names, a link at its end not followed. -/
def inspect (fs : FileSystem) (p : Path) : Except CallFailure NodeKind := answer p do
  fs.check .inspect p
  return (← fs.root.find false p).kind

/-- The destination of the link a path names. -/
def readLink (fs : FileSystem) (p : Path) : Except CallFailure Path := answer p do
  fs.check .readLink p
  match ← fs.root.find false p with
  | .link destination => return destination
  | _ => .error .invalid

/-- The names in the directory a path names, in code point order. -/
def list (fs : FileSystem) (p : Path) : Except CallFailure (List Name) := answer p do
  fs.check .list p
  match ← fs.root.find true p with
  | .dir entries => return FileTree.namesOf entries
  | _ => .error .notDirectory

/-- The content of the file a path names. -/
def read (fs : FileSystem) (p : Path) : Except CallFailure Content := answer p do
  fs.check .read p
  match ← fs.root.find true p with
  | .file content => return content
  | .dir _ => .error .isDirectory
  | .link _ => .error .linkLoop

/-- Whether a path names a node, links followed. No fault applies. -/
def contains (fs : FileSystem) (p : Path) : Bool :=
  match fs.root.find true p with
  | .ok _ => true
  | .error _ => false

/-- Whether a path names a directory, links followed. No fault applies. -/
def isDirectory (fs : FileSystem) (p : Path) : Bool :=
  match fs.root.find true p with
  | .ok (.dir _) => true
  | _ => false

end FileSystem

end Dotfiles
