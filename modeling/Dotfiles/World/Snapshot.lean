import Dotfiles.Text.Digit
import Dotfiles.World

/-!
The surroundings of a run written down as text, one fact a line: a letter and its
fields, with a tab between them. A path or value that holds a tab or a line feed cannot
be written so.

* `d` and a path: a directory.
* `f` and a path: a file.
* `l`, a path and a destination: a symbolic link.
* `e`, a name and a value: an environment variable.
* `u`, a name, a number and a path: a user with a home directory.
* `i` and a number: the user the program runs as.

Fields beyond these do not matter, and neither do lines of any other kind.
-/

namespace Dotfiles.World

/-- A fact about the surroundings of a run. -/
inductive Fact where
  | node (path : Path) (node : FileTree)
  /-- A call on a path fails. -/
  | fault (f : FileFault)
  | environment (name value : Text)
  | user (u : User)
  | self (uid : Int)

/-- The fact that a line states. A file is stated without its content. -/
def Fact.ofLine? (line : Text) : Option Fact :=
  match Text.split '\t' line with
  | ['d'] :: path :: _ => some (.node path (.dir []))
  | ['f'] :: path :: _ => some (.node path (.file (.bytes [])))
  | ['l'] :: path :: destination :: _ => some (.node path (.link destination))
  | ['e'] :: name :: value :: _ => some (.environment name value)
  | ['u'] :: name :: uid :: home :: _ =>
    (Text.readInt? uid).map fun uid => .user ⟨name, uid, home⟩
  | ['i'] :: uid :: _ => (Text.readInt? uid).map .self
  | _ => none

example : Fact.ofLine? "e\tHOME\t/home/me".toList =
    some (.environment "HOME".toList "/home/me".toList) := rfl
example : Fact.ofLine? "l\t/a\tb/c\t".toList = some (.node "/a".toList (.link "b/c".toList)) := rfl
example : Fact.ofLine? "a note".toList = none := rfl

/-- Surroundings that hold nothing. -/
def empty : World := ⟨FileSystem.empty, [], [], 0, .posix⟩

/-- The surroundings with one more node, in place of a file or link with the same path. -/
def place (w : World) (path : Path) (node : FileTree) : World :=
  let root := FileTree.place node (Path.components path) (some w.files.root)
  { w with files := { w.files with root := root } }

/-- The surroundings with one more fact. -/
def add (w : World) : Fact → World
  | .node path node => w.place path node
  | .fault f => { w with files := { w.files with faults := w.files.faults ++ [f] } }
  | .environment name value => { w with environment := w.environment ++ [(name, value)] }
  | .user u => { w with users := w.users ++ [u] }
  | .self uid => { w with uid := uid }

/-- The surroundings of which exactly the given facts hold. -/
def ofFacts (facts : List Fact) : World := facts.foldl add empty

end Dotfiles.World
