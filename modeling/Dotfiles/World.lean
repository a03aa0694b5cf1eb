import Dotfiles.FileTree.FileSystem

/-!
The surroundings of a run: the files, the environment, the users, and what the
platform offers. The program reads them and changes none of them.
-/

namespace Dotfiles

/-- What depends on the operating system. -/
structure Platform where
  /-- Whether paths may begin with the letter of a drive. -/
  drives : Bool
  /-- Whether symbolic links can be made. -/
  links : Bool
  deriving DecidableEq, Repr

/-- A platform with links and without drives. -/
def Platform.posix : Platform := ⟨false, true⟩

/-- A user of the machine. -/
structure User where
  name : Text
  uid : Int
  home : Path
  deriving DecidableEq, Repr

/-- The surroundings of a run. -/
structure World where
  files : FileSystem
  environment : List (Text × Text)
  users : List User
  uid : Int
  platform : Platform

namespace World

/-- The value of an environment variable. -/
def valueOf? (w : World) (name : Text) : Option Text := w.environment.lookup name

/-- The value of an environment variable, unless it is empty. -/
def filled? (w : World) (name : Text) : Option Text := (w.valueOf? name).filter fun v => !v.isEmpty

/-- The home of the user the program runs as. -/
def ownHome? (w : World) : Option Path := (w.users.find? fun u => u.uid = w.uid).map (·.home)

/-- The home of a user by name. -/
def homeOf? (w : World) (name : Text) : Option Path :=
  (w.users.find? fun u => u.name = name).map (·.home)

end World

end Dotfiles
