import Dotfiles.Document.Reading
import Dotfiles.Path.Join
import Dotfiles.Settings.Basic
import Dotfiles.Settings.Reference

/-!
The options file, which gives defaults for the two roots, and the directories in which
it and the profile are looked for.
-/

namespace Dotfiles

namespace World

/-- A path without the slashes at its end; nothing left is the root. -/
def withoutSlashes (p : Path) : Path :=
  match (p.reverse.dropWhile (· = '/')).reverse with
  | [] => ['/']
  | q => q

/-- The user's home directory, by the environment or else by the user database. A user
who is not known there has a tilde for one. -/
def home (w : World) : Path :=
  match w.filled? "HOME".toList with
  | some home => home
  | none =>
    match (w.valueOf? "HOME".toList).or w.ownHome? with
    | some home => withoutSlashes home
    | none => ['~']

/-- The program's own directory in one that a variable names, or else in one at home. -/
def ownDirectory (w : World) (name : Text) (fallback : List Path) : Path :=
  Path.join [(w.filled? name).getD (Path.join (w.home :: fallback)), "dbot".toList]

/-- The directory of the options file. -/
def configDirectory (w : World) : Path :=
  w.ownDirectory "XDG_CONFIG_HOME".toList [".config".toList]

/-- The source directory if none is given. -/
def dataDirectory (w : World) : Path :=
  w.ownDirectory "XDG_DATA_HOME".toList [".local".toList, "share".toList]

end World

namespace Options

/-- The file that options are read from if none is given. -/
def usualFile (w : World) : Path := Path.join [w.configDirectory, "config.yaml".toList]

/-- The path under a key of an options file; null is as good as nothing. -/
def pathUnder (file : Path) (key : Text) (fields : Fields) : Except Error (Option Path) :=
  match fields.getText? key with
  | none => .ok none
  | some (.scalar .null) => .ok none
  | some (.scalar (.text t)) => .ok (some t)
  | some _ => .error (.usage (.optionNotPath file key))

/-- An error while reading an options file. Text that is no document is a fault of the
options, not of a profile. -/
def readingError : Error → Error
  | .format (.invalidYaml file reason) => .usage (.optionsNotYaml file reason)
  | e => e

/-- The options in a file as they are written there. A missing file holds none. -/
def load (w : World) (file : Path) : Except Error Options := do
  if !w.files.contains file then return Options.empty
  if w.files.isDirectory file then .error (.usage (.optionsAreDirectory file))
  match ← (Document.read w.files file).mapError readingError with
  | .scalar .null => return Options.empty
  | .map fields => do
    let source ← pathUnder file "source".toList fields
    let target ← pathUnder file "target".toList fields
    return { Options.empty with source := source, target := target }
  | _ => .error (.usage (.optionsNotMapping file))

/-- An optional path with its references replaced. -/
def expandPath (w : World) (label : Text) : Option Path → Except Error (Option Path)
  | none => .ok none
  | some p => some <$> Reference.expand w label p

/-- The options in a file with the references in their paths replaced. -/
def loadExpanded (w : World) (file : Path) : Except Error Options := do
  let options ← load w file
  let source ← expandPath w "source option".toList options.source
  let target ← expandPath w "target option".toList options.target
  return { options with source := source, target := target }

/-- The options with others on top of them. -/
def overriddenBy (o p : Options) : Options where
  source := p.source.or o.source
  target := p.target.or o.target
  verbosity := p.verbosity.or o.verbosity
  unknown := o.unknown ++ p.unknown

end Options

end Dotfiles
