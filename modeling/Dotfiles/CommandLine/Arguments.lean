import Dotfiles.Settings.Basic
import Dotfiles.Text.Digit

/-!
The command line: options, each with a short and a long form, and one command.
-/

namespace Dotfiles.CommandLine

/-- What the program can be told to do. -/
inductive Command where
  /-- Show the action for every target. -/
  | compile
  /-- List the targets. -/
  | list
  deriving DecidableEq, Repr

/-- The command of a word. -/
def Command.ofWord? (word : Text) : Option Command :=
  if word = "compile".toList then some .compile
  else if word = "ls".toList then some .list
  else none

/-- The end of the program before its work: what it prints and the status it exits with. -/
structure Exit where
  status : Int
  out : String
  err : String
  deriving DecidableEq, Repr

/-- The program's name and version. -/
def versionLine : String := "dbot version 0.1.0\n"

/-- How to use the program. -/
def usage : String := versionLine ++ "
SYNOPSIS:

    dbot [OPTION ...] COMMAND

COMMANDS:

    compile               Show the action compiled for every managed target
    ls                    List all managed target files

OPTIONS:

    -s DIR, --source=DIR  Set source dir to DIR (default is $XDG_DATA_HOME/dbot)
    -t DIR, --target=DIR  Set target to DIR (default is $HOME)

    -v, --verbose[=N]     Increase verbosity (levels are from 0 to 5;
                            -v or --verbose adds 1; --verbose=N sets level)
    -V, --version         Show dbot version number
    -h, --help            Show this help

Defaults for --source and --target are read from $XDG_CONFIG_HOME/dbot/config.yaml.
"

/-- Ends after showing how to use the program. -/
def Exit.help : Exit := ⟨0, usage, ""⟩

/-- Ends after showing the version. -/
def Exit.version : Exit := ⟨0, versionLine, ""⟩

/-- Ends because the program is not used as it should be. -/
def Exit.misuse (message : String) : Exit := ⟨1, usage, message ++ "\n"⟩

/-- Which of the two roots an option sets. -/
inductive Root where
  | source
  | target
  deriving DecidableEq, Repr

/-- What a single argument says. -/
inductive Argument where
  /-- A root, in the same argument. -/
  | root (which : Root) (path : Path)
  /-- A root, to come in the next argument; `name` is the option without its hyphens. -/
  | rootNext (which : Root) (name : Text)
  /-- More of the trace by so many levels. -/
  | more (levels : Int)
  /-- So much of the trace. -/
  | level (verbosity : Int)
  | help
  | version
  | word (t : Text)
  /-- An option that there is not. -/
  | unknown (name : Text)
  deriving DecidableEq, Repr

/-- What an argument says about a root whose option has the given short and long form. -/
def Argument.ofRoot? (which : Root) (short long arg : Text) : Option Argument :=
  if arg = short then some (.rootNext which (arg.drop 1))
  else if arg = long then some (.rootNext which (arg.drop 2))
  else
    match Text.dropPrefix? (long ++ ['=']) arg, Text.dropPrefix? short arg with
    | some path, _ => some (.root which path)
    | none, some path => some (.root which path)
    | none, none => none

/-- What an argument says about the verbosity. A level that is no integer is one. -/
def Argument.ofVerbosity? (arg : Text) : Option Argument :=
  if arg = "-v".toList || arg = "--verbose".toList then some (.more 1)
  else
    match Text.dropPrefix? "--verbose=".toList arg, arg with
    | some n, _ => some (.level ((Text.readInt? n).getD 1))
    | none, '-' :: vs => if !vs.isEmpty && vs.all (· = 'v') then some (.more vs.length) else none
    | none, _ => none

/-- What an argument says. -/
def Argument.ofText (arg : Text) : Argument :=
  let known :=
    ((Argument.ofRoot? .source "-s".toList "--source".toList arg).or
      (Argument.ofRoot? .target "-t".toList "--target".toList arg)).or
      (Argument.ofVerbosity? arg)
  match known with
  | some a => a
  | none =>
    if arg = "-h".toList || arg = "--help".toList then .help
    else if arg = "-V".toList || arg = "--version".toList then .version
    else
      match arg with
      | '-' :: '-' :: name => .unknown (name.takeWhile (· ≠ '='))
      | '-' :: name => .unknown name
      | t => .word t

/-- The options with a root set. -/
def setRoot (o : Options) (which : Root) (path : Path) : Options :=
  match which with
  | .source => { o with source := some path }
  | .target => { o with target := some path }

/-- Ends because of an option that there is not. -/
def unknownOption (name : Text) : Exit := .misuse s!"Unknown option: {name.str}"

/-- The command line read so far with a further command word. -/
def addCommand (command : Option Command) (word : Text) : Except Exit Command :=
  match command, Command.ofWord? word with
  | some _, _ => .error (.misuse s!"dbot: Unexpected argument: {word.str}")
  | none, some c => .ok c
  | none, none => .error (.misuse s!"dbot: Unknown command: {word.str}")

/-- Options and command of the arguments, behind those read so far, unless one of them
ends the program. -/
def parseFrom (options : Options) (command : Option Command) :
    List Text → Except Exit (Options × Option Command)
  | [] => .ok (options, command)
  | arg :: rest =>
    match Argument.ofText arg with
    | .root which path => parseFrom (setRoot options which path) command rest
    | .rootNext which name =>
      match rest with
      | [] => .error (unknownOption name)
      | path :: rest => parseFrom (setRoot options which path) command rest
    | .more levels =>
      let verbosity := options.verbosity.getD 0 + levels
      parseFrom { options with verbosity := some verbosity } command rest
    | .level verbosity => parseFrom { options with verbosity := some verbosity } command rest
    | .help => .error .help
    | .version => .error .version
    | .unknown name => .error (unknownOption name)
    | .word t =>
      match addCommand command t with
      | .ok c => parseFrom options (some c) rest
      | .error e => .error e

/-- Options and command of the arguments, unless one of them ends the program. -/
def parse (args : List Text) : Except Exit (Options × Option Command) :=
  parseFrom Options.empty none args

end Dotfiles.CommandLine
