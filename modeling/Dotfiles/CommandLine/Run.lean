import Dotfiles.CommandLine.Arguments
import Dotfiles.Compile.Basic
import Dotfiles.Document.Profile
import Dotfiles.Settings.File

/-!
The command itself: from the arguments to what is printed. It shows what a profile
compiles to and changes nothing.
-/

namespace Dotfiles.CommandLine

/-- How a run ends. -/
inductive Ending where
  /-- After its work. -/
  | finished
  /-- With a status of its own. -/
  | exit (status : Int)
  /-- With an error that it does not report itself. -/
  | failed (e : Error)
  deriving DecidableEq, Repr

/-- A whole run. -/
structure Run where
  out : String
  err : String
  ending : Ending
  deriving DecidableEq, Repr

/-- Lines, each with its end. -/
def textOf (lines : List String) : String := String.join (lines.map (· ++ "\n"))

/-- The run that an exit ends. -/
def Run.ofExit (e : Exit) : Run := ⟨e.out, e.err, .exit e.status⟩

/-- The run that ends with an error, after the given trace. -/
def Run.ofError (trace : String) (e : Error) : Run :=
  match e.report? with
  | some report =>
    let origin := if report.kind = .usage then "" else "dbot: ERROR: "
    ⟨"", trace ++ origin ++ report.message ++ "\n", .exit report.status⟩
  | none => ⟨"", trace, .failed e⟩

/-- The root that targets are relative to if none is given: the user's home. -/
def usualTarget (w : World) : Except Error Path :=
  match ((w.filled? "HOME".toList).or w.ownHome?).filter fun h => !h.isEmpty with
  | some home => .ok home
  | none => .error (.usage .noHome)

/-- Ends because the source root is no directory. -/
def notADirectory (source : Path) : Exit :=
  .misuse s!"dbot: --source value '{source.str}' is not a valid directory\n"

/-- Ends because there is nothing to do. -/
def noCommand : Exit := .misuse "dbot: No command given\n"

/-- The work of a run: loading the profile and compiling it. -/
def compileProfile (w : World) (settings : Settings) : Traced Compilation := do
  let document ← ProfileDocument.load w settings.source ProfileDocument.fileName
  document.profile.compile w settings

/-- The table in the order of its targets. -/
def sortedTable (table : Table) : Table := Path.sortOn Prod.fst table

/-- The lines that a command prints of a table. -/
def Command.lines (command : Command) (table : Table) : List String :=
  (sortedTable table).map fun (target, action) =>
    match command with
    | .compile => s!"{target.str} => {action.source.str} ({action.method.name.str})"
    | .list => target.str

/-- The remarks of a compilation as warnings. -/
def warnings (c : Compilation) : List String :=
  c.diagnostics.map fun d => s!"dbot: WARNING: {d.message}"

/-- The run of a command with settled settings. -/
def Command.run (w : World) (settings : Settings) (command : Command) : Run :=
  let work := compileProfile w settings
  let trace := textOf (Event.lines settings.verbosity work.events)
  match work.outcome with
  | .ok c => ⟨textOf (command.lines c.table), trace ++ textOf (warnings c), .finished⟩
  | .error e => Run.ofError trace e

/-- The run of options, with those of the options file beneath them, and a command. -/
def runOptions (w : World) (given : Options) (command : Option Command) : Run :=
  match Options.loadExpanded w (Options.usualFile w) with
  | .error e => Run.ofError "" e
  | .ok fromFile =>
    let options := fromFile.overriddenBy given
    let source := options.source.getD w.dataDirectory
    if !w.files.isDirectory source then Run.ofExit (notADirectory source)
    else
      match options.target.elim (usualTarget w) .ok, command with
      | .error e, _ => Run.ofError "" e
      | .ok _, none => Run.ofExit noCommand
      | .ok target, some command =>
        command.run w ⟨source, target, options.verbosity.getD 0⟩

/-- The run of the program with the given arguments. -/
def run (w : World) (args : List Text) : Run :=
  match parse args with
  | .error e => Run.ofExit e
  | .ok (options, command) => runOptions w options command

end Dotfiles.CommandLine
