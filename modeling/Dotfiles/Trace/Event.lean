import Dotfiles.FileTree.FileSystem
import Dotfiles.Text.Quoted
import Dotfiles.Value.Written

/-!
The trace: the steps of the work in their order, and which of them are shown. What
is shown has a level, and only what is up to the verbosity asked for appears, each
step as an indented line.
-/

namespace Dotfiles

/-- How a target is made from its source. -/
inductive Method where
  | copy
  | link
  | template
  deriving DecidableEq, Repr

/-- The name of a method in documents and tables. -/
def Method.name : Method → Text
  | .copy => "copy".toList
  | .link => "link".toList
  | .template => "template".toList

/-- The name of a method in the trace. -/
def Method.loudName : Method → String
  | .copy => "COPY"
  | .link => "LINK"
  | .template => "TEMPLATE"

/-- A step of the work. The trace can show all of them but file calls, which it only
keeps. -/
inductive Event where
  | joining (parts : List Path)
  | joined (result : Path)
  | declaration (path : Path)
  | undefinedAttribute (key : Text) (place : Path)
  | resolving (target : Path) (source : Option Path)
  | dropped (target : Path)
  | sourceRoot (path : Path)
  | targetRoot (path : Path)
  | compiling (entries : Nat)
  | compiled
  | entry (target source : Path)
  | skipping (target : Path)
  | followedLink (link destination : Path)
  | secondLink (source : Path)
  | compilingGlobs (globs : List Text)
  | ignoring (source : Path)
  | recorded (method : Method) (target source : Path)
  | loading (file : Path)
  | importing (file : Path)
  | unknownKey (key : Text) (file : Path)
  | fileCall (call : FileCall) (path : Path)
  deriving DecidableEq, Repr

/-- What the trace shows of an event: the least verbosity that shows it, how far its
line is indented, and the line. -/
structure TraceLine where
  level : Int
  indent : Int
  message : String
  deriving DecidableEq, Repr

/-- What the trace shows of an event, if anything. -/
def Event.traceLine? : Event → Option TraceLine
  | .joining parts => some ⟨5, 5, s!"| Joining: {(Text.spaced parts).str}"⟩
  | .joined result => some ⟨5, 5, s!"| Final join: {result.str}"⟩
  | .declaration path => some ⟨4, 1, s!"Declaration {path.str}"⟩
  | .undefinedAttribute key place =>
    some ⟨2, 0, s!"Undefined attribute '{key.str}' at '{(Path.shown place).str}'"⟩
  | .resolving target source =>
    let origin := match source with
      | some path => path.str
      | none => "None"
    some ⟨3, 0, s!"Resolving {(Path.shown target).str} (source={origin})"⟩
  | .dropped target => some ⟨4, 1, s!"{(Path.shown target).str} has no source; dropped"⟩
  | .sourceRoot path => some ⟨2, 0, s!"source dir is {path.str}"⟩
  | .targetRoot path => some ⟨2, 0, s!"target dir is {path.str}"⟩
  | .compiling entries => some ⟨2, 0, s!"Compiling {entries} profile entries..."⟩
  | .compiled => some ⟨2, 0, "Compiling profile entries... done"⟩
  | .entry target source =>
    some ⟨3, 0, s!"Compiling entry {(Path.shown target).str} <= {(Path.shown source).str}"⟩
  | .skipping target => some ⟨2, 1, s!"--- Skipping {target.str} as it is already compiled"⟩
  | .followedLink link destination =>
    some ⟨4, 1, s!"Resolved link {link.str} => {destination.str}"⟩
  | .secondLink source =>
    some ⟨2, 1, s!"Not following {source.str} further: links resolve one hop"⟩
  | .compilingGlobs globs => some ⟨4, 1, s!"Compiling ignore patterns: {(Text.spaced globs).str}"⟩
  | .ignoring source => some ⟨2, 1, s!"Ignoring {source.str}"⟩
  | .recorded method target source =>
    some ⟨1, 0, s!"{method.loudName}: {target.str} <= {source.str}"⟩
  | .loading file => some ⟨2, 0, s!"Loading profile {file.str}"⟩
  | .importing file => some ⟨2, 1, s!"Importing {file.str}"⟩
  | .unknownKey key file => some ⟨2, 1, s!"Unknown key '{key.str}' in {file.str}"⟩
  | .fileCall .. => none

/-- Where and how much the trace is shown. -/
structure TraceView where
  verbosity : Int
  /-- Whether lines are marked and go among the results, as a test wants them. -/
  testing : Bool

/-- The view that shows nothing. -/
def TraceView.quiet : TraceView := ⟨0, false⟩

/-- A line as the view shows it, if it shows its level. A negative indent is none. -/
def TraceView.line? (view : TraceView) (l : TraceLine) : Option String :=
  if l.level ≤ view.verbosity then
    let margin := String.ofList (List.replicate (4 * l.indent.toNat) ' ')
    some ((if view.testing then "# " else "") ++ margin ++ l.message)
  else none

/-- The indent and the message that arguments stand for: the first of two or more is
the indent if it is a number, and otherwise the message itself. -/
def TraceView.messageOf? : List Value → Option (Int × Value)
  | .scalar (.int n) :: message :: _ => some (n, message)
  | .scalar (.bool b) :: message :: _ => some (if b then 1 else 0, message)
  | message :: _ => some (0, message)
  | [] => none

/-- The line of an event, if a verbosity shows it. -/
def Event.line? (verbosity : Int) (event : Event) : Option String :=
  event.traceLine?.bind (TraceView.line? ⟨verbosity, false⟩)

/-- The events without repeated compilations of the same globs, which are compiled
once and remembered; `known` holds the lists compiled before. -/
def Event.withoutRepeats (known : List (List Text)) : List Event → List Event
  | [] => []
  | .compilingGlobs globs :: rest =>
    if globs ∈ known then withoutRepeats known rest
    else .compilingGlobs globs :: withoutRepeats (globs :: known) rest
  | event :: rest => event :: withoutRepeats known rest

/-- The lines of a trace at a verbosity. -/
def Event.lines (verbosity : Int) (events : List Event) : List String :=
  (withoutRepeats [] events).filterMap (line? verbosity)

end Dotfiles
