import Dotfiles.FileTree.FileSystem
import Dotfiles.Glob.Matcher
import Dotfiles.Path.Normal
import Dotfiles.Yaml.Failure

/-!
What can go wrong, cause by cause, with the message of each cause in one place.
A cause of the program's own kind makes a `Report`; the few others pass through
the program unreported.
-/

namespace Dotfiles

/-- The attributes a declaration can set. -/
inductive AttributeKey where
  | source
  | method
  | recursive
  | ignore
  deriving DecidableEq, Repr

/-- The key an attribute is written under. -/
def AttributeKey.text : AttributeKey → Text
  | .source => "~source".toList
  | .method => "~type".toList
  | .recursive => "~recursive".toList
  | .ignore => "~ignore".toList

/-- What the value of an attribute has to be. -/
def AttributeKey.expected : AttributeKey → String
  | .source => "a path"
  | .method => "a string"
  | .recursive => "a boolean"
  | .ignore => "a glob or a list of globs"

/-- What is wrong with a profile document. -/
inductive FormatFault where
  /-- A method in angle brackets without the closing one. -/
  | unclosedMethod (value : Text)
  | unknownMethod (value : Text)
  /-- Neither a path nor a mapping where a declaration should be. -/
  | notADeclaration (place : Path) (typeName : String)
  | keyNotText (place : Path) (key : Scalar)
  | badAttribute (key : AttributeKey) (place : Path)
  | invalidYaml (file : Path) (reason : Text)
  | documentNotMapping (file : Path)
  | importsNotList (file : Path)
  | dataNotMapping (file : Path)
  deriving DecidableEq, Repr

/-- The message of a fault in a profile document. -/
def FormatFault.message : FormatFault → String
  | .unclosedMethod value => s!"profile type must end with '>': '{value.str}'"
  | .unknownMethod value => s!"unknown attribute type '{value.str}'"
  | .notADeclaration place typeName =>
    s!"expected a path or a mapping at '{(Path.shown place).str}', got {typeName}"
  | .keyNotText place key =>
    s!"profile keys must be strings at '{(Path.shown place).str}': {key.quoted.str}"
  | .badAttribute key place =>
    s!"'{key.text.str}' must be {key.expected} at '{(Path.shown place).str}'"
  | .invalidYaml file reason => s!"invalid yaml file at '{file.str}': {reason.str}"
  | .documentNotMapping file => s!"a profile document must be a mapping: '{file.str}'"
  | .importsNotList file => s!"'import' must be a list of files in '{file.str}'"
  | .dataNotMapping file => s!"'data' must be a mapping in '{file.str}'"

/-- What is wrong with the command line or the options file. -/
inductive UsageFault where
  | optionsAreDirectory (file : Path)
  | optionsNotYaml (file : Path) (reason : Text)
  | optionsNotMapping (file : Path)
  | optionNotPath (file : Path) (key : Text)
  | undefinedVariable (label name : Text)
  | noHome
  deriving DecidableEq, Repr

/-- The message of a fault in the command line or the options file. -/
def UsageFault.message : UsageFault → String
  | .optionsAreDirectory file => s!"Could not open {file.str} for reading"
  | .optionsNotYaml file reason => (FormatFault.invalidYaml file reason).message
  | .optionsNotMapping file => s!"{file.str}: options must be a mapping"
  | .optionNotPath file key => s!"{file.str}: '{key.str}' must be a path"
  | .undefinedVariable label name =>
    s!"{label.str} references undefined environment variable ${name.str}; aborting!"
  | .noHome => "dbot: cannot determine the home directory"

/-- The message of a file call that fails. -/
def FileCall.message (call : FileCall) (path : Path) (errno : Errno) : String :=
  match call with
  | .inspect => s!"cannot stat: {path.str} ({errno.message})"
  | .readLink => s!"could not read link: {path.str} ({errno.message})"
  | .list => s!"cannot read directory: {path.str} ({errno.message})"
  | .read => s!"cannot read {path.str} ({errno.message})"

/-- Why the program, or a part of it, gives no result. -/
inductive Error where
  | format (fault : FormatFault)
  | usage (fault : UsageFault)
  /-- A path of a profile begins with a drive or a share. -/
  | rejectedPath (fault : Path.RejectedPrefix)
  /-- An ignore list, inherited by the entry with the given target, holds a glob that
  is not well formed. -/
  | badIgnoreList (entry : Path) (globs : List Text) (defect : Glob.Defect) (glob : Text)
  /-- A target that is made in one piece declares children. -/
  | unexpectedChildren (target : Path)
  /-- A template that is not expanded is a directory. -/
  | templateIsDirectory (source : Path)
  /-- A link is declared where there are no links. -/
  | linksUnsupported (source : Path)
  | file (call : FileCall) (path : Path) (errno : Errno)
  /-- A file call with a path that cannot be handed to the system. -/
  | unusablePath (call : FileCall) (path : Path) (defect : Path.Defect)
  /-- A variable or a user is looked up by a name that cannot be handed to the system. -/
  | unusableName (name : Text) (defect : Path.Defect)
  /-- A range in a glob ends before it begins. -/
  | reversedRange
  /-- A file is not valid UTF-8. -/
  | undecodable (path : Path)
  /-- A part of the document in a file stands for nothing. -/
  | defective (path : Path) (defect : Yaml.Defect)
  /-- A number has more digits than are ever written. -/
  | unwritable
  /-- Links lead an expansion deeper than it may go, or a document or a value does not
  end where it should. -/
  | tooDeep
  deriving DecidableEq, Repr

/-- The error that the failure of a file call is. -/
def Error.ofCall (call : FileCall) (path : Path) : CallFailure → Error
  | .refused errno => .file call path errno
  | .unusable defect => .unusablePath call path defect

/-- The kinds of reports. -/
inductive Report.Kind where
  | general
  | internal
  | usage
  | format
  | rejectedPath
  | badIgnoreList
  | unexpectedChildren
  | templateIsDirectory
  | linksUnsupported
  | file
  deriving DecidableEq, Repr

/-- An error as the program reports it: its message, the status to exit with, and the
path and the globs it is about. -/
structure Report where
  kind : Report.Kind
  message : String
  status : Int
  path : Option Path
  globs : Option (List Text)
  deriving DecidableEq, Repr

namespace Report

/-- The status of errors that have no status of their own. -/
def defaultStatus : Int := 255

/-- A report of a message alone. -/
def plain (kind : Kind) (message : String) (status : Int) : Report :=
  ⟨kind, message, status, none, none⟩

/-- A report about a path. -/
def about (kind : Kind) (path : Path) (message : String) : Report :=
  ⟨kind, message, defaultStatus, some path, none⟩

/-- The report of a fault in a profile document. -/
def format (message : String) (status : Int) : Report := plain .format message status

/-- The report of a fault in the command line or the options file. -/
def usage (message : String) : Report := plain .usage message 1

/-- The report of a state that cannot be. -/
def internal (message : String) : Report := plain .internal message 1

/-- The report of a path that begins with a rejected prefix. -/
def rejectedPath (path : Path) (mark : Text) : Report :=
  about .rejectedPath path
    s!"a path can't start with '{mark.str}' or other prefixes: '{path.str}'"

/-- The report of an ignore list that does not compile, for the reason given if any. -/
def badIgnoreList (path : Path) (globs : List Text) (reason : String) : Report :=
  let message := s!"invalid ignore patterns for '{path.str}': {(Text.quotedList globs).str}"
  { kind := .badIgnoreList
    message := if reason.isEmpty then message else s!"{message} ({reason})"
    status := defaultStatus
    path := some path
    globs := some globs }

/-- The report of children where none can be. -/
def unexpectedChildren (path : Path) : Report :=
  about .unexpectedChildren path s!"a linked or template file cannot have children: '{path.str}'"

/-- The report of a directory as a template. -/
def templateIsDirectory (path : Path) : Report :=
  about .templateIsDirectory path s!"a template source cannot be a directory: '{path.str}'"

/-- The report of a link where there are none. -/
def linksUnsupported (path : Path) : Report :=
  about .linksUnsupported path s!"symlinks are not supported on this platform: '{path.str}'"

/-- The report of a failed file call. -/
def file (message : String) (path : Path) (status : Int) : Report :=
  ⟨.file, message, status, some path, none⟩

end Report

/-- The report of an error, unless it is one that passes through unreported. -/
def Error.report? : Error → Option Report
  | .format fault => some (.format fault.message Report.defaultStatus)
  | .usage fault => some (.usage fault.message)
  | .rejectedPath fault => some (.rejectedPath fault.path fault.mark)
  | .badIgnoreList entry globs defect glob =>
    some (.badIgnoreList (Path.shown entry) globs (defect.message glob).str)
  | .unexpectedChildren target => some (.unexpectedChildren target)
  | .templateIsDirectory source => some (.templateIsDirectory source)
  | .linksUnsupported source => some (.linksUnsupported source)
  | .file call path errno => some (.file (call.message path errno) path errno.number)
  | .unusablePath .. => none
  | .unusableName .. => none
  | .reversedRange => none
  | .undecodable _ => none
  | .defective .. => none
  | .unwritable => none
  | .tooDeep => none

end Dotfiles
