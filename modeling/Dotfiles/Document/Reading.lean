import Dotfiles.Error
import Dotfiles.Yaml.Document

/-!
Reading a file as a document: its bytes are UTF-8, every kind of line break in it is a
line feed, and the text is YAML.
-/

namespace Dotfiles.Document

/-- The text with a line feed in place of each carriage return, alone or with the line
feed after it. -/
def unifyBreaks : Text → Text
  | '\r' :: '\n' :: rest => '\n' :: unifyBreaks rest
  | '\r' :: rest => '\n' :: unifyBreaks rest
  | c :: rest => c :: unifyBreaks rest
  | [] => []

/-- The text that bytes stand for, if they are valid UTF-8. -/
def decode? (data : List UInt8) : Option Text :=
  (String.fromUTF8? ⟨data.toArray⟩).map fun s => unifyBreaks s.toList

/-- The reason given for a text that is no document. -/
def notYaml : Text := "<yaml error>".toList

/-- The value of a file's bytes. -/
def ofBytes (path : Path) (data : List UInt8) : Except Error Value :=
  match decode? data with
  | none => .error (.undecodable path)
  | some text =>
    match Yaml.read text with
    | .ok value => .ok value
    | .error .invalid => .error (.format (.invalidYaml path notYaml))
    | .error (.defective defect) => .error (.defective path defect)
    | .error .tooDeep => .error .tooDeep

/-- The value of what a file holds. -/
def ofContent (path : Path) : Content → Except Error Value
  | .bytes data => ofBytes path data
  | .document (.ok value) => .ok value
  | .document (.error reason) => .error (.format (.invalidYaml path reason))

/-- The value of the document in a file. -/
def read (fs : FileSystem) (path : Path) : Except Error Value := do
  ofContent path (← (fs.read path).mapError (.ofCall .read path))

end Dotfiles.Document
