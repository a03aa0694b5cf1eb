import Dotfiles.Document.Reading
import Dotfiles.Profile.Resolution
import Dotfiles.Value.Merge
import Dotfiles.World

/-!
Profile documents. A document holds a profile and data, and may import further
documents; these are merged into it in the order they are listed. Imports of imports
are not followed.
-/

namespace Dotfiles

/-- A profile document that has been loaded, with the file it was loaded from. -/
structure ProfileDocument where
  file : Path
  profile : Profile
  data : Fields

namespace ProfileDocument

/-- The name of the file that holds the profile document of a source directory. -/
def fileName : Path := "dbot.yaml".toList

/-- The section that lists imports. -/
def importSection : Text := "import".toList

/-- The section that holds data. -/
def dataSection : Text := "data".toList

/-- The section that holds the profile. -/
def profileSection : Text := "profile".toList

/-- Whether a key is that of a section. -/
def isSection (key : Scalar) : Bool :=
  [importSection, dataSection, profileSection].any fun name => key.sameKey (.text name)

/-- The keys of a document that are those of no section, in plain form and in order. -/
def unknownKeys (fields : Fields) : Except Error (List Text) :=
  let unknown := (fields.map Prod.fst).filter fun key => !isSection key
  if unknown.all Scalar.isWritable then .ok (Text.sort (unknown.map Scalar.plain))
  else .error .unwritable

/-- The sections in a file. An empty document has none. -/
def sections (fs : FileSystem) (file : Path) : Traced Fields := do
  let content ← Traced.call .read file (fs.read file)
  match ← Traced.ofExcept (Document.ofContent file content) with
  | .scalar .null => return []
  | .map fields => do
    let unknown ← Traced.ofExcept (unknownKeys fields)
    Traced.emitAll (unknown.map fun key => .unknownKey key file)
    return fields
  | _ => Traced.fail (.format (.documentNotMapping file))

/-- The imports that a document lists: none, a single one, or a list of them. -/
def importsOf (file : Path) (fields : Fields) : Except Error (List Value) :=
  match fields.getText? importSection with
  | none => .ok []
  | some value =>
    if value.isVoid then .ok []
    else
      match value with
      | .scalar (.text name) => .ok [.text name]
      | .list items => .ok items
      | _ => .error (.format (.importsNotList file))

/-- The sections of a document with those of its imports merged into them, one import
after another. -/
def mergeImports (fs : FileSystem) (source file : Path) : List Value → Fields → Traced Fields
  | [], fields => pure fields
  | .scalar (.text name) :: rest, fields => do
    let imported ← Traced.join [source, name]
    Traced.emit (.importing imported)
    let more ← sections fs imported
    mergeImports fs source file rest
      (Value.mergeFields fields (Fields.erase (.text importSection) more))
  | _ :: _, _ => Traced.fail (.format (.importsNotList file))

/-- The data of a document, empty if it holds none. -/
def dataOf (file : Path) (fields : Fields) : Except Error Fields :=
  match fields.getText? dataSection with
  | none => .ok []
  | some value =>
    if value.isVoid then .ok []
    else
      match value with
      | .map data => .ok data
      | _ => .error (.format (.dataNotMapping file))

/-- Loads the document in the given file of a source directory. -/
def load (w : World) (source name : Path) : Traced ProfileDocument := do
  let file ← Traced.join [source, name]
  Traced.emit (.loading file)
  let main ← sections w.files file
  let imports ← Traced.ofExcept (importsOf file main)
  let fields ← mergeImports w.files source file imports
    (Fields.erase (.text importSection) main)
  let data ← Traced.ofExcept (dataOf file fields)
  let profile ← Profile.read w.platform.drives ((fields.getText? profileSection).getD .null)
  return ⟨file, profile, data⟩

end ProfileDocument

end Dotfiles
