import Dotfiles.Profile.Tree
import Dotfiles.Trace.Traced

/-!
Reading declarations. A declaration is null, a text, or a mapping; a mapping sets
attributes under reserved keys, which begin with a tilde, and declares targets
below its own under all others.
-/

namespace Dotfiles

/-- A remark on a profile that does not stop it from being used. -/
structure Diagnostic where
  kind : Text
  key : Text
  place : Path
  deriving DecidableEq, Repr

namespace Diagnostic

/-- The kind of the remark that a reserved key is not known. -/
def unknownAttributeKind : Text := "unknown-attribute".toList

/-- The remark that a reserved key is not known. -/
def unknownAttribute (key : Text) (place : Path) : Diagnostic := ⟨unknownAttributeKind, key, place⟩

/-- The wording of a remark. -/
def message (d : Diagnostic) : String :=
  let subject :=
    if d.kind = unknownAttributeKind then "undefined attribute" else d.kind.str ++ ":"
  s!"{subject} '{d.key.str}' at '{(Path.shown d.place).str}'"

end Diagnostic

/-- The method of a name. -/
def Method.ofName? (name : Text) : Option Method :=
  [Method.copy, .link, .template].find? fun m => decide (m.name = name)

/-- The attribute that a reserved key sets. -/
def AttributeKey.ofText? (key : Text) : Option AttributeKey :=
  [AttributeKey.source, .method, .recursive, .ignore].find? fun k => decide (k.text = key)

/-- Whether a key is reserved for an attribute. -/
def isReserved : Text → Bool
  | '~' :: _ => true
  | _ => false

namespace Declaration

/-- A path of a profile in normal form. -/
def normalPath (drives : Bool) (p : Path) : Except Error Path :=
  (Path.normalize drives p).mapError .rejectedPath

/-- The method of a name; `written` is the text it was read from. -/
def methodOf (name written : Text) : Except Error Method :=
  match Method.ofName? name with
  | some m => .ok m
  | none => .error (.format (.unknownMethod written))

/-- The name between angle brackets, given what follows the opening one. A line feed
may follow the closing bracket, and none stands between them. -/
def bracketedName? (afterBracket : Text) : Option Text :=
  let inner :=
    match afterBracket.reverse with
    | '>' :: name => some name.reverse
    | '\n' :: '>' :: name => some name.reverse
    | _ => none
  inner.filter fun name => !name.contains '\n'

/-- The attributes that a text declares: a method between angle brackets, or a source. -/
def attributesOfText (drives : Bool) (value : Text) : Except Error Attributes :=
  match value with
  | '<' :: rest =>
    match bracketedName? rest with
    | some name => Attributes.ofMethod <$> methodOf name value
    | none => .error (.format (.unclosedMethod value))
  | _ => Attributes.ofSource <$> normalPath drives value

/-- The attributes with the value of a reserved key set; `place` is the target they
are declared for. -/
def setAttribute (drives : Bool) (place : Path) (attributes : Attributes) (key : AttributeKey)
    (value : Value) : Except Error Attributes :=
  let refused : Except Error Attributes := .error (.format (.badAttribute key place))
  match key, value with
  | .source, .scalar (.text t) => do return { attributes with source := ← normalPath drives t }
  | .method, .scalar (.text t) => do return { attributes with method := ← methodOf t t }
  | .recursive, .scalar (.bool b) => .ok { attributes with recursive := some b }
  | .ignore, v =>
    match GlobList.ofValue v with
    | .ok globs => .ok { attributes with ignore := some globs }
    | .error _ => refused
  | _, _ => refused

/-- A declaration that has been read, with the remarks on it in document order. -/
structure Reading where
  tree : ProfileTree
  diagnostics : List Diagnostic

/-- The reading with one more remark. -/
def Reading.remark (r : Reading) (d : Diagnostic) : Reading :=
  { r with diagnostics := r.diagnostics ++ [d] }

/-- The reading with other attributes at the root. -/
def Reading.withAttributes (r : Reading) (attributes : Attributes) : Reading :=
  { r with tree := .node attributes r.tree.children }

/-- The reading with a declaration read under a key. Keys that are written in
different ways but mean the same path are merged. -/
def Reading.addChild (r : Reading) (key : Path) (child : Reading) : Reading where
  tree := .node r.tree.attributes (ProfileTree.mergeChildren r.tree.children [(key, child.tree)])
  diagnostics := r.diagnostics ++ child.diagnostics

mutual

/-- Reads the declaration for the target at `place`. -/
def read (drives : Bool) (place : Path) : Value → Traced Reading
  | .scalar .null => pure ⟨.empty, []⟩
  | .scalar (.text t) => do
    let attributes ← Traced.ofExcept (attributesOfText drives t)
    return ⟨.node attributes [], []⟩
  | .map fields => readFields drives place ⟨.empty, []⟩ fields
  | .list items => .fail (.format (.notADeclaration place (Value.list items).typeName))
  | .scalar s => .fail (.format (.notADeclaration place s.typeName))
  | .set members => .fail (.format (.notADeclaration place (Value.set members).typeName))
  | .pair a b => .fail (.format (.notADeclaration place (Value.pair a b).typeName))
  | .endless => .fail .tooDeep

/-- Reads the fields of a declaration one after another, after those in `done`. -/
def readFields (drives : Bool) (place : Path) (done : Reading) :
    List (Scalar × Value) → Traced Reading
  | [] => pure done
  | (key, value) :: rest =>
    match key with
    | .text key =>
      if isReserved key then
        match AttributeKey.ofText? key with
        | some slot => do
          let attributes ← Traced.ofExcept
            (setAttribute drives place done.tree.attributes slot value)
          readFields drives place (done.withAttributes attributes) rest
        | none => do
          Traced.emit (.undefinedAttribute key place)
          readFields drives place (done.remark (.unknownAttribute key place)) rest
      else do
        let target ← Traced.ofExcept (normalPath drives key)
        let below ← Traced.join [place, target]
        Traced.emit (.declaration below)
        let child ← read drives below value
        readFields drives place (done.addChild target child) rest
    | key => .fail (if key.isWritable then .format (.keyNotText place key) else .unwritable)

end

end Declaration

/-- A profile: its declarations, and the remarks made while they were read. -/
structure Profile where
  declarations : ProfileTree
  diagnostics : List Diagnostic

/-- Reads a profile from the value of a document; `drives` says whether its paths may
begin with a drive. -/
def Profile.read (drives : Bool) (document : Value) : Traced Profile := do
  let reading ← Declaration.read drives [] document
  return ⟨reading.tree, reading.diagnostics⟩

end Dotfiles
