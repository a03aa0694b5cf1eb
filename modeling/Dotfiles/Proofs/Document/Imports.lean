import Dotfiles.Document.Profile
import Dotfiles.Proofs.Except
import Dotfiles.Proofs.Value.TakingPart

/-!
Documents and their imports. Loading a document is reading it and everything it imports,
merging what has been read, and reading the profile and the data from that.
-/

namespace Dotfiles.ProfileDocument

/-- A document that takes part in a profile: its file, and its sections without the list of
imports. -/
structure Part where
  file : Path
  sections : Fields

/-- The sections in a file as they take part in a profile. -/
def partOf (file : Path) (sections : Fields) : Part :=
  ⟨file, Fields.erase (.text importSection) sections⟩

/-- The document that an item in a list of imports names. -/
def importedPart (fs : FileSystem) (source file : Path) : Value → Except Error Part
  | .scalar (.text name) =>
    partOf (Path.join [source, name]) <$> (sections fs (Path.join [source, name])).outcome
  | _ => .error (.format (.importsNotList file))

/-- A document and what it imports, in the order in which it lists them. -/
def parts (w : World) (source name : Path) : Except Error (Part × List Part) := do
  let file := Path.join [source, name]
  let main ← (sections w.files file).outcome
  let imports ← importsOf file main
  let more ← imports.mapM (importedPart w.files source file)
  return (partOf file main, more)

/-- The sections of a document with those of its imports merged into them. -/
def content (main : Part) (imports : List Part) : Fields :=
  (imports.map Part.sections).foldl Value.mergeFields main.sections

/-- The loaded document, once everything is merged. -/
def ofContent (w : World) (file : Path) (fields : Fields) : Except Error ProfileDocument := do
  let data ← dataOf file fields
  let profile ← (Profile.read w.platform.drives
    ((fields.getText? profileSection).getD .null)).outcome
  return ⟨file, profile, data⟩

/-- The documents that are merged: the sections of the main one, and those of its imports. -/
def documents (main : Part) (imports : List Part) : List Value :=
  (main :: imports).map fun p => .map p.sections

/-- The sections in the value of a file. -/
def sectionsOf (file : Path) : Value → Except Error Fields
  | .scalar .null => .ok []
  | .map fields => (fun _ => fields) <$> unknownKeys fields
  | _ => .error (.format (.documentNotMapping file))

theorem sections_outcome (fs : FileSystem) (file : Path) :
    (sections fs file).outcome = Document.read fs file >>= sectionsOf file := by
  rw [sections, Document.read]
  simp only [Traced.outcome_bind, Traced.outcome_call, Traced.outcome_ofExcept, bind_assoc]
  congr 1
  funext content
  congr 1
  funext v
  cases v with
  | scalar s => cases s <;> rfl
  | map fields =>
    simp only [Traced.outcome_bind, Traced.outcome_ofExcept, Traced.outcome_emitAll,
      Traced.outcome_pure, Except.ok_bind, sectionsOf]
    cases unknownKeys fields <;> rfl
  | _ => rfl

theorem mergeImports_cons (fs : FileSystem) (source file : Path) (first : Value)
    (rest : List Value) (fields : Fields) :
    (mergeImports fs source file (first :: rest) fields).outcome =
      importedPart fs source file first >>= fun part =>
        (mergeImports fs source file rest (Value.mergeFields fields part.sections)).outcome := by
  cases first with
  | scalar s =>
    cases s with
    | text name =>
      rw [mergeImports, importedPart, bind_map_left]
      simp only [Traced.outcome_bind, Traced.outcome_join, Traced.outcome_emit, Except.ok_bind,
        partOf]
    | _ => rfl
  | _ => rfl

/-- Imports are read one after another, and merged in the same order. -/
theorem mergeImports_outcome (fs : FileSystem) (source file : Path) (imports : List Value)
    (fields : Fields) :
    (mergeImports fs source file imports fields).outcome =
      (fun more => (more.map Part.sections).foldl Value.mergeFields fields) <$>
        imports.mapM (importedPart fs source file) := by
  induction imports generalizing fields with
  | nil => rfl
  | cons first rest ih =>
    rw [mergeImports_cons, List.mapM_cons]
    cases importedPart fs source file first with
    | error e => rfl
    | ok part =>
      rw [Except.ok_bind, Except.ok_bind, ih]
      cases rest.mapM (importedPart fs source file) <;> rfl

/-- Loading reads the document with its imports, merges them, and goes on from there. -/
theorem load_outcome (w : World) (source name : Path) :
    (load w source name).outcome =
      parts w source name >>= fun p => ofContent w p.1.file (content p.1 p.2) := by
  unfold load parts ofContent
  simp only [Traced.outcome_bind, Traced.outcome_join, Traced.outcome_emit,
    Traced.outcome_ofExcept, Traced.outcome_pure, mergeImports_outcome, Except.ok_bind,
    bind_map_left, bind_assoc, pure_bind]
  rfl

section Content

open Value

variable {main next : Part} {imports earlier : List Part} {path : List Scalar}

theorem map_content (main : Part) (imports : List Part) :
    map (content main imports) =
      mergeAll (map main.sections) (imports.map fun p => map p.sections) := by
  rw [mergeAll_map]
  · simp [content, Function.comp_def, Value.fields]
  · simp [kind]

theorem get?_content (hkeyed : ∀ d ∈ documents main imports, d.isKeyed = true) (key : Scalar) :
    Fields.get? key (content main imports) = merged? (under key (documents main imports)) := by
  have hget := get?_mergeAll hkeyed (by rw [← map_content]; rfl) key
  rwa [← map_content] at hget

theorem takingPart_documents (key : Scalar) (path : List Scalar) :
    takingPart (key :: path) (documents main imports) =
      takingPart path (under key (documents main imports)) := by
  rw [documents, List.map_cons, takingPart_cons, if_pos]
  rw [← map_content]
  rfl

theorem content_append (main : Part) (first : List Part) (part : Part) :
    content main (first ++ [part]) = mergeFields (content main first) part.sections := by
  simp [content]

theorem at?_content_append {old : Value} (h : (map (content main earlier)).at? path = some old)
    (hk : (map next.sections).isKeyed = true) (hs : (map next.sections).spares path = true) :
    (map (content main (earlier ++ [next]))).at? path =
      some (((map next.sections).at? path).elim old (merge old)) := by
  rw [content_append, ← merge_map]
  exact at?_merge h hk hs

end Content

/-- A world with nothing in it but the given documents, all in the directory /s. -/
def worldOf (documents : List (Text × Fields)) : World where
  files := ⟨.dir [("s".toList, .dir (documents.map fun d =>
    (d.1, .file (.document (.ok (.map d.2))))))], []⟩
  environment := []
  users := []
  uid := 0
  platform := .posix

section Reading

variable {w : World} {fs : FileSystem} {source name file imported : Path} {fields : Fields}

theorem parts_eq_ok (fields : Fields) {items : List Value} {more : List Part}
    (hfile : Path.join [source, name] = file)
    (hmain : (sections w.files file).outcome = .ok fields)
    (hitems : importsOf file fields = .ok items)
    (hmore : items.mapM (importedPart w.files source file) = .ok more) :
    parts w source name = .ok (partOf file fields, more) := by
  rw [parts, hfile, hmain, Except.ok_bind, hitems, Except.ok_bind, hmore]
  rfl

theorem importedPart_eq_ok (hfile : Path.join [source, name] = imported)
    (h : (sections fs imported).outcome = .ok fields) :
    importedPart fs source file (.text name) = .ok (partOf imported fields) := by
  rw [Value.text, importedPart, hfile, h]
  rfl

end Reading

end Dotfiles.ProfileDocument
