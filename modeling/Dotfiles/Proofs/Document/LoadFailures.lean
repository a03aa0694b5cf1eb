import Dotfiles.CommandLine.Run
import Dotfiles.Proofs.Document.Imports
import Dotfiles.Proofs.FileTree.Calls
import Dotfiles.Proofs.Profile.DeclarationGrammar

/-!
How loading a document fails. A file that the system refuses to read is reported as such, and what
is read and is not a document is reported as a fault in its format. Four kinds of damage pass
through unreported: a file that is named by a path which cannot be handed to the system, bytes that
are no text, a text that is well formed but stands for nothing or does not end, and numbers with
more digits than are ever written among the keys.
-/

namespace Dotfiles.ProfileDocument

/-- Loading comes to read a file: the one of the document itself, and the one that an import names
once all imports in front of it have been read. -/
inductive ComesToRead (w : World) (source name : Path) : Path → Prop
  | main : ComesToRead w source name (Path.join [source, name])
  | imported {main : Fields} {before after : List Value} {read : List Part} {t : Text}
      (hmain : (sections w.files (Path.join [source, name])).outcome = .ok main)
      (hitems : importsOf (Path.join [source, name]) main = .ok (before ++ .text t :: after))
      (hbefore : before.mapM (importedPart w.files source (Path.join [source, name])) = .ok read) :
      ComesToRead w source name (Path.join [source, t])

/-- Content that neither has sections nor is refused as a document. -/
inductive IsDamaged (file : Path) : Content → Prop
  | undecodable {data : List UInt8} (h : Document.decode? data = none) : IsDamaged file (.bytes data)
  | defective {data : List UInt8} {t : Text} {defect : Yaml.Defect}
      (ht : Document.decode? data = some t) (h : Yaml.read t = .error (.defective defect)) :
      IsDamaged file (.bytes data)
  | tooDeep {data : List UInt8} {t : Text} (ht : Document.decode? data = some t)
      (h : Yaml.read t = .error .tooDeep) : IsDamaged file (.bytes data)
  | unwritable {content : Content} {fields : Fields} {key : Scalar} {value : Value}
      (h : Document.ofContent file content = .ok (.map fields)) (hm : (key, value) ∈ fields)
      (hkey : isSection key = false) (hwritable : key.isWritable = false) : IsDamaged file content

/-- Loading meets damage: in the path of a file that it comes to read, in the content of one, or in
the profile that everything is merged to. -/
inductive MeetsDamage (w : World) (source name : Path) : Prop
  | inPath {file : Path} {defect : Path.Defect} (h : ComesToRead w source name file)
      (hread : w.files.read file = .error (.unusable defect))
  | inFile {file : Path} {found : Content} (h : ComesToRead w source name file)
      (hread : w.files.read file = .ok found) (hdamaged : IsDamaged file found)
  | inProfile {main : Part} {imports : List Part} {data : Fields}
      (hparts : parts w source name = .ok (main, imports))
      (hdata : dataOf main.file (content main imports) = .ok data)
      (hcut : Declaration.IsCutShort w.platform.drives
        (((content main imports).getText? profileSection).getD .null))

/-- Whether an error is one of damage to what has been read. -/
def isDamage : Error → Bool
  | .undecodable _ | .defective .. | .unwritable | .tooDeep => true
  | _ => false

variable {w : World} {fs : FileSystem} {source name file : Path} {e : Error}

section Files

variable {found : Content}

theorem unknownKeys_eq_error_iff {fields : Fields} : unknownKeys fields = .error e ↔
    e = .unwritable ∧ ∃ field ∈ fields, isSection field.1 = false ∧ field.1.isWritable = false := by
  unfold unknownKeys
  simp only
  split
  · rename_i hall
    rw [List.all_eq_true] at hall
    constructor
    · intro h
      cases h
    · rintro ⟨_, field, hm, hkey, hwritable⟩
      have hmem : field.1 ∈ (fields.map Prod.fst).filter fun key => !isSection key :=
        List.mem_filter.2 ⟨List.mem_map_of_mem hm, by simp [hkey]⟩
      rw [hall _ hmem] at hwritable
      cases hwritable
  · rename_i hnot
    rw [Except.error.injEq, eq_comm]
    refine (and_iff_left ?_).symm
    simp only [List.all_eq_true, not_forall] at hnot
    obtain ⟨key, hmem, hwritable⟩ := hnot
    obtain ⟨hmem, hkey⟩ := List.mem_filter.1 hmem
    obtain ⟨field, hm, rfl⟩ := List.mem_map.1 hmem
    exact ⟨field, hm, by simpa using hkey, by simpa using hwritable⟩

/-- What a file holds is refused in its format, unless it is damaged. -/
theorem isDamaged_of_error (h : Document.ofContent file found >>= sectionsOf file = .error e) :
    e.kind? = some .format ∨ isDamage e = true ∧ IsDamaged file found := by
  cases hvalue : Document.ofContent file found with
  | ok v =>
    rw [hvalue, Except.ok_bind] at h
    cases v with
    | map fields =>
      obtain ⟨rfl, ⟨key, value⟩, hm, hkey, hwritable⟩ :=
        unknownKeys_eq_error_iff.1 (Except.map_eq_error_iff.1 h)
      exact .inr ⟨rfl, .unwritable hvalue hm hkey hwritable⟩
    | scalar s =>
      cases s <;> cases h
      all_goals exact .inl rfl
    | _ =>
      cases h
      exact .inl rfl
  | error d =>
    rw [hvalue] at h
    cases h
    cases found with
    | document outcome =>
      cases outcome with
      | ok v => cases hvalue
      | error reason =>
        cases hvalue
        exact .inl rfl
    | bytes data =>
      rw [Document.ofContent, Document.ofBytes] at hvalue
      cases ht : Document.decode? data with
      | none =>
        rw [ht] at hvalue
        cases hvalue
        exact .inr ⟨rfl, .undecodable ht⟩
      | some t =>
        rw [ht] at hvalue
        simp only at hvalue
        split at hvalue
        · cases hvalue
        · cases hvalue
          exact .inl rfl
        · rename_i defect hyaml
          cases hvalue
          exact .inr ⟨rfl, .defective ht hyaml⟩
        · rename_i hyaml
          cases hvalue
          exact .inr ⟨rfl, .tooDeep ht hyaml⟩

theorem sections_of_read_error {failure : CallFailure} (h : fs.read file = .error failure) :
    (sections fs file).outcome = .error (.ofCall .read file failure) := by
  rw [sections_outcome, Document.read, h]
  rfl

theorem sections_of_read (h : fs.read file = .ok found) :
    (sections fs file).outcome = Document.ofContent file found >>= sectionsOf file := by
  rw [sections_outcome, Document.read, h]
  rfl

/-- How the sections in a file are not found. -/
theorem sections_eq_error (h : (sections fs file).outcome = .error e) :
    (∃ failure, fs.read file = .error failure ∧ e = .ofCall .read file failure) ∨
      e.kind? = some .format ∨
      isDamage e = true ∧ ∃ found, fs.read file = .ok found ∧ IsDamaged file found := by
  cases hread : fs.read file with
  | error failure =>
    rw [sections_of_read_error hread] at h
    cases h
    exact .inl ⟨failure, rfl, rfl⟩
  | ok found =>
    rw [sections_of_read hread] at h
    refine .inr ((isDamaged_of_error h).imp_right ?_)
    rintro ⟨he, hdamaged⟩
    exact ⟨he, found, rfl, hdamaged⟩

end Files

section Parts

theorem importsOf_eq_error {fields : Fields} (h : importsOf file fields = .error e) :
    e.kind? = some .format := by
  unfold importsOf at h
  split at h
  · cases h
  · split at h
    · cases h
    · split at h <;> cases h
      rfl

theorem dataOf_eq_error {fields : Fields} (h : dataOf file fields = .error e) :
    e.kind? = some .format := by
  unfold dataOf at h
  split at h
  · cases h
  · split at h
    · cases h
    · split at h <;> cases h
      rfl

/-- An item among the imports is refused, or the file that it names is. -/
theorem importedPart_eq_error {item : Value} (h : importedPart fs source file item = .error e) :
    e.kind? = some .format ∨
      ∃ t, item = .text t ∧ (sections fs (Path.join [source, t])).outcome = .error e := by
  unfold importedPart at h
  split at h
  · exact .inr ⟨_, rfl, Except.map_eq_error_iff.1 h⟩
  · cases h
    exact .inl rfl

/-- Reading a document and its imports fails at one of the files that it comes to. -/
theorem parts_eq_error (h : parts w source name = .error e) : e.kind? = some .format ∨
    ∃ file, ComesToRead w source name file ∧ (sections w.files file).outcome = .error e := by
  rw [parts] at h
  cases hmain : (sections w.files (Path.join [source, name])).outcome with
  | error d =>
    rw [hmain] at h
    cases h
    exact .inr ⟨_, .main, hmain⟩
  | ok main =>
    rw [hmain, Except.ok_bind] at h
    cases hitems : importsOf (Path.join [source, name]) main with
    | error d =>
      rw [hitems] at h
      cases h
      exact .inl (importsOf_eq_error hitems)
    | ok items =>
      rw [hitems, Except.ok_bind, bind_pure_comp, Except.map_eq_error_iff,
        Except.mapM_eq_error_iff] at h
      obtain ⟨before, item, after, read, rfl, hbefore, hitem⟩ := h
      rcases importedPart_eq_error hitem with he | ⟨t, rfl, hsections⟩
      · exact .inl he
      · exact .inr ⟨_, .imported hmain hitems hbefore, hsections⟩

/-- A file that loading comes to read without finding sections in it is the last one. -/
theorem ComesToRead.parts_eq_error (h : ComesToRead w source name file)
    (hfails : (sections w.files file).outcome = .error e) : parts w source name = .error e := by
  cases h with
  | main =>
    rw [parts, hfails]
    rfl
  | @imported main before after read t hmain hitems hbefore =>
    have hitem : importedPart w.files source (Path.join [source, name]) (.text t) = .error e := by
      rw [Value.text, importedPart, hfails]
      rfl
    rw [parts, hmain, Except.ok_bind, hitems, Except.ok_bind,
      Except.mapM_eq_error_iff.2 ⟨before, _, after, read, rfl, hbefore, hitem⟩]
    rfl

end Parts

section Loading

theorem ComesToRead.load_eq_error (h : ComesToRead w source name file)
    (hfails : (sections w.files file).outcome = .error e) :
    (load w source name).outcome = .error e := by
  rw [load_outcome, h.parts_eq_error hfails]
  rfl

theorem outcome_read_eq_error_iff {drives : Bool} {v : Value} :
    (Profile.read drives v).outcome = .error e ↔
      (Declaration.read drives [] v).outcome = .error e := by
  rw [Profile.read, Traced.outcome_bind_eq_error_iff]
  refine or_iff_left ?_
  rintro ⟨_, _, h⟩
  cases h

/-- How loading fails. -/
theorem load_eq_error (h : (load w source name).outcome = .error e) :
    (∃ file failure, ComesToRead w source name file ∧ w.files.read file = .error failure ∧
      e = .ofCall .read file failure) ∨
      (e.kind? = some .format ∨ e.kind? = some .rejectedPath) ∨
      isDamage e = true ∧ MeetsDamage w source name := by
  rw [load_outcome] at h
  cases hparts : parts w source name with
  | error d =>
    rw [hparts] at h
    cases h
    rcases parts_eq_error hparts with he | ⟨file, hcomes, hfails⟩
    · exact .inr (.inl (.inl he))
    · rcases sections_eq_error hfails with ⟨failure, hread, rfl⟩ | he | ⟨he, found, hread, hdamaged⟩
      · exact .inl ⟨file, failure, hcomes, hread, rfl⟩
      · exact .inr (.inl (.inl he))
      · exact .inr (.inr ⟨he, .inFile hcomes hread hdamaged⟩)
  | ok read =>
    obtain ⟨main, imports⟩ := read
    rw [hparts, Except.ok_bind, ofContent] at h
    cases hdata : dataOf main.file (content main imports) with
    | error d =>
      rw [hdata] at h
      cases h
      exact .inr (.inl (.inl (dataOf_eq_error hdata)))
    | ok data =>
      rw [hdata, Except.ok_bind, bind_pure_comp, Except.map_eq_error_iff,
        outcome_read_eq_error_iff] at h
      by_cases he : Declaration.IsFault e
      · exact .inr (.inl he)
      · have hcut := Declaration.isCutShort_of_read he h
        refine .inr (.inr ⟨?_, .inProfile hparts hdata hcut⟩)
        rcases hcut.read_eq_error [] with hread | hread <;>
        · cases h.symm.trans hread
          rfl

/-- Where no name of the tree has a defect, loading fails at a path that has one. -/
theorem ComesToRead.load_eq_unusable {defect : Path.Defect} (h : ComesToRead w source name file)
    (hnames : ∀ name ∈ w.files.root.names, Path.defect? name = none)
    (hdefect : file.defect? = some defect) :
    (load w source name).outcome = .error (.unusablePath .read file defect) :=
  h.load_eq_error (sections_of_read_error
    (FileSystem.eq_unusable_of_defect hnames hdefect).2.2.2)

end Loading

section Commands

open CommandLine

variable {settings : Settings} {command : Command}

end Commands

end Dotfiles.ProfileDocument
