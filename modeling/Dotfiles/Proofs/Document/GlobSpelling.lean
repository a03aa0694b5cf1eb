import Dotfiles.Proofs.Document.Imports
import Dotfiles.Proofs.FileTree.Contents
import Dotfiles.Proofs.Profile.Written
import Dotfiles.Proofs.Value.Spelling

/-!
Spellings of a single glob in profile documents. Reading a declaration does not tell a glob
from a list of nothing but it, but merging imports comes before that, and does.
-/

namespace Dotfiles

open Value

namespace Declaration

variable {drives : Bool} {place : Path}

/-- A glob and a list of nothing but it set the same globs, and other attributes are not
respelled. -/
theorem setAttribute_of_respells {slot : AttributeKey} {v v' : Value}
    (h : RespellsUnder (.text slot.text) v v') (attributes : Attributes) :
    setAttribute drives place attributes slot v' = setAttribute drives place attributes slot v := by
  cases slot with
  | ignore =>
    rw [show Scalar.text AttributeKey.ignore.text = ignoreKey from rfl,
      respellsUnder_ignoreKey] at h
    rcases h with rfl | ⟨t, rfl, rfl⟩ <;> rfl
  | _ =>
    rw [respellsUnder_of_ne (by decide)] at h
    by_cases hv : v.kind = .mapping
    · rw [eq_map_of_kind hv] at h ⊢
      obtain ⟨fields', rfl, _⟩ := respells_map_iff.1 h
      rfl
    · rw [(respells_iff_eq hv).1 h]

mutual

theorem read_of_respells : ∀ {v v' : Value} (place : Path), Respells v v' →
    read drives place v' = read drives place v
  | .map fields, v', place, h => by
    obtain ⟨fields', rfl, hbelow⟩ := respells_map_iff.1 h
    rw [read, read]
    exact readFields_of_respells place _ hbelow
  | .scalar _, _, _, rfl => rfl
  | .list _, _, _, rfl => rfl
  | .set _, _, _, rfl => rfl
  | .pair _ _, _, _, rfl => rfl
  | .endless, _, _, rfl => rfl

theorem readFields_of_respells : ∀ {fields fields' : Fields} (place : Path) (done : Reading),
    RespellsBelow fields fields' →
    readFields drives place done fields' = readFields drives place done fields
  | [], _, _, _, rfl => rfl
  | (key, v) :: rest, fields', place, done, h => by
    rw [RespellsBelow] at h
    obtain ⟨v', rest', rfl, hv, hrest⟩ := h
    have hvalue : RespellsUnder key v v' := hv
    have hmore := fun done => readFields_of_respells place done hrest
    cases key with
    | text key =>
      rw [readFields, readFields]
      split
      · split
        · rename_i slot hslot
          rw [← text_of_ofText? hslot] at hvalue
          simp only [setAttribute_of_respells hvalue, hmore]
        · simp only [hmore]
      · rename_i hreserved
        rw [respellsUnder_of_ne ?_] at hvalue
        · simp only [read_of_respells _ hvalue, hmore]
        · rintro heq
          cases heq
          exact hreserved rfl
    | _ => rfl

end

end Declaration

/-- The content of a file, with every single glob in its document written as a list. -/
def Content.listGlobs : Content → Content
  | .document (.ok v) => .document (.ok v.listGlobs)
  | content => content

/-- The world with every single glob in all documents written as a list. -/
def World.listGlobs (w : World) : World :=
  { w with files := ⟨w.files.root.mapContents Content.listGlobs, w.files.faults⟩ }

theorem World.rel_read_listGlobs (w : World) (file : Path) :
    (Document.read w.files file).Rel Respells (Document.read w.listGlobs.files file) := by
  rw [Document.read, Document.read, World.listGlobs, FileSystem.read_mapContents]
  cases w.files.read file with
  | error e => exact .error _
  | ok content =>
    cases content with
    | bytes data => exact .refl respells_refl
    | document outcome =>
      cases outcome with
      | ok v => exact .ok (respells_listGlobs v)
      | error reason => exact .error _

namespace ProfileDocument

variable {w w' : World} {fs fs' : FileSystem} {file source name : Path}
  {main main' : Part} {imports imports' : List Part}

/-- The entries of the profile in a document that is loaded. -/
def entriesOf (w : World) (source name : Path) : Except Error (List Entry) := do
  let document ← (load w source name).outcome
  document.profile.entries.outcome

/-- Whether a document is another one in which some single globs are written as lists. -/
def Part.Respells (p p' : Part) : Prop :=
  p.file = p'.file ∧ RespellsBelow p.sections p'.sections

section Reading

theorem unknownKeys_of_respells {fields fields' : Fields} (h : RespellsBelow fields fields') :
    unknownKeys fields' = unknownKeys fields := by
  have hkeys : fields'.map Prod.fst = fields.map Prod.fst := (map_fst_of_respells h).symm
  rw [unknownKeys, unknownKeys, hkeys]

theorem rel_sectionsOf {v v' : Value} (h : v.Respells v') :
    (sectionsOf file v).Rel RespellsBelow (sectionsOf file v') := by
  by_cases hv : v.kind = .mapping
  · rw [eq_map_of_kind hv] at h ⊢
    obtain ⟨fields', rfl, hbelow⟩ := respells_map_iff.1 h
    rw [sectionsOf, sectionsOf, unknownKeys_of_respells hbelow]
    cases unknownKeys v.fields with
    | ok keys => exact .ok hbelow
    | error e => exact .error e
  · rw [(respells_iff_eq hv).1 h]
    cases hs : sectionsOf file v with
    | error e => exact .error e
    | ok fields =>
      have hnil : fields = [] := by
        unfold sectionsOf at hs
        split at hs
        · exact (Except.ok.inj hs).symm
        · exact absurd rfl hv
        · cases hs
      rw [hnil]
      exact .ok rfl

theorem respells_getText? {fields fields' : Fields} (h : RespellsBelow fields fields')
    (name : Text) (hname : Scalar.text name ≠ ignoreKey) :
    Option.Rel Value.Respells (fields.getText? name) (fields'.getText? name) := by
  rw [← respellsUnder_of_ne hname]
  exact respells_get? h _

theorem isVoid_of_respells {v v' : Value} (h : v.Respells v') : v'.isVoid = v.isVoid := by
  by_cases hv : v.kind = .mapping
  · rw [eq_map_of_kind hv] at h ⊢
    obtain ⟨fields', rfl, hbelow⟩ := respells_map_iff.1 h
    have hkeys := congrArg List.isEmpty (map_fst_of_respells hbelow)
    rw [List.isEmpty_map, List.isEmpty_map] at hkeys
    exact hkeys.symm
  · rw [(respells_iff_eq hv).1 h]

theorem importsOf_of_respells {fields fields' : Fields} (h : RespellsBelow fields fields') :
    importsOf file fields' = importsOf file fields := by
  have himport := respells_getText? h importSection (by decide)
  unfold importsOf
  generalize fields.getText? importSection = found at himport
  generalize fields'.getText? importSection = found' at himport
  cases himport with
  | none => rfl
  | @some v v' hv =>
    simp only [isVoid_of_respells hv]
    by_cases hkind : v.kind = .mapping
    · rw [eq_map_of_kind hkind] at hv ⊢
      obtain ⟨fields', rfl, _⟩ := respells_map_iff.1 hv
      rfl
    · rw [(respells_iff_eq hkind).1 hv]

theorem respells_partOf {fields fields' : Fields} (h : RespellsBelow fields fields') :
    (partOf file fields).Respells (partOf file fields') := by
  refine ⟨rfl, ?_⟩
  rw [respellsBelow_iff] at h ⊢
  exact List.rel_filter (fun f f' hf => by simp only [hf.1]) h

variable (hfiles : ∀ file, (Document.read fs file).Rel Value.Respells (Document.read fs' file))

include hfiles

theorem rel_sections (file : Path) :
    (sections fs file).outcome.Rel RespellsBelow (sections fs' file).outcome := by
  rw [sections_outcome, sections_outcome]
  exact (hfiles file).bind fun _ _ => rel_sectionsOf

theorem rel_importedPart (item : Value) :
    (importedPart fs source file item).Rel Part.Respells (importedPart fs' source file item) := by
  unfold importedPart
  split
  · rename_i name
    exact (rel_sections hfiles _).map fun _ _ => respells_partOf
  · exact .error _

end Reading

theorem rel_parts (source name : Path) (hfiles : ∀ file,
    (Document.read w.files file).Rel Value.Respells (Document.read w'.files file)) :
    (parts w source name).Rel (fun p p' => p.1.Respells p'.1 ∧ p.2.Forall₂ Part.Respells p'.2)
      (parts w' source name) := by
  unfold parts
  refine (rel_sections hfiles _).bind fun main main' hmain => ?_
  rw [importsOf_of_respells hmain]
  cases importsOf (Path.join [source, name]) main with
  | error e => exact .error e
  | ok items =>
    exact (Except.Rel.mapM (rel_importedPart hfiles) items).bind fun _ _ hmore =>
      .ok ⟨respells_partOf hmain, hmore⟩

section Contents

theorem respells_documents (hmain : main.Respells main')
    (himports : List.Forall₂ Part.Respells imports imports') :
    List.Forall₂ Value.Respells (documents main imports) (documents main' imports') := by
  unfold documents
  rw [List.forall₂_map_left_iff, List.forall₂_map_right_iff]
  refine (List.Forall₂.cons hmain himports).imp fun p p' hp => ?_
  exact respells_map_iff.2 ⟨_, rfl, hp.2⟩

theorem rel_dataOf {fields fields' : Fields}
    (h : Option.Rel HaveSameShape (fields.getText? dataSection) (fields'.getText? dataSection)) :
    (dataOf file fields).Rel (fun _ _ => True) (dataOf file fields') := by
  unfold dataOf
  generalize fields.getText? dataSection = found at h
  generalize fields'.getText? dataSection = found' at h
  cases h with
  | none => exact .ok trivial
  | @some v v' hv =>
    by_cases hkind : v.kind = .mapping
    · rw [eq_map_of_kind hkind, eq_map_of_kind (hv.kind_eq.trans hkind)]
      simp only
      split <;> split <;> exact .ok trivial
    · rw [hv.eq_of_ne_mapping hkind]
      exact .refl fun _ => trivial

variable (hmain : main.Respells main') (himports : List.Forall₂ Part.Respells imports imports')
  (hkeyed : ∀ d ∈ documents main imports, d.isKeyed = true)

include hmain himports hkeyed

theorem rel_getText?_content {R : Value → Value → Prop} {name : Text}
    (h : Option.Rel R (merged? (under (.text name) (documents main imports)))
      (merged? (under (.text name) (documents main' imports')))) :
    Option.Rel R ((content main imports).getText? name) ((content main' imports').getText? name) := by
  have hkeyed' := isKeyed_of_forall₂ (respells_documents hmain himports) hkeyed
  rwa [Fields.getText?, Fields.getText?, get?_content hkeyed, get?_content hkeyed']

/-- Merged documents in two spellings give the same entries if, wherever the profile declares
globs, the values that take part are indifferent to spelling. -/
theorem entries_ofContent (hdrives : w'.platform.drives = w.platform.drives)
    (hplaces : ∀ place, AreIndifferent
      ((takingPart (.text profileSection :: (place ++ [ignoreKey])) (documents main imports)).zip
        (takingPart (.text profileSection :: (place ++ [ignoreKey]))
          (documents main' imports')))) :
    (ofContent w' file (content main' imports') >>= fun d => d.profile.entries.outcome) =
      ofContent w file (content main imports) >>= fun d => d.profile.entries.outcome := by
  have hunder : ∀ name : Text, Scalar.text name ≠ ignoreKey →
      List.Forall₂ Value.Respells (under (.text name) (documents main imports))
        (under (.text name) (documents main' imports')) := by
    intro name hname
    rw [← respellsUnder_of_ne hname]
    exact respells_under (respells_documents hmain himports) _
  have hdata := rel_getText?_content hmain himports hkeyed
    (haveSameShape_merged? (hunder dataSection (by decide)))
  have hprofile := rel_getText?_content hmain himports hkeyed (rel_merged?
    (hunder profileSection (by decide)) (isKeyed_under hkeyed _) fun place => by
      simpa only [takingPart_documents] using hplaces place)
  have hread : Profile.read w'.platform.drives
        (((content main' imports').getText? profileSection).getD .null) =
      Profile.read w.platform.drives
        (((content main imports).getText? profileSection).getD .null) := by
    rw [hdrives, Profile.read, Profile.read]
    generalize (content main imports).getText? profileSection = found at hprofile
    generalize (content main' imports').getText? profileSection = found' at hprofile
    cases hprofile with
    | none => rfl
    | some hv => rw [Option.getD_some, Option.getD_some, Declaration.read_of_respells [] hv]
  rw [ofContent, ofContent, hread, bind_assoc, bind_assoc]
  symm
  refine Except.rel_eq_iff.1 ((rel_dataOf hdata).bind fun data data' _ => Except.rel_eq_iff.2 ?_)
  rw [bind_assoc, bind_assoc]
  rfl

end Contents

/-- Respelling globs to which all places of the profile are indifferent does not change what
loading and resolving a profile gives. -/
theorem entriesOf_respelled (hdrives : w'.platform.drives = w.platform.drives)
    (hfiles : ∀ file,
      (Document.read w.files file).Rel Value.Respells (Document.read w'.files file))
    (hkeyed : ∀ main imports, parts w source name = .ok (main, imports) →
      ∀ d ∈ documents main imports, d.isKeyed = true)
    (hplaces : ∀ main imports main' imports', parts w source name = .ok (main, imports) →
      parts w' source name = .ok (main', imports') → ∀ place, AreIndifferent
        ((takingPart (.text profileSection :: (place ++ [ignoreKey])) (documents main imports)).zip
          (takingPart (.text profileSection :: (place ++ [ignoreKey]))
            (documents main' imports')))) :
    entriesOf w' source name = entriesOf w source name := by
  have hparts := rel_parts source name hfiles
  unfold entriesOf
  rw [load_outcome, load_outcome, bind_assoc, bind_assoc]
  cases hp : parts w source name with
  | error e =>
    rw [hp] at hparts
    generalize parts w' source name = outcome at hparts ⊢
    cases hparts
    rfl
  | ok p =>
    cases hp' : parts w' source name with
    | error e =>
      rw [hp, hp'] at hparts
      cases hparts
    | ok p' =>
      rw [hp, hp'] at hparts
      obtain @⟨_, _, hmain, himports⟩ := hparts
      rw [Except.ok_bind, Except.ok_bind, ← hmain.1]
      exact entries_ofContent hmain himports (hkeyed p.1 p.2 hp) hdrives
        (hplaces p.1 p.2 p'.1 p'.2 hp hp')

/-- A string and a list of nothing but it are the same globs once a profile is read, so a
profile in which some are respelled gives the same entries or the same error, as long as
every place that declares globs is indifferent to that. Before that, globs are merged like
all values: a list extends a list, a string replaces what is there, and a list leaves a
string as it is. -/
theorem glob_spelling :
    (∀ {w w' : World} {source name : Path}, w'.platform.drives = w.platform.drives →
      (∀ file, (Document.read w.files file).Rel Value.Respells (Document.read w'.files file)) →
      (∀ main imports, parts w source name = .ok (main, imports) →
        ∀ d ∈ documents main imports, d.isKeyed = true) →
      (∀ main imports main' imports', parts w source name = .ok (main, imports) →
        parts w' source name = .ok (main', imports') → ∀ place, AreIndifferent
          ((takingPart (.text profileSection :: (place ++ [ignoreKey]))
            (documents main imports)).zip
              (takingPart (.text profileSection :: (place ++ [ignoreKey]))
                (documents main' imports')))) →
      entriesOf w' source name = entriesOf w source name) ∧
    ∀ {main next : Part} {earlier : List Part} {path : List Scalar} {old v : Value},
      (map next.sections).isKeyed = true →
      (map (content main earlier)).at? path = some old →
      (map next.sections).at? path = some v →
      (∀ globs more, old = .list globs → v = .list more →
        (map (content main (earlier ++ [next]))).at? path = some (.list (globs ++ more))) ∧
      (∀ t, v = text t → (map (content main (earlier ++ [next]))).at? path = some (text t)) ∧
      ∀ t more, old = text t → v = .list more →
        (map (content main (earlier ++ [next]))).at? path = some (text t) := by
  refine ⟨entriesOf_respelled, ?_⟩
  intro main next earlier path old v hkeyed hold hv
  rw [at?_content_append hold hkeyed (spares_of_at? hv), hv, Option.elim_some]
  refine ⟨?_, ?_, ?_⟩
  · rintro globs more rfl rfl
    rw [merge_list]
  · rintro t rfl
    rw [merge_of_single rfl]
  · rintro t more rfl rfl
    exact congrArg some (merge_eq_left (by simp [kind]) (.inr (by simp [kind, text])))

/-- A document that declares globs for a target. -/
def globMain (globs : Value) : Fields :=
  [(.text importSection, .text "x.yaml".toList),
    (.text profileSection, .map [(.text "a".toList, .map [
      (.text "~source".toList, .text "f".toList), (ignoreKey, globs)])])]

/-- An import that declares globs for the same target. -/
def globImport (globs : Value) : Fields :=
  [(.text profileSection, .map [(.text "a".toList, .map [(ignoreKey, globs)])])]

/-- The two documents in their directory. -/
def globWorld (first second : Value) : World :=
  worldOf [("dbot.yaml".toList, globMain first), ("x.yaml".toList, globImport second)]

theorem parts_globWorld (first second : Value) :
    parts (globWorld first second) "/s".toList fileName =
      .ok (partOf "/s/dbot.yaml".toList (globMain first),
        [partOf "/s/x.yaml".toList (globImport second)]) := by
  have himport : importedPart (globWorld first second).files "/s".toList
      "/s/dbot.yaml".toList (.text "x.yaml".toList) =
        .ok (partOf "/s/x.yaml".toList (globImport second)) :=
    importedPart_eq_ok (by decide +kernel) rfl
  refine parts_eq_ok (globMain first) (by decide +kernel) rfl rfl ?_
  rw [List.mapM_cons, himport]
  rfl

theorem entriesOf_globWorld (first second : Value) :
    entriesOf (globWorld first second) "/s".toList fileName =
      (ofContent (globWorld first second) "/s/dbot.yaml".toList
        (content (partOf "/s/dbot.yaml".toList (globMain first))
          [partOf "/s/x.yaml".toList (globImport second)]) >>= fun d =>
            d.profile.entries.outcome) := by
  rw [entriesOf, load_outcome, parts_globWorld]
  rfl

/-- A string in the main document is not extended by an import, but a list of it is. -/
theorem glob_spelling_counts :
    ∃ w : World,
      (∀ file, (Document.read w.files file).Rel Value.Respells
        (Document.read w.listGlobs.files file)) ∧
      (entriesOf w "/s".toList fileName).toOption =
        some [⟨"a".toList, "f".toList, .copy, false, ⟨["*.bak".toList]⟩⟩] ∧
      (entriesOf w.listGlobs "/s".toList fileName).toOption =
        some [⟨"a".toList, "f".toList, .copy, false, ⟨["*.bak".toList, "*.swp".toList]⟩⟩] := by
  refine ⟨globWorld (.text "*.bak".toList) (.list [.text "*.swp".toList]), World.rel_read_listGlobs _,
    ?_, ?_⟩
  · rw [entriesOf_globWorld]
    decide +kernel
  · have hlisted : (globWorld (.text "*.bak".toList) (.list [.text "*.swp".toList])).listGlobs =
        globWorld (.list [.text "*.bak".toList]) (.list [.text "*.swp".toList]) := rfl
    rw [hlisted, entriesOf_globWorld]
    decide +kernel

/-- A string that an import adds to an empty list may be written as a list. -/
theorem glob_spelling_single_import :
    entriesOf (globWorld (.list []) (.text "*.swp".toList)).listGlobs "/s".toList fileName =
        entriesOf (globWorld (.list []) (.text "*.swp".toList)) "/s".toList fileName ∧
      (entriesOf (globWorld (.list []) (.text "*.swp".toList)) "/s".toList fileName).toOption =
        some [⟨"a".toList, "f".toList, .copy, false, ⟨["*.swp".toList]⟩⟩] := by
  refine ⟨?_, by rw [entriesOf_globWorld]; decide +kernel⟩
  have hlisted : (globWorld (.list []) (.text "*.swp".toList)).listGlobs =
      globWorld (.list []) (.list [.text "*.swp".toList]) := rfl
  refine glob_spelling.1 rfl (World.rel_read_listGlobs _) ?_ ?_
  · intro main imports hparts
    rw [parts_globWorld] at hparts
    cases hparts
    decide +kernel
  · intro main imports main' imports' hparts hparts' place
    rw [hlisted] at hparts'
    rw [parts_globWorld] at hparts hparts'
    cases hparts
    cases hparts'
    -- of a section, only what stands under its name takes part
    rw [takingPart_documents, takingPart_documents]
    apply areIndifferent_of_paths ?_ List.getLast?_concat
    intro own hown hlast
    have hpath : own = [.text "a".toList, ignoreKey] := by
      revert own
      decide +kernel
    subst hpath
    show AreIndifferent [(.list [], .list []),
      (.text "*.swp".toList, .list [.text "*.swp".toList])]
    intro before t after h hafter
    left
    rcases before with _ | ⟨p, _ | ⟨q, rest⟩⟩
    · simp [text] at h
    · simp only [List.cons_append, List.nil_append, List.cons.injEq] at h
      obtain ⟨rfl, _, rfl⟩ := h
      simp
    · simp at h

end ProfileDocument

end Dotfiles
