import Dotfiles.Proofs.Profile.InsertedGlobs
import Dotfiles.Proofs.Profile.Written
import Dotfiles.Proofs.Value.Spelling

/-!
Globs that a profile declares for itself, at its root. What else a mapping declares does not
depend on its globs, so a profile with more of them is read as before, with the globs put into
the ignore list of the root.
-/

namespace Dotfiles

open Value

namespace Declaration

/-- The globs that a mapping declares for its own target. -/
def ownGlobs (fields : Fields) : List Text :=
  (((fields.get? ignoreKey).bind fun v => (GlobList.ofValue v).toOption).getD .empty).globs

/-- The fields of a mapping with further globs declared for its own target. -/
def appendGlobs (globs : List Text) (fields : Fields) : Fields :=
  fields.insert ignoreKey (.list ((ownGlobs fields ++ globs).map Value.text))

/-- The reading with another ignore list at the root. -/
def Reading.withIgnore (ignore : Option GlobList) (r : Reading) : Reading :=
  r.withAttributes { r.tree.attributes with ignore := ignore }

variable {drives : Bool} {place : Path} {fields : Fields} {done r : Reading} {globs : List Text}
  {key : Scalar} {value : Value} {list : GlobList}

theorem ofValue_texts (globs : List Text) :
    GlobList.ofValue (.list (globs.map Value.text)) = .ok ⟨globs⟩ := by
  have hitems : (globs.map Value.text).mapM GlobList.globOfValue = .ok globs := by
    induction globs with
    | nil => rfl
    | cons glob rest ih =>
      rw [List.map_cons, List.mapM_cons, ih]
      rfl
  rw [GlobList.ofValue, hitems]
  rfl

section Attributes

theorem ofText?_ne_ignore {key : Text} {slot : AttributeKey} (h : Scalar.text key ≠ ignoreKey)
    (hslot : AttributeKey.ofText? key = some slot) : slot ≠ .ignore := by
  rintro rfl
  rw [← text_of_ofText? hslot] at h
  exact h rfl

/-- No attribute but the globs themselves looks at the globs that are set. -/
theorem setAttribute_withIgnore (drives : Bool) (place : Path) (value : Value)
    {slot : AttributeKey} (h : slot ≠ .ignore) (a : Attributes) (ignore : Option GlobList) :
    setAttribute drives place { a with ignore := ignore } slot value =
      (fun b => { b with ignore := ignore }) <$> setAttribute drives place a slot value := by
  unfold setAttribute
  split
  · rename_i t
    cases normalPath drives t <;> rfl
  · rename_i t
    cases methodOf t t <;> rfl
  · rfl
  · exact absurd rfl h
  · rfl

theorem ignore_setField_of_ne {a : Attributes} (h : key ≠ ignoreKey) :
    (setField a (key, value)).ignore = a.ignore := by
  unfold setField
  split
  · rename_i t ht
    cases ht
    split
    · rename_i slot hslot
      have hsame := setAttribute_withIgnore false [] value (ofText?_ne_ignore h hslot) a a.ignore
      generalize setAttribute false [] a slot value = outcome at hsame ⊢
      cases outcome with
      | error e => rfl
      | ok b =>
        have hb : b = { b with ignore := a.ignore } := Except.ok.inj hsame
        rw [hb]
        rfl
    · rfl
  · rfl

theorem ignore_setField (a : Attributes) (value : Value) :
    (setField a (ignoreKey, value)).ignore = (GlobList.ofValue value).toOption.or a.ignore := by
  have hset : setField a (ignoreKey, value) =
      (setAttribute false [] a .ignore value).toOption.getD a := rfl
  rw [hset, setAttribute]
  cases GlobList.ofValue value <;> rfl

theorem get?_eq_none_of_distinct {rest : Fields}
    (h : Fields.HasDistinctKeys ((ignoreKey, value) :: rest)) :
    Fields.get? ignoreKey rest = none := by
  rw [Fields.get?_eq_none_iff]
  intro f hf
  rw [Scalar.sameKey_comm]
  exact (List.pairwise_cons.1 h).1 f hf

theorem ignore_foldl_setField (hkeys : fields.HasDistinctKeys) (a : Attributes) :
    (fields.foldl setField a).ignore =
      ((fields.get? ignoreKey).bind fun v => (GlobList.ofValue v).toOption).or a.ignore := by
  induction fields generalizing a with
  | nil => rfl
  | cons field rest ih =>
    obtain ⟨key, value⟩ := field
    rw [List.foldl_cons, ih (List.pairwise_cons.1 hkeys).2, Fields.get?]
    split
    · rename_i hs
      obtain rfl := Scalar.sameKey_comm_text key _ hs
      rw [get?_eq_none_of_distinct hkeys]
      exact ignore_setField a value
    · rename_i hs
      rw [ignore_setField_of_ne]
      rintro rfl
      exact hs rfl

end Attributes

section Reading

/-- A field that declares no globs is read alike whatever globs are set. -/
theorem readFields_single_withIgnore (h : key ≠ ignoreKey) (ignore : Option GlobList) :
    (readFields drives place (done.withIgnore ignore) [(key, value)]).outcome =
      Reading.withIgnore ignore <$> (readFields drives place done [(key, value)]).outcome := by
  obtain ⟨⟨own, children⟩, diagnostics⟩ := done
  cases key with
  | text key =>
    simp only [readFields]
    split
    · split
      · rename_i slot hslot
        have hset := setAttribute_withIgnore drives place value (ofText?_ne_ignore h hslot) own ignore
        have hown : (Reading.withIgnore ignore ⟨.node own children, diagnostics⟩).tree.attributes =
            { own with ignore := ignore } := rfl
        rw [hown, Traced.outcome_bind, Traced.outcome_bind, Traced.outcome_ofExcept, hset]
        simp only [ProfileTree.attributes, Traced.outcome_ofExcept]
        cases setAttribute drives place own slot value <;> rfl
      · rfl
    · simp only [Traced.outcome_bind, map_bind]
      rfl
  | _ => rfl

theorem readFields_withIgnore (h : fields.get? ignoreKey = none) (ignore : Option GlobList) :
    (readFields drives place (done.withIgnore ignore) fields).outcome =
      Reading.withIgnore ignore <$> (readFields drives place done fields).outcome := by
  induction fields generalizing done with
  | nil => rfl
  | cons field rest ih =>
    rw [Fields.get?_eq_none_iff] at h ih
    obtain ⟨hfield, hrest⟩ := List.forall_mem_cons.1 h
    have hne : field.1 ≠ ignoreKey := by
      intro he
      rw [he] at hfield
      cases hfield
    rw [readFields_cons _ rest, readFields_cons _ rest, readFields_single_withIgnore hne,
      bind_map_left, map_bind]
    exact congrArg _ (funext fun next => ih hrest)

theorem readFields_single_ignoreKey : (readFields drives place done [(ignoreKey, value)]).outcome =
    .ok r ↔ ∃ list, GlobList.ofValue value = .ok list ∧ r = done.withIgnore (some list) := by
  have hset : (readFields drives place done [(ignoreKey, value)]).outcome =
      done.withAttributes <$> setAttribute drives place done.tree.attributes .ignore value :=
    readFields_slot value (isReserved_text .ignore) (ofText?_text .ignore)
  rw [hset, setAttribute]
  cases GlobList.ofValue value with
  | ok list =>
    constructor
    · intro h
      cases h
      exact ⟨list, rfl, rfl⟩
    · rintro ⟨_, hl, rfl⟩
      cases hl
      rfl
  | error e =>
    constructor
    · intro h
      cases h
    · rintro ⟨_, hl, _⟩
      cases hl

/-- A mapping that declares other globs is read as before, apart from its globs. -/
theorem readFields_insert (hkeys : fields.HasDistinctKeys)
    (hv : GlobList.ofValue value = .ok list)
    (h : (readFields drives place done fields).outcome = .ok r) :
    (readFields drives place done (fields.insert ignoreKey value)).outcome =
      .ok (r.withIgnore (some list)) := by
  induction fields generalizing done with
  | nil =>
    cases h
    exact readFields_single_ignoreKey.2 ⟨list, hv, rfl⟩
  | cons field rest ih =>
    obtain ⟨key, old⟩ := field
    rw [readFields_cons] at h
    obtain ⟨next, hnext, h⟩ := Except.bind_eq_ok_iff.1 h
    rw [Fields.insert]
    split
    · rename_i hs
      obtain rfl := Scalar.sameKey_comm_text key _ hs
      obtain ⟨before, _, rfl⟩ := readFields_single_ignoreKey.1 hnext
      have hnone := get?_eq_none_of_distinct hkeys
      rw [readFields_withIgnore hnone] at h
      obtain ⟨last, hlast, rfl⟩ := Except.map_eq_ok_iff.1 h
      rw [readFields_cons]
      refine Except.bind_eq_ok_iff.2 ⟨_, readFields_single_ignoreKey.2 ⟨list, hv, rfl⟩, ?_⟩
      rw [readFields_withIgnore hnone, hlast]
      rfl
    · rw [readFields_cons]
      exact Except.bind_eq_ok_iff.2 ⟨next, hnext, ih (List.pairwise_cons.1 hkeys).2 h⟩

end Reading

end Declaration

/-- A profile with further globs at its root is read, and has them at the end of the ignore list
of its root. -/
theorem Profile.read_appendGlobs {drives : Bool} {fields : Fields} {profile : Profile}
    (hkeys : fields.HasDistinctKeys) (globs : List Text)
    (h : (Profile.read drives (.map fields)).outcome = .ok profile) :
    ∃ profile',
      (Profile.read drives (.map (Declaration.appendGlobs globs fields))).outcome = .ok profile' ∧
        profile.declarations.Inserts globs profile'.declarations ∧
        profile'.diagnostics = profile.diagnostics := by
  obtain ⟨r, hr, h⟩ := Traced.outcome_bind_eq_ok_iff.1 h
  cases h
  rw [Declaration.read] at hr
  have hinsert := Declaration.readFields_insert hkeys
    (Declaration.ofValue_texts (Declaration.ownGlobs fields ++ globs)) hr
  have hattributes := (Declaration.gathers_readFields hr ProfileTree.gathers_nil).1
  have hown : r.tree.attributes.globs.globs = Declaration.ownGlobs fields := by
    rw [hattributes, Attributes.globs, Declaration.ignore_foldl_setField hkeys]
    rw [ProfileTree.empty, ProfileTree.attributes, Attributes.empty, Option.or_none]
    rfl
  refine ⟨⟨_, r.diagnostics⟩, Traced.outcome_bind_eq_ok_iff.2 ⟨_, hinsert, rfl⟩, ⟨?_, rfl⟩, rfl⟩
  refine ⟨rfl, rfl, rfl, Declaration.ownGlobs fields, [], ?_, ?_⟩
  · rw [List.append_nil, ← hown]
  · rw [List.append_nil]
    rfl

end Dotfiles
