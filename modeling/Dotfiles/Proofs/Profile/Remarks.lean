import Dotfiles.Proofs.Profile.Components
import Dotfiles.Proofs.Profile.Grammar

/-!
Remarks on a profile. There is one for every reserved key of a mapping that is a declaration, if the
key is not known, in the order in which the document writes them. Such keys do nothing else: without
them a document is read to the same tree, or fails in the same way.
-/

namespace Dotfiles

/-- The path that a sequence of keys leads to, with slashes between them. A key that means nothing
leaves it where it is. -/
def placeOf (keys : List Path) : Path := Path.ofSegments (keys.filter (· ≠ []))

namespace Declaration

mutual

/-- The reserved keys of a declaration that are not known, in the order in which it writes them,
each with the keys that lead to its mapping. Values of reserved keys are no declarations. -/
def unknownAttributes : Value → List (List Path × Text)
  | .map fields => unknownAttributesOf fields
  | _ => []

/-- The reserved keys that are not known among fields and below them. -/
def unknownAttributesOf : List (Scalar × Value) → List (List Path × Text)
  | [] => []
  | (.text key, value) :: rest =>
    if isReserved key then
      match AttributeKey.ofText? key with
      | some _ => unknownAttributesOf rest
      | none => ([], key) :: unknownAttributesOf rest
    else
      (unknownAttributes value).map (fun (keys, unknown) =>
        (Path.normalForm key :: keys, unknown)) ++ unknownAttributesOf rest
  | _ :: rest => unknownAttributesOf rest

end

mutual

/-- A declaration without the reserved keys that are not known. -/
def withoutUnknown : Value → Value
  | .map fields => .map (withoutUnknownOf fields)
  | v => v

/-- Fields without the reserved keys that are not known, at any depth. -/
def withoutUnknownOf : List (Scalar × Value) → List (Scalar × Value)
  | [] => []
  | (.text key, value) :: rest =>
    if isReserved key then
      match AttributeKey.ofText? key with
      | some _ => (.text key, value) :: withoutUnknownOf rest
      | none => withoutUnknownOf rest
    else (.text key, withoutUnknown value) :: withoutUnknownOf rest
  | field :: rest => field :: withoutUnknownOf rest

end

/-- The remark that a key is not known, at the place that its keys lead to. -/
def remarkAt (keys : List Path) (unknown : List Path × Text) : Diagnostic :=
  .unknownAttribute unknown.2 (placeOf (keys ++ unknown.1))

/-- The reading without its remarks. -/
def Reading.silent (r : Reading) : Reading := { r with diagnostics := [] }

variable {drives : Bool} {place : Path}

section Places

open Dotfiles.Path

variable {keys : List Path}

theorem components_ne_nil {key : Path} (h : IsPlainPath key) (hne : key ≠ []) :
    components key ≠ [] := by
  intro hnil
  have heq := h.eq
  rw [hnil] at heq
  exact hne heq.symm

/-- A path is made of the components of its keys, one after another. -/
theorem ofSegments_flatMap_components (h : ∀ key ∈ keys, IsPlainPath key) (hne : [] ∉ keys) :
    ofSegments (keys.flatMap components) = ofSegments keys := by
  induction keys with
  | nil => rfl
  | cons key rest ih =>
    rw [List.forall_mem_cons] at h
    rw [List.mem_cons, not_or] at hne
    have hkey := components_ne_nil h.1 (Ne.symm hne.1)
    cases rest with
    | nil =>
      rw [List.flatMap_singleton, h.1.eq]
      rfl
    | cons next more =>
      have hnext := components_ne_nil (h.2 next (by simp)) fun he => hne.2 (by simp [he])
      have hbelow : (next :: more).flatMap components ≠ [] := by simp [hnext]
      rw [List.flatMap_cons, ofSegments_append hkey hbelow, h.1.eq, ih h.2 hne.2]
      exact (ofSegments_append (a := [key]) (by simp) (by simp)).symm

theorem flatMap_components_filter (keys : List Path) :
    (keys.filter (· ≠ [])).flatMap components = keys.flatMap components := by
  induction keys with
  | nil => rfl
  | cons key rest ih =>
    have hnil : components [] = [] := rfl
    by_cases hkey : key = []
    · rw [List.filter_cons_of_neg (by simp [hkey]), ih, List.flatMap_cons, hkey, hnil,
        List.nil_append]
    · rw [List.filter_cons_of_pos (by simpa using hkey), List.flatMap_cons, ih, List.flatMap_cons]

theorem placeOf_eq (h : ∀ key ∈ keys, IsPlainPath key) :
    placeOf keys = ofSegments (keys.flatMap components) := by
  rw [← flatMap_components_filter]
  refine (ofSegments_flatMap_components (fun key hk => h key ?_) (by simp)).symm
  exact List.mem_of_mem_filter hk

/-- Reading goes down by one key at a time. -/
theorem join_placeOf (h : ∀ key ∈ keys, IsPlainPath key) {key : Path} (hkey : IsPlainPath key) :
    join [placeOf keys, key] = placeOf (keys ++ [key]) := by
  have hall : ∀ k ∈ keys ++ [key], IsPlainPath k := by
    simpa [or_imp, forall_and] using ⟨h, hkey⟩
  have hnames : ∀ name ∈ keys.flatMap components, IsPlain name := by
    intro name hname
    obtain ⟨k, hk, hname⟩ := List.mem_flatMap.1 hname
    exact (h k hk).plain name hname
  have hjoin := join_ofSegments hnames hkey.plain
  rw [hkey.eq] at hjoin
  rw [placeOf_eq h, hjoin, placeOf_eq hall, List.flatMap_append, List.flatMap_singleton]

end Places

section Reading

open Dotfiles.Path

/-- What is written below a key is plain if the key is and if what is written for it is. -/
theorem isPlainPath_of_writtenBelow {key : Text} {value : Value} (hres : isReserved key = false)
    (h : ∀ d ∈ writtenBelow [(.text key, value)], ∀ k ∈ d.1, IsPlainPath k) :
    IsPlainPath (normalForm key) ∧ ∀ d ∈ written value, ∀ k ∈ d.1, IsPlainPath k := by
  rw [writtenBelow, if_neg (by simp [hres]), writtenBelow, List.append_nil] at h
  have hunder : ∀ d ∈ written value, ∀ k ∈ normalForm key :: d.1, IsPlainPath k :=
    fun d hd => h (normalForm key :: d.1, d.2) (List.mem_map.2 ⟨d, hd, rfl⟩)
  obtain ⟨d, hd⟩ := List.exists_mem_of_ne_nil _ (written_ne_nil value)
  exact ⟨hunder d hd _ List.mem_cons_self,
    fun e he k hk => hunder e he k (List.mem_cons_of_mem _ hk)⟩

mutual

/-- While a value is read one remark is made for every reserved key of it that is not known. -/
theorem diagnostics_read {r : Reading} : ∀ {v : Value} {keys : List Path},
    (read drives (placeOf keys) v).outcome = .ok r → (∀ key ∈ keys, IsPlainPath key) →
      (∀ d ∈ written v, ∀ key ∈ d.1, IsPlainPath key) →
        r.diagnostics = (unknownAttributes v).map (remarkAt keys)
  | .scalar .null, _, h, _, _ => by
    cases h
    rfl
  | .scalar (.text t), _, h, _, _ => by
    rw [read, Traced.outcome_bind_eq_ok_iff] at h
    obtain ⟨_, _, h⟩ := h
    cases h
    rfl
  | .map fields, keys, h, hkeys, hplain => by
    rw [read] at h
    rw [written, List.forall_mem_cons] at hplain
    exact diagnostics_readFields h hkeys hplain.2
  | .list items, _, h, _, _ | .scalar (.bool b), _, h, _, _ | .scalar (.int n), _, h, _, _
  | .scalar (.float x), _, h, _, _ | .scalar .nan, _, h, _, _ | .scalar (.bytes data), _, h, _, _
  | .scalar (.date _ _ _), _, h, _, _ | .scalar (.moment m), _, h, _, _ | .set members, _, h, _, _
  | .pair a b, _, h, _, _ | .endless, _, h, _, _ => by simp [read] at h

theorem diagnostics_readFields {r done : Reading} :
    ∀ {fields : List (Scalar × Value)} {keys : List Path},
      (readFields drives (placeOf keys) done fields).outcome = .ok r →
        (∀ key ∈ keys, IsPlainPath key) →
          (∀ d ∈ writtenBelow fields, ∀ key ∈ d.1, IsPlainPath key) →
            r.diagnostics = done.diagnostics ++ (unknownAttributesOf fields).map (remarkAt keys)
  | [], _, h, _, _ => by
    cases h
    rw [unknownAttributesOf, List.map_nil, List.append_nil]
  | (.text key, value) :: rest, keys, h, hkeys, hplain => by
    rw [readFields_cons, Except.bind_eq_ok_iff] at h
    obtain ⟨next, hnext, h⟩ := h
    rw [writtenBelow_cons, List.forall_mem_append] at hplain
    have hrest := diagnostics_readFields h hkeys hplain.2
    rw [hrest, unknownAttributesOf]
    cases hres : isReserved key with
    | true =>
      rw [if_pos rfl]
      cases hslot : AttributeKey.ofText? key with
      | some slot =>
        rw [readFields_slot value hres hslot, Except.map_eq_ok_iff] at hnext
        obtain ⟨a, _, rfl⟩ := hnext
        rfl
      | none =>
        rw [readFields_unknown value hres hslot] at hnext
        cases hnext
        simp [Reading.remark, remarkAt]
    | false =>
      rw [readFields_target value hres, Except.bind_eq_ok_iff] at hnext
      obtain ⟨target, htarget, hnext⟩ := hnext
      obtain ⟨child, hchild, rfl⟩ := Except.map_eq_ok_iff.1 hnext
      obtain ⟨rfl, -⟩ := normalPath_eq_ok htarget
      -- only here the place changes: the remarks on what is below are made one key further down
      obtain ⟨hkey, hvalue⟩ := isPlainPath_of_writtenBelow hres hplain.1
      rw [join_placeOf hkeys hkey] at hchild
      have hall : ∀ k ∈ keys ++ [Path.normalForm key], IsPlainPath k := by
        simpa [or_imp, forall_and] using ⟨hkeys, hkey⟩
      have hbelow := diagnostics_read hchild hall hvalue
      rw [if_neg (by simp), List.map_append, List.map_map, Reading.addChild, hbelow,
        List.append_assoc]
      simp [remarkAt]
  | (.null, value) :: rest, _, h, _, _ | (.bool _, value) :: rest, _, h, _, _
  | (.int _, value) :: rest, _, h, _, _ | (.float _, value) :: rest, _, h, _, _
  | (.nan, value) :: rest, _, h, _, _ | (.bytes _, value) :: rest, _, h, _, _
  | (.date _ _ _, value) :: rest, _, h, _, _ | (.moment _, value) :: rest, _, h, _, _ => by
    simp [readFields] at h

end

end Reading

section Removal

mutual

/-- A value without the keys that are not known is read in the same way, without remarks. -/
theorem outcome_read_withoutUnknown : ∀ (v : Value) (place : Path),
    (read drives place (withoutUnknown v)).outcome =
      Reading.silent <$> (read drives place v).outcome
  | .scalar .null, _ => rfl
  | .scalar (.text t), _ => by
    rw [withoutUnknown, read]
    simp only [Traced.outcome_bind, Traced.outcome_ofExcept]
    cases attributesOfText drives t <;> rfl
    simp
  | .map fields, place => outcome_readFields_withoutUnknown fields place ⟨.empty, []⟩
  | .list items, _ | .scalar (.bool b), _ | .scalar (.int n), _
  | .scalar (.float x), _ | .scalar .nan, _ | .scalar (.bytes data), _
  | .scalar (.date _ _ _), _ | .scalar (.moment m), _ | .set members, _
  | .pair a b, _ | .endless, _ => rfl

theorem outcome_readFields_withoutUnknown : ∀ (fields : List (Scalar × Value)) (place : Path)
    (done : Reading),
    (readFields drives place done.silent (withoutUnknownOf fields)).outcome =
      Reading.silent <$> (readFields drives place done fields).outcome
  | [], _, _ => rfl
  | (.text key, value) :: rest, place, done => by
    rw [readFields_cons, withoutUnknownOf]
    cases hres : isReserved key with
    | true =>
      rw [if_pos rfl]
      cases hslot : AttributeKey.ofText? key with
      | some slot =>
        -- attributes are set in the tree, which remarks do not touch
        have hown : done.silent.tree.attributes = done.tree.attributes := rfl
        dsimp only
        rw [readFields_cons, readFields_slot value hres hslot, readFields_slot value hres hslot,
          hown]
        cases setAttribute drives place done.tree.attributes slot value with
        | error e => rfl
        | ok a => exact outcome_readFields_withoutUnknown rest place (done.withAttributes a)
      | none =>
        dsimp only
        rw [readFields_unknown value hres hslot]
        exact outcome_readFields_withoutUnknown rest place (done.remark _)
    | false =>
      rw [if_neg (by simp), readFields_cons, readFields_target _ hres, readFields_target _ hres]
      cases normalPath drives key with
      | error e => rfl
      | ok target =>
        rw [Except.ok_bind, Except.ok_bind, outcome_read_withoutUnknown value]
        cases (read drives (Path.join [place, target]) value).outcome with
        | error e => rfl
        | ok child =>
          exact outcome_readFields_withoutUnknown rest place (done.addChild target child)
  | (.null, value) :: rest, _, _ | (.bool _, value) :: rest, _, _
  | (.int _, value) :: rest, _, _ | (.float _, value) :: rest, _, _
  | (.nan, value) :: rest, _, _ | (.bytes _, value) :: rest, _, _
  | (.date _ _ _, value) :: rest, _, _ | (.moment _, value) :: rest, _, _ => rfl

end

end Removal

end Declaration

open Declaration

/-- Every reserved key that is not known is remarked on once, in the order of the document and at
the path that the keys above it lead to, and without all of these keys the profile has the same
entries, or the same error, and no remarks. -/
theorem Profile.remarks_read {drives : Bool} {document : Value} {profile : Profile}
    (h : (Profile.read drives document).outcome = .ok profile)
    (hlines : ∀ d ∈ written document, ∀ key ∈ d.1, ∀ name ∈ Path.components key,
      ¬ Path.IsDotLine name) :
    profile.diagnostics = (unknownAttributes document).map (fun (keys, unknown) =>
      .unknownAttribute unknown (placeOf keys)) ∧
    ∃ cleaned, (Profile.read drives (withoutUnknown document)).outcome = .ok cleaned ∧
      cleaned.diagnostics = [] ∧ cleaned.entries = profile.entries := by
  rw [Profile.read, Traced.outcome_bind_eq_ok_iff] at h
  obtain ⟨reading, hread, hprofile⟩ := h
  cases hprofile
  have hplain : ∀ d ∈ written document, ∀ key ∈ d.1, Path.IsPlainPath key := by
    intro d hd key hkey
    obtain ⟨p, rfl⟩ := (isNormal_of_mem_written hd).1 key hkey
    exact Path.isPlainPath_normalForm (hlines d hd _ hkey)
  have hremarks : reading.diagnostics = (unknownAttributes document).map (remarkAt []) :=
    diagnostics_read hread (by simp) hplain
  have hcleaned : (Declaration.read drives [] (withoutUnknown document)).outcome =
      .ok reading.silent := by
    rw [outcome_read_withoutUnknown, hread]
    rfl
  refine ⟨hremarks, ⟨reading.tree, []⟩, ?_, rfl, rfl⟩
  rw [Profile.read, Traced.outcome_bind, hcleaned]
  rfl

/-- A document that writes one mapping in two ways and unknown keys at three depths. -/
def remarkedDocument : Value :=
  .map [
    (.text "a/b".toList, .map [
      (.text "~mode".toList, .scalar (.int 7)),
      (.text "c".toList, .map [
        (.text "~source".toList, .scalar (.text "x".toList)),
        (.text "~".toList, .scalar .null)])]),
    (.text "~Source".toList, .map [(.text "~mode".toList, .scalar .null)]),
    (.text "./a//b/".toList, .map [
      (.text "..".toList, .map [(.text "~mode".toList, .list [])]),
      (.text "~type".toList, .scalar (.text "link".toList))])]

/-- The keys of a mapping that means its own place lead no further, and keys are remarked on where
they are written, although the mappings are merged. -/
theorem Profile.remarks_read_merged :
    ∃ profile, (Profile.read false remarkedDocument).outcome = .ok profile ∧
      profile.diagnostics = [
        .unknownAttribute "~mode".toList "a/b".toList,
        .unknownAttribute "~".toList "a/b/c".toList,
        .unknownAttribute "~Source".toList [],
        .unknownAttribute "~mode".toList "a/b".toList] := by
  have hok : (Profile.read false remarkedDocument).outcome.isOk = true := by
    rw [isOk_profile]
    decide +kernel
  obtain ⟨profile, hread⟩ := Except.isOk_iff.1 hok
  refine ⟨profile, hread, ?_⟩
  rw [(Profile.remarks_read hread (by decide +kernel)).1]
  decide +kernel

end Dotfiles
