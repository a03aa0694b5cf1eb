import Dotfiles.Profile.Declaration
import Dotfiles.Proofs.Except
import Dotfiles.Proofs.Path.Plain
import Dotfiles.Proofs.Profile.Gathering

/-!
The declarations of a profile document in the order in which it writes them. Reading a
document gathers exactly these.
-/

namespace Dotfiles

/-- The normal form of a path, whatever it begins with. -/
def Path.normalForm (p : Path) : Path := Path.ofSegments (Path.normalComponents p)

theorem Path.isPlainPath_normalForm {p : Path}
    (h : ∀ name ∈ Path.components (Path.normalForm p), ¬ Path.IsDotLine name) :
    Path.IsPlainPath (Path.normalForm p) := by
  rw [Path.normalForm, Path.components_ofSegments_normalComponents] at h
  apply Path.isPlainPath_ofSegments
  intro name hn
  exact Path.isPlain_of_mem_normalComponents hn (h name hn)

namespace Declaration

/-- What a text declares, nothing if it declares nothing well. -/
def textAttributes (t : Text) : Attributes :=
  (attributesOfText false t).toOption.getD .empty

/-- The attributes with the one that a field of a mapping sets, if it sets one. -/
def setField (a : Attributes) (field : Scalar × Value) : Attributes :=
  match field.1 with
  | .text key =>
    match AttributeKey.ofText? key with
    | some slot => (setAttribute false [] a slot field.2).toOption.getD a
    | none => a
  | _ => a

mutual

/-- The declarations of a value, in the order in which it writes them, each with the keys
that lead to it. What a mapping declares for itself counts where the mapping begins. -/
def written : Value → List (List Path × Attributes)
  | .scalar (.text t) => [([], textAttributes t)]
  | .map fields => ([], fields.foldl setField .empty) :: writtenBelow fields
  | _ => [([], .empty)]

/-- The declarations below a mapping with the given fields. Keys are in normal form. -/
def writtenBelow : List (Scalar × Value) → List (List Path × Attributes)
  | [] => []
  | (.text key, value) :: rest =>
    if isReserved key then writtenBelow rest
    else ProfileTree.under (Path.normalForm key) (written value) ++ writtenBelow rest
  | _ :: rest => writtenBelow rest

end

section Reading

variable {drives : Bool} {place : Path}

theorem isRejected_false {mark : Text} (h : Path.isRejected drives mark = false) :
    Path.isRejected false mark = false := by
  unfold Path.isRejected at h ⊢
  cases hm : mark.isEmpty with
  | true => rfl
  | false =>
    rw [hm, Bool.not_false, Bool.true_and, Bool.or_eq_false_iff] at h
    rw [h.2]
    rfl

/-- Drives only make fewer paths acceptable; an accepted path has one normal form. -/
theorem normalPath_eq_ok {p q : Path} (h : normalPath drives p = .ok q) :
    q = Path.normalForm p ∧ normalPath false p = .ok q := by
  unfold normalPath Path.normalize at h ⊢
  cases hr : Path.isRejected drives (Path.drivePrefix p) with
  | true =>
    rw [if_pos hr] at h
    cases h
  | false =>
    have hf := isRejected_false hr
    rw [if_neg (by simp [hr])] at h
    rw [if_neg (by simp [hf])]
    cases h
    exact ⟨rfl, rfl⟩

theorem attributesOfText_false {t : Text} {a : Attributes}
    (h : attributesOfText drives t = .ok a) : attributesOfText false t = .ok a := by
  unfold attributesOfText at h ⊢
  split at h
  · exact h
  · obtain ⟨q, hq, ha⟩ := Except.map_eq_ok_iff.1 h
    exact Except.map_eq_ok_iff.2 ⟨q, (normalPath_eq_ok hq).2, ha⟩

theorem attributesOfText_eq_ok {t : Text} {a : Attributes}
    (h : attributesOfText drives t = .ok a) : textAttributes t = a := by
  rw [textAttributes, attributesOfText_false h]
  rfl

theorem setAttribute_false {a b : Attributes} {slot : AttributeKey} {value : Value}
    (h : setAttribute drives place a slot value = .ok b) :
    setAttribute false [] a slot value = .ok b := by
  unfold setAttribute at h ⊢
  split at h
  · obtain ⟨q, hq, h⟩ := Except.bind_eq_ok_iff.1 h
    exact Except.bind_eq_ok_iff.2 ⟨q, (normalPath_eq_ok hq).2, h⟩
  · exact h
  · exact h
  · split at h
    · exact h
    · cases h
  · cases h

theorem text_of_ofText? {key : Text} {slot : AttributeKey}
    (h : AttributeKey.ofText? key = some slot) : slot.text = key := by
  unfold AttributeKey.ofText? at h
  simpa using List.find?_some h

theorem isReserved_text (slot : AttributeKey) : isReserved slot.text = true := by
  cases slot <;> rfl

theorem ofText?_text (slot : AttributeKey) : AttributeKey.ofText? slot.text = some slot := by
  cases slot <;> rfl

/-- Only reserved keys set attributes. -/
theorem ofText?_eq_none {key : Text} (h : isReserved key = false) :
    AttributeKey.ofText? key = none := by
  unfold AttributeKey.ofText?
  rw [List.find?_eq_none]
  intro slot _ hs
  rw [decide_eq_true_eq] at hs
  subst hs
  cases slot <;> exact absurd h (by decide)

theorem setField_of_slot {a b : Attributes} {key : Text} {slot : AttributeKey} {value : Value}
    (hslot : AttributeKey.ofText? key = some slot)
    (h : setAttribute drives place a slot value = .ok b) :
    setField a (.text key, value) = b := by
  simp only [setField, hslot, setAttribute_false h]
  rfl

theorem setField_of_none {a : Attributes} {key : Text} {value : Value}
    (h : AttributeKey.ofText? key = none) : setField a (.text key, value) = a := by
  simp only [setField, h]

theorem written_ne_nil (v : Value) : written v ≠ [] := by
  unfold written
  split <;> simp

theorem ne_nil_of_mem_writtenBelow {fields : List (Scalar × Value)}
    {d : List Path × Attributes} (h : d ∈ writtenBelow fields) : d.1 ≠ [] := by
  induction fields with
  | nil => simp [writtenBelow] at h
  | cons field rest ih =>
    obtain ⟨key, value⟩ := field
    unfold writtenBelow at h
    split at h
    · simp at h
    · split at h
      · rename_i he _
        cases he
        exact ih h
      · rename_i he _
        cases he
        rcases List.mem_append.1 h with h | h
        · exact ProfileTree.ne_nil_of_mem_under h
        · exact ih h
    · rename_i he
      cases he
      exact ih h

theorem writtenBelow_cons (field : Scalar × Value) (rest : Fields) :
    writtenBelow (field :: rest) = writtenBelow [field] ++ writtenBelow rest := by
  obtain ⟨key, v⟩ := field
  cases key with
  | text t =>
    rw [writtenBelow, writtenBelow]
    split
    · rw [writtenBelow, List.nil_append]
    · rw [writtenBelow, List.append_nil]
  | _ => rfl

theorem writtenBelow_eq (fields : Fields) :
    writtenBelow fields = fields.flatMap fun field => writtenBelow [field] := by
  induction fields with
  | nil => rfl
  | cons field rest ih => rw [writtenBelow_cons, List.flatMap_cons, ih]

theorem writtenBelow_append (first second : Fields) :
    writtenBelow (first ++ second) = writtenBelow first ++ writtenBelow second := by
  rw [writtenBelow_eq, List.flatMap_append, ← writtenBelow_eq, ← writtenBelow_eq]

theorem writtenBelow_perm {fields fields' : Fields} (h : fields.Perm fields') :
    (writtenBelow fields).Perm (writtenBelow fields') := by
  rw [writtenBelow_eq, writtenBelow_eq]
  exact h.flatMap_right _

/-- Fields are read one after another. -/
theorem readFields_cons {done : Reading} (field : Scalar × Value) (rest : Fields) :
    (readFields drives place done (field :: rest)).outcome =
      (readFields drives place done [field]).outcome >>= fun next =>
        (readFields drives place next rest).outcome := by
  obtain ⟨key, value⟩ := field
  cases key with
  | text key =>
    rw [readFields, readFields]
    split
    · split
      · simp only [Traced.outcome_bind, bind_assoc]
        rfl
      · simp only [Traced.outcome_bind, bind_assoc]
        rfl
    · simp only [Traced.outcome_bind, bind_assoc]
      rfl
  | _ => rfl

theorem readFields_slot {done : Reading} {key : Text} {slot : AttributeKey} (value : Value)
    (hres : isReserved key = true) (hslot : AttributeKey.ofText? key = some slot) :
    (readFields drives place done [(.text key, value)]).outcome =
      done.withAttributes <$> setAttribute drives place done.tree.attributes slot value := by
  rw [readFields, if_pos hres, hslot]
  simp only [Traced.outcome_bind, Traced.outcome_ofExcept]
  cases setAttribute drives place done.tree.attributes slot value <;> rfl

theorem readFields_unknown {done : Reading} {key : Text} (value : Value)
    (hres : isReserved key = true) (hslot : AttributeKey.ofText? key = none) :
    (readFields drives place done [(.text key, value)]).outcome =
      .ok (done.remark (.unknownAttribute key place)) := by
  rw [readFields, if_pos hres, hslot]
  rfl

theorem readFields_target {done : Reading} {key : Text} (value : Value)
    (hres : isReserved key = false) :
    (readFields drives place done [(.text key, value)]).outcome =
      normalPath drives key >>= fun target =>
        done.addChild target <$> (read drives (Path.join [place, target]) value).outcome := by
  rw [readFields, if_neg (by simp [hres]), Traced.outcome_bind]
  refine congrArg _ (funext fun target => ?_)
  simp only [Traced.outcome_bind, Traced.outcome_join, Traced.outcome_emit, Except.ok_bind]
  cases (read drives (Path.join [place, target]) value).outcome <;> rfl

theorem readFields_append {done : Reading} (first second : Fields) :
    (readFields drives place done (first ++ second)).outcome =
      (readFields drives place done first).outcome >>= fun next =>
        (readFields drives place next second).outcome := by
  induction first generalizing done with
  | nil => rfl
  | cons field rest ih =>
    rw [List.cons_append, readFields_cons, readFields_cons field rest, bind_assoc]
    exact congrArg _ (funext fun _ => ih)

open ProfileTree in
/-- A child is gathered after everything that was read before it. -/
theorem gathers_addChild {done child : Reading} {before declared : List (List Path × Attributes)}
    (hd : Gathers (.node .empty done.tree.children) before) (hc : Gathers child.tree declared)
    (hne : declared ≠ []) (key : Path) :
    Gathers (.node .empty (done.addChild key child).tree.children)
      (before ++ under key declared) := by
  have h := hd.merge (hc.under hne key)
  rw [merge_node, Attributes.merge_empty] at h
  exact h

/-- What reading one field does: a reserved key sets an attribute and leaves the children
alone, and any other key adds a child. -/
theorem readFields_cons_eq_ok {r done : Reading} {place : Path} {key : Scalar} {value : Value}
    {rest : List (Scalar × Value)}
    (h : (readFields drives place done ((key, value) :: rest)).outcome = .ok r) :
    ∃ t, key = .text t ∧
      ((isReserved t = true ∧ ∃ next, next.tree.children = done.tree.children ∧
          next.tree.attributes = setField done.tree.attributes (.text t, value) ∧
          (readFields drives place next rest).outcome = .ok r) ∨
        (isReserved t = false ∧ ∃ below child, (read drives below value).outcome = .ok child ∧
          (readFields drives place (done.addChild (Path.normalForm t) child) rest).outcome =
            .ok r)) := by
  cases key with
  | text t =>
    refine ⟨t, rfl, ?_⟩
    rw [readFields] at h
    split at h
    · rename_i hres
      refine .inl ⟨hres, ?_⟩
      split at h
      · rename_i slot hslot
        obtain ⟨a, ha, h⟩ := Traced.outcome_bind_eq_ok_iff.1 h
        exact ⟨done.withAttributes a, rfl, (setField_of_slot hslot ha).symm, h⟩
      · rename_i hslot
        obtain ⟨_, _, h⟩ := Traced.outcome_bind_eq_ok_iff.1 h
        exact ⟨done.remark (.unknownAttribute t place), rfl, (setField_of_none hslot).symm, h⟩
    · rename_i hres
      refine .inr ⟨by simpa using hres, ?_⟩
      obtain ⟨target, ht, h⟩ := Traced.outcome_bind_eq_ok_iff.1 h
      obtain ⟨below, _, h⟩ := Traced.outcome_bind_eq_ok_iff.1 h
      obtain ⟨_, _, h⟩ := Traced.outcome_bind_eq_ok_iff.1 h
      obtain ⟨child, hc, h⟩ := Traced.outcome_bind_eq_ok_iff.1 h
      rw [(normalPath_eq_ok ht).1] at h
      exact ⟨below, child, hc, h⟩
  | _ =>
    rw [readFields] at h
    · cases h
    · simp

mutual

/-- The tree that is read from a value gathers what the value declares. -/
theorem gathers_read {r : Reading} {place : Path} :
    ∀ {v : Value}, (read drives place v).outcome = .ok r →
      ProfileTree.Gathers r.tree (written v)
  | .scalar .null, h => by
    simp only [read, Traced.outcome_pure, Except.ok.injEq] at h
    subst h
    exact ProfileTree.gathers_leaf .empty
  | .scalar (.text t), h => by
    rw [read, Traced.outcome_bind_eq_ok_iff] at h
    obtain ⟨a, ha, h⟩ := h
    cases h
    rw [written, attributesOfText_eq_ok ha]
    exact ProfileTree.gathers_leaf a
  | .map fields, h => by
    rw [read] at h
    obtain ⟨hattr, hbelow⟩ := gathers_readFields h ProfileTree.gathers_nil
    obtain ⟨⟨own, children⟩, _⟩ := r
    rw [List.nil_append] at hbelow
    have hroot := hbelow.withRoot (fun d hd => ne_nil_of_mem_writtenBelow hd) own
    have hown : own = fields.foldl setField .empty := hattr
    rw [written, ← hown]
    exact hroot
  | .list items, h => by simp [read] at h
  | .scalar (.bool b), h => by simp [read] at h
  | .scalar (.int n), h => by simp [read] at h
  | .scalar (.float x), h => by simp [read] at h
  | .scalar .nan, h => by simp [read] at h
  | .scalar (.bytes data), h => by simp [read] at h
  | .scalar (.date year month day), h => by simp [read] at h
  | .scalar (.moment m), h => by simp [read] at h
  | .set members, h => by simp [read] at h
  | .pair a b, h => by simp [read] at h
  | .endless, h => by simp [read] at h

theorem gathers_readFields {r done : Reading} {place : Path}
    {before : List (List Path × Attributes)} :
    ∀ {fields : List (Scalar × Value)},
      (readFields drives place done fields).outcome = .ok r →
      ProfileTree.Gathers (.node .empty done.tree.children) before →
      r.tree.attributes = fields.foldl setField done.tree.attributes ∧
        ProfileTree.Gathers (.node .empty r.tree.children) (before ++ writtenBelow fields)
  | [], h, hd => by
    cases h
    rw [writtenBelow, List.append_nil]
    exact ⟨rfl, hd⟩
  | (key, value) :: rest, h, hd => by
    obtain ⟨t, rfl, ⟨hres, next, hchildren, hattr, h⟩ | ⟨hres, below, child, hc, h⟩⟩ :=
      readFields_cons_eq_ok h
    · rw [writtenBelow, if_pos hres, List.foldl_cons, ← hattr]
      exact gathers_readFields h (hchildren ▸ hd)
    · have hgathered := gathers_addChild hd (gathers_read hc) (written_ne_nil value)
        (Path.normalForm t)
      rw [writtenBelow, if_neg (by simp [hres]), List.foldl_cons,
        setField_of_none (ofText?_eq_none hres), ← List.append_assoc]
      have hrest := gathers_readFields h hgathered
      exact hrest

end

end Reading

section NormalForms

theorem source_textAttributes {t : Text} {source : Path}
    (h : (textAttributes t).source = some source) : source = Path.normalForm t := by
  unfold textAttributes at h
  cases ht : attributesOfText false t with
  | error e =>
    rw [ht] at h
    cases h
  | ok a =>
    rw [ht] at h
    have hs : a.source = some source := h
    unfold attributesOfText at ht
    split at ht
    · split at ht
      · obtain ⟨m, _, rfl⟩ := Except.map_eq_ok_iff.1 ht
        cases hs
      · cases ht
    · obtain ⟨q, hq, rfl⟩ := Except.map_eq_ok_iff.1 ht
      cases hs
      exact (normalPath_eq_ok hq).1

theorem source_setAttribute {a b : Attributes} {slot : AttributeKey} {value : Value}
    {source : Path} (h : setAttribute false [] a slot value = .ok b)
    (hs : b.source = some source) : a.source = some source ∨ ∃ p, source = Path.normalForm p := by
  unfold setAttribute at h
  split at h
  · rename_i t
    obtain ⟨q, hq, h⟩ := Except.bind_eq_ok_iff.1 h
    cases h
    cases hs
    exact .inr ⟨t, (normalPath_eq_ok hq).1⟩
  · obtain ⟨m, _, h⟩ := Except.bind_eq_ok_iff.1 h
    cases h
    exact .inl hs
  · cases h
    exact .inl hs
  · split at h
    · cases h
      exact .inl hs
    · cases h
  · cases h

theorem source_setField {a : Attributes} {field : Scalar × Value} {source : Path}
    (h : (setField a field).source = some source) :
    a.source = some source ∨ ∃ p, source = Path.normalForm p := by
  unfold setField at h
  split at h
  · split at h
    · rename_i slot _
      cases hset : setAttribute false [] a slot field.2 with
      | error e =>
        rw [hset] at h
        exact .inl h
      | ok b =>
        rw [hset] at h
        exact source_setAttribute hset h
    · exact .inl h
  · exact .inl h

theorem source_foldl_setField {fields : List (Scalar × Value)} {a : Attributes} {source : Path}
    (h : (fields.foldl setField a).source = some source) :
    a.source = some source ∨ ∃ p, source = Path.normalForm p := by
  induction fields generalizing a with
  | nil => exact .inl h
  | cons field rest ih =>
    rcases ih h with hs | hs
    · exact source_setField hs
    · exact .inr hs

/-- The keys and the source of a declaration are in normal form. -/
def IsNormal (d : List Path × Attributes) : Prop :=
  (∀ key ∈ d.1, ∃ p, key = Path.normalForm p) ∧
    ∀ source, d.2.source = some source → ∃ p, source = Path.normalForm p

theorem isNormal_root {a : Attributes}
    (h : ∀ source, a.source = some source → ∃ p, source = Path.normalForm p) :
    IsNormal ([], a) :=
  ⟨fun _ hm => absurd hm (by simp), h⟩

mutual

/-- A document is written in normal form. -/
theorem isNormal_of_mem_written {d : List Path × Attributes} :
    ∀ {v : Value}, d ∈ written v → IsNormal d
  | .scalar (.text t), h => by
    rw [written, List.mem_singleton] at h
    subst h
    exact isNormal_root fun source hs => ⟨t, source_textAttributes hs⟩
  | .map fields, h => by
    rw [written, List.mem_cons] at h
    rcases h with rfl | h
    · refine isNormal_root fun source hs => ?_
      rcases source_foldl_setField hs with hs | hs
      · cases hs
      · exact hs
    · exact isNormal_of_mem_writtenBelow h
  | .scalar .null, h | .scalar (.bool b), h | .scalar (.int n), h | .scalar (.float x), h
  | .scalar .nan, h | .scalar (.bytes data), h | .scalar (.date _ _ _), h
  | .scalar (.moment m), h | .list items, h | .set members, h | .pair a b, h | .endless, h => by
    simp only [written, List.mem_singleton] at h
    subst h
    exact isNormal_root fun source hs => by cases hs

theorem isNormal_of_mem_writtenBelow {d : List Path × Attributes} :
    ∀ {fields : List (Scalar × Value)}, d ∈ writtenBelow fields → IsNormal d
  | [], h => by
    rw [writtenBelow] at h
    cases h
  | (key, value) :: rest, h => by
    cases key with
    | text key =>
      rw [writtenBelow] at h
      split at h
      · exact isNormal_of_mem_writtenBelow h
      · rcases List.mem_append.1 h with h | h
        · obtain ⟨e, he, rfl⟩ := List.mem_map.1 h
          obtain ⟨hkeys, hsource⟩ := isNormal_of_mem_written he
          refine ⟨?_, hsource⟩
          intro k hk
          rcases List.mem_cons.1 hk with rfl | hk
          · exact ⟨key, rfl⟩
          · exact hkeys k hk
        · exact isNormal_of_mem_writtenBelow h
    | _ =>
      rw [writtenBelow] at h
      · exact isNormal_of_mem_writtenBelow h
      · simp

end

end NormalForms

end Declaration

end Dotfiles
