import Dotfiles.Proofs.Profile.Grammar
import Dotfiles.Proofs.Profile.RootGlobs
import Dotfiles.Proofs.Value.Rearranging
import Mathlib.Data.List.Pairwise
import Mathlib.Data.List.Perm.Basic

/-!
Declarations of a document whose mappings stand in another order. They are the same ones, in
another order. Only a mapping that is written in the place of an ignore list has an order of
its own: its keys are taken for the globs.
-/

namespace Dotfiles

open Value

/-- Whether globs are others in any order, or in the same order if that is asked for. -/
def GlobList.Reorders (exact : Bool) (l l' : GlobList) : Prop :=
  l.globs.Perm l'.globs ∧ (exact = true → l' = l)

/-- Whether attributes are others with the globs in another order. -/
structure Attributes.Reorders (exact : Bool) (a a' : Attributes) : Prop where
  source : a'.source = a.source
  method : a'.method = a.method
  recursive : a'.recursive = a.recursive
  globs : a.globs.Reorders exact a'.globs

/-- Whether a declaration is another one for the same keys. -/
def Declaration.Reorders (exact : Bool) (d d' : List Path × Attributes) : Prop :=
  d'.1 = d.1 ∧ d.2.Reorders exact d'.2

/-- Whether declarations are others in another order. -/
def Declaration.Rewrites (exact : Bool) (declared declared' : List (List Path × Attributes)) :
    Prop :=
  ∃ reordered, List.Forall₂ (Declaration.Reorders exact) declared reordered ∧
    reordered.Perm declared'

namespace Declaration

mutual

/-- Whether no ignore list of a declaration is written as a mapping. -/
def listsGlobs : Value → Bool
  | .map fields => listGlobsIn fields
  | _ => true

/-- Whether no ignore list at or below some fields is written as a mapping. -/
def listGlobsIn : Fields → Bool
  | [] => true
  | (.text key, v) :: rest =>
    (if isReserved key then decide (key = AttributeKey.ignore.text → v.kind ≠ .mapping)
      else listsGlobs v) && listGlobsIn rest
  | _ :: rest => listGlobsIn rest

end

end Declaration

section Globs

variable {exact : Bool} {l l' m m' : GlobList}

theorem GlobList.Reorders.refl (l : GlobList) : l.Reorders exact l := ⟨.refl _, fun _ => rfl⟩

theorem GlobList.Reorders.union (h : l.Reorders exact l') (hm : m.Reorders exact m') :
    (l.union m).Reorders exact (l'.union m') := by
  refine ⟨h.1.append hm.1, fun he => ?_⟩
  rw [h.2 he, hm.2 he]

theorem Attributes.Reorders.refl (a : Attributes) : a.Reorders exact a :=
  ⟨rfl, rfl, rfl, .refl _⟩

theorem Attributes.Reorders.withSlot {a a' own own' : Attributes} (h : a.Reorders exact a')
    (hown : own.Reorders exact own') (slot : AttributeKey) :
    (a.withSlot slot own).Reorders exact (a'.withSlot slot own') := by
  cases slot with
  | source => exact ⟨hown.source, h.method, h.recursive, h.globs⟩
  | method => exact ⟨h.source, hown.method, h.recursive, h.globs⟩
  | recursive => exact ⟨h.source, h.method, hown.recursive, h.globs⟩
  | ignore => exact ⟨h.source, h.method, h.recursive, hown.globs⟩

theorem GlobList.globOfValue_of_rearranges {v v' : Value} (h : Rearranges v v') :
    globOfValue v' = globOfValue v := by
  cases v with
  | scalar s => rw [rearranges_scalar_iff.1 h]
  | map fields =>
    obtain ⟨_, sorted, rfl, _, _⟩ := rearranges_map_iff.1 h
    rfl
  | list items =>
    rw [Rearranges] at h
    obtain ⟨items', rfl, _⟩ := h
    rfl
  | pair first second =>
    rw [Rearranges] at h
    obtain ⟨first', second', rfl, _, _⟩ := h
    rfl
  | set members => rw [rearranges_set_iff.1 h]
  | endless => rw [rearranges_endless_iff.1 h]

theorem GlobList.mapM_globOfValue_of_rearranges : ∀ {items items' : List Value},
    RearrangesItems items items' → items'.mapM globOfValue = items.mapM globOfValue
  | [], items', h => by
    rw [RearrangesItems] at h
    rw [h]
  | v :: rest, items', h => by
    rw [RearrangesItems] at h
    obtain ⟨v', rest', rfl, hv, hrest⟩ := h
    rw [List.mapM_cons, List.mapM_cons, globOfValue_of_rearranges hv,
      mapM_globOfValue_of_rearranges hrest]

/-- The globs of a mapping are its keys, so they come in its order; every other value keeps its
globs as they are. -/
theorem GlobList.ofValue_of_rearranges {v v' : Value} (h : Rearranges v v')
    (hexact : exact = true → v.kind ≠ .mapping) :
    (∃ l l', ofValue v = .ok l ∧ ofValue v' = .ok l' ∧ l.Reorders exact l') ∨
      ∃ e e', ofValue v = .error e ∧ ofValue v' = .error e' := by
  have hsame : ofValue v' = ofValue v → (∃ l l', ofValue v = .ok l ∧ ofValue v' = .ok l' ∧
      l.Reorders exact l') ∨ ∃ e e', ofValue v = .error e ∧ ofValue v' = .error e' := by
    intro he
    rw [he]
    cases hv : ofValue v with
    | ok l => exact .inl ⟨l, l, rfl, rfl, .refl l⟩
    | error e => exact .inr ⟨e, e, rfl, rfl⟩
  cases v with
  | scalar s => exact hsame (by rw [rearranges_scalar_iff.1 h])
  | list items =>
    rw [Rearranges] at h
    obtain ⟨items', rfl, hitems⟩ := h
    exact hsame (by rw [ofValue, ofValue, mapM_globOfValue_of_rearranges hitems])
  | pair first second =>
    rw [Rearranges] at h
    obtain ⟨first', second', rfl, hfirst, hsecond⟩ := h
    apply hsame
    simp only [ofValue, List.mapM_cons, globOfValue_of_rearranges hfirst,
      globOfValue_of_rearranges hsecond]
  | map fields =>
    obtain ⟨fields', sorted, rfl, hbelow, hperm⟩ := rearranges_map_iff.1 h
    have hkeys : (fields.map (·.1)).Perm (sorted.map (·.1)) := by
      rw [map_fst_of_rearranges hbelow]
      exact hperm.map _
    have hofValue : ∀ fields : Fields, ofValue (.map fields) =
        GlobList.mk <$> (fields.map (·.1)).mapM fun k => globOfValue (.scalar k) := by
      intro fields
      rw [ofValue, List.mapM_map]
      rfl
    rw [hofValue, hofValue]
    rcases Except.mapM_perm (f := fun k => globOfValue (.scalar k)) hkeys with
      ⟨found, found', h, h', hfound⟩ | ⟨e, e', h, h'⟩
    · rw [h, h']
      exact .inl ⟨⟨found⟩, ⟨found'⟩, rfl, rfl, hfound, fun he => absurd rfl (hexact he)⟩
    · rw [h, h']
      exact .inr ⟨e, e', rfl, rfl⟩
  | set members => exact hsame (by rw [rearranges_set_iff.1 h])
  | endless => exact hsame (by rw [rearranges_endless_iff.1 h])

end Globs

namespace Declaration

section Attributes

variable {drives exact : Bool} {a a' : Attributes}

theorem setAttribute_ignore (place : Path) (a : Attributes) (v : Value) :
    setAttribute drives place a .ignore v =
      match GlobList.ofValue v with
      | .ok globs => .ok { a with ignore := some globs }
      | .error _ => .error (.format (.badAttribute .ignore place)) := rfl

/-- What a rearranged value sets is the same, up to the order of globs. -/
theorem rel_setAttribute (ha : a.Reorders exact a') {v v' : Value} (h : Rearranges v v')
    (place : Path) (slot : AttributeKey)
    (hexact : exact = true → slot = .ignore → v.kind ≠ .mapping) :
    Except.Rel (Attributes.Reorders exact) (setAttribute drives place a slot v)
      (setAttribute drives place a' slot v') := by
  -- all other keys take scalars only, and a scalar is not rearranged
  have hother : ∀ s, v = .scalar s → Except.Rel (Attributes.Reorders exact)
      (setAttribute drives place a slot v) (setAttribute drives place a' slot v') := by
    rintro s rfl
    rw [rearranges_scalar_iff.1 h, setAttribute_eq_map, setAttribute_eq_map place a']
    exact (Except.Rel.refl fun own => .refl own).map fun own own' hown => ha.withSlot hown slot
  cases slot with
  | ignore =>
    rw [setAttribute_ignore, setAttribute_ignore]
    rcases GlobList.ofValue_of_rearranges h (fun he => hexact he rfl) with
      ⟨l, l', hl, hl', hr⟩ | ⟨e, e', hl, hl'⟩
    · rw [hl, hl']
      exact .ok ⟨ha.source, ha.method, ha.recursive, hr⟩
    · rw [hl, hl']
      exact .error _
  | _ =>
    cases v with
    | scalar s => exact hother s rfl
    | map fields =>
      obtain ⟨_, sorted, rfl, _, _⟩ := rearranges_map_iff.1 h
      exact .error _
    | list items =>
      rw [Rearranges] at h
      obtain ⟨items', rfl, _⟩ := h
      exact .error _
    | pair first second =>
      rw [Rearranges] at h
      obtain ⟨first', second', rfl, _, _⟩ := h
      exact .error _
    | set members =>
      rw [rearranges_set_iff.1 h]
      exact .error _
    | endless =>
      rw [rearranges_endless_iff.1 h]
      exact .error _

theorem reorders_setField (ha : a.Reorders exact a') {key : Scalar} {v v' : Value}
    (h : Rearranges v v')
    (hexact : exact = true → key = ignoreKey → v.kind ≠ .mapping) :
    (setField a (key, v)).Reorders exact (setField a' (key, v')) := by
  cases key with
  | text t =>
    simp only [setField]
    cases hslot : AttributeKey.ofText? t with
    | none => exact ha
    | some slot =>
      have hkey : exact = true → slot = .ignore → v.kind ≠ .mapping := by
        rintro he rfl
        exact hexact he (congrArg Scalar.text (text_of_ofText? hslot).symm)
      have hrel : Except.Rel (Attributes.Reorders exact) (setAttribute false [] a slot v)
          (setAttribute false [] a' slot v') := rel_setAttribute ha h [] slot hkey
      show ((setAttribute false [] a slot v).toOption.getD a).Reorders exact
        ((setAttribute false [] a' slot v').toOption.getD a')
      generalize setAttribute false [] a slot v = x at hrel ⊢
      generalize setAttribute false [] a' slot v' = y at hrel ⊢
      cases hrel with
      | ok hr => exact hr
      | error e => exact ha
  | _ => exact ha

/-- A field sets what it sets, whatever there is before. -/
theorem setField_eq (key : Text) (v : Value) :
    (∀ a, setField a (.text key, v) = a) ∨ ∃ slot own, AttributeKey.ofText? key = some slot ∧
      ∀ a, setField a (.text key, v) = a.withSlot slot own := by
  cases hslot : AttributeKey.ofText? key with
  | none => exact .inl fun a => setField_of_none hslot
  | some slot =>
    cases hset : setAttribute false [] .empty slot v with
    | ok own =>
      refine .inr ⟨slot, own, rfl, fun a => ?_⟩
      have hok : setAttribute false [] a slot v = .ok (a.withSlot slot own) := by
        rw [setAttribute_eq_map, hset]
        rfl
      exact setField_of_slot hslot hok
    | error e =>
      refine .inl fun a => ?_
      have herror : setAttribute false [] a slot v = .error e := by
        rw [setAttribute_eq_map, hset]
        rfl
      simp only [setField, hslot, herror]
      rfl

/-- Fields with different keys set different attributes. -/
theorem setField_comm {f g : Scalar × Value} (h : f.1.sameKey g.1 = false) (a : Attributes) :
    setField (setField a f) g = setField (setField a g) f := by
  obtain ⟨key, v⟩ := f
  obtain ⟨other, u⟩ := g
  cases key with
  | text key =>
    cases other with
    | text other =>
      rcases setField_eq key v with hf | ⟨slot, own, hslot, hf⟩
      · rw [hf, hf]
      · rcases setField_eq other u with hg | ⟨slot', own', hslot', hg⟩
        · rw [hg, hg]
        · have hne : slot ≠ slot' := by
            rintro rfl
            rw [← text_of_ofText? hslot, ← text_of_ofText? hslot'] at h
            simp at h
          rw [hf, hg, hg, hf, Attributes.withSlot_comm hne]
    | _ => rfl
  | _ => rfl

/-- The order of distinct keys does not matter for what they set. -/
theorem foldl_setField_perm {fields fields' : Fields} (hperm : fields.Perm fields')
    (hkeys : fields.HasDistinctKeys) (a : Attributes) :
    fields.foldl setField a = fields'.foldl setField a := by
  have : Std.Symm fun f g : Scalar × Value => f.1.sameKey g.1 = false :=
    ⟨fun f g h => (Scalar.sameKey_comm g.1 f.1).trans h⟩
  apply hperm.foldl_eq'
  intro f hf g hg b
  by_cases hfg : f = g
  · rw [hfg]
  · exact setField_comm (List.Pairwise.forall hkeys hf hg hfg) b

end Attributes

section Rewriting

variable {exact : Bool} {first first' second second' : List (List Path × Attributes)}

theorem Reorders.refl (d : List Path × Attributes) : Reorders exact d d := ⟨rfl, .refl _⟩

theorem Rewrites.of_perm (h : first.Perm first') : Rewrites exact first first' :=
  ⟨first, List.forall₂_same.2 fun d _ => .refl d, h⟩

theorem Rewrites.append (h : Rewrites exact first first') (h' : Rewrites exact second second') :
    Rewrites exact (first ++ second) (first' ++ second') := by
  obtain ⟨middle, hr, hperm⟩ := h
  obtain ⟨middle', hr', hperm'⟩ := h'
  exact ⟨middle ++ middle', List.rel_append hr hr', hperm.append hperm'⟩

theorem Rewrites.perm (h : Rewrites exact first second) (hperm : second.Perm second') :
    Rewrites exact first second' := by
  obtain ⟨middle, hr, hp⟩ := h
  exact ⟨middle, hr, hp.trans hperm⟩

theorem Rewrites.of_perm_left (hperm : first.Perm first') (h : Rewrites exact first' second) :
    Rewrites exact first second := by
  obtain ⟨middle, hr, hp⟩ := h
  obtain ⟨middle', hr', hp'⟩ := List.perm_comp_forall₂ hperm hr
  exact ⟨middle', hr', hp'.trans hp⟩

theorem Rewrites.under (h : Rewrites exact first second) (key : Path) :
    Rewrites exact (ProfileTree.under key first) (ProfileTree.under key second) := by
  obtain ⟨middle, hr, hp⟩ := h
  refine ⟨ProfileTree.under key middle, ?_, hp.map _⟩
  rw [ProfileTree.under, ProfileTree.under, List.forall₂_map_left_iff, List.forall₂_map_right_iff]
  exact hr.imp fun d d' hd => ⟨congrArg (key :: ·) hd.1, hd.2⟩

theorem Rewrites.cons {d d' : List Path × Attributes} (hd : Reorders exact d d')
    (h : Rewrites exact first second) : Rewrites exact (d :: first) (d' :: second) := by
  obtain ⟨middle, hr, hp⟩ := h
  exact ⟨d' :: middle, .cons hd hr, hp.cons d'⟩

end Rewriting

section Written

variable {drives exact : Bool}

theorem reorders_foldl_setField : ∀ {fields fields' : Fields} {a a' : Attributes},
    RearrangesBelow fields fields' → a.Reorders exact a' →
      (exact = true → listGlobsIn fields = true) →
      (fields.foldl setField a).Reorders exact (fields'.foldl setField a')
  | [], fields', a, a', h, ha, _ => by
    rw [RearrangesBelow] at h
    rw [h]
    exact ha
  | (key, v) :: rest, fields', a, a', h, ha, hexact => by
    rw [RearrangesBelow] at h
    obtain ⟨v', rest', rfl, hv, hrest⟩ := h
    rw [List.foldl_cons, List.foldl_cons]
    have hfield : exact = true → key = ignoreKey → v.kind ≠ .mapping := by
      rintro he rfl
      have hl := hexact he
      rw [ignoreKey, listGlobsIn, Bool.and_eq_true, if_pos (by rfl), decide_eq_true_eq] at hl
      exact hl.1 rfl
    refine reorders_foldl_setField hrest (reorders_setField ha hv hfield) fun he => ?_
    have hl := hexact he
    cases key with
    | text t =>
      rw [listGlobsIn, Bool.and_eq_true] at hl
      exact hl.2
    | _ => exact hl

theorem hasDistinctKeys_of_rearranges {fields fields' : Fields}
    (h : RearrangesBelow fields fields') (hkeys : fields.HasDistinctKeys) :
    fields'.HasDistinctKeys := by
  rw [Fields.hasDistinctKeys_iff, ← map_fst_of_rearranges h]
  exact Fields.hasDistinctKeys_iff.1 hkeys

mutual

/-- A rearranged document declares the same, in another order. -/
theorem rewrites_written : ∀ {v v' : Value}, Rearranges v v' → v.isKeyed = true →
    (exact = true → listsGlobs v = true) → Rewrites exact (written v) (written v')
  | .map fields, v', h, hkeyed, hexact => by
    obtain ⟨fields', sorted, rfl, hbelow, hperm⟩ := rearranges_map_iff.1 h
    rw [isKeyed, Bool.and_eq_true, decide_eq_true_eq] at hkeyed
    have hroot := reorders_foldl_setField hbelow (.refl .empty) hexact
    rw [foldl_setField_perm hperm (hasDistinctKeys_of_rearranges hbelow hkeyed.1)] at hroot
    rw [written, written]
    exact .cons ⟨rfl, hroot⟩
      ((rewrites_writtenBelow hbelow hkeyed.2 hexact).perm (writtenBelow_perm hperm))
  | .list items, v', h, _, _ => by
    rw [Rearranges] at h
    obtain ⟨items', rfl, _⟩ := h
    exact .of_perm (.refl _)
  | .pair first second, v', h, _, _ => by
    rw [Rearranges] at h
    obtain ⟨first', second', rfl, _, _⟩ := h
    exact .of_perm (.refl _)
  | .scalar s, v', h, _, _ => by
    rw [rearranges_scalar_iff.1 h]
    exact .of_perm (.refl _)
  | .set members, v', h, _, _ => by
    rw [rearranges_set_iff.1 h]
    exact .of_perm (.refl _)
  | .endless, v', h, _, _ => by
    rw [rearranges_endless_iff.1 h]
    exact .of_perm (.refl _)

theorem rewrites_writtenBelow : ∀ {fields fields' : Fields}, RearrangesBelow fields fields' →
    areKeyed fields = true → (exact = true → listGlobsIn fields = true) →
      Rewrites exact (writtenBelow fields) (writtenBelow fields')
  | [], fields', h, _, _ => by
    rw [RearrangesBelow] at h
    rw [h]
    exact .of_perm (.refl _)
  | (key, v) :: rest, fields', h, hkeyed, hexact => by
    rw [RearrangesBelow] at h
    obtain ⟨v', rest', rfl, hv, hrest⟩ := h
    rw [areKeyed, Bool.and_eq_true] at hkeyed
    cases key with
    | text t =>
      have hlist := fun he => Bool.and_eq_true_iff.1 (hexact he)
      have hbelow := rewrites_writtenBelow hrest hkeyed.2 fun he => (hlist he).2
      rw [writtenBelow, writtenBelow]
      split
      · exact hbelow
      · rename_i hres
        have hfirst := rewrites_written hv hkeyed.1 fun he => by
          have hl := (hlist he).1
          rwa [if_neg hres] at hl
        exact (hfirst.under _).append hbelow
    | _ =>
      show Rewrites exact (writtenBelow rest) (writtenBelow rest')
      exact rewrites_writtenBelow hrest hkeyed.2 hexact

end

end Written

section Reading

variable {drives : Bool}

theorem canSet_of_rearranges {v v' : Value} (h : Rearranges v v') (key : Text) :
    canSet drives key v' = canSet drives key v := by
  unfold canSet
  split
  · rename_i slot _
    have hrel : Except.Rel (Attributes.Reorders false) (setAttribute drives [] .empty slot v)
        (setAttribute drives [] .empty slot v') :=
      rel_setAttribute (.refl .empty) h [] slot (by simp)
    exact hrel.isOk_eq.symm
  · rfl

theorem areFields_perm {fields fields' : Fields} (h : fields.Perm fields') :
    areFields drives fields' = areFields drives fields := by
  rw [Bool.eq_iff_iff, areFields_iff, areFields_iff]
  exact forall_congr' fun field => by rw [h.mem_iff]

mutual

/-- Whether a value is a declaration does not depend on the order of its mappings. -/
theorem isDeclaration_of_rearranges : ∀ {v v' : Value}, Rearranges v v' →
    isDeclaration drives v' = isDeclaration drives v
  | .map fields, v', h => by
    obtain ⟨fields', sorted, rfl, hbelow, hperm⟩ := rearranges_map_iff.1 h
    rw [isDeclaration, isDeclaration, areFields_perm hperm, areFields_of_rearranges hbelow]
  | .list items, v', h => by
    rw [Rearranges] at h
    obtain ⟨items', rfl, _⟩ := h
    rfl
  | .pair first second, v', h => by
    rw [Rearranges] at h
    obtain ⟨first', second', rfl, _, _⟩ := h
    rfl
  | .scalar s, v', h => by rw [rearranges_scalar_iff.1 h]
  | .set members, v', h => by rw [rearranges_set_iff.1 h]
  | .endless, v', h => by rw [rearranges_endless_iff.1 h]

theorem areFields_of_rearranges : ∀ {fields fields' : Fields}, RearrangesBelow fields fields' →
    areFields drives fields' = areFields drives fields
  | [], fields', h => by
    rw [RearrangesBelow] at h
    rw [h]
  | (key, v) :: rest, fields', h => by
    rw [RearrangesBelow] at h
    obtain ⟨v', rest', rfl, hv, hrest⟩ := h
    cases key with
    | text t =>
      rw [areFields, areFields, canSet_of_rearranges hv, isDeclaration_of_rearranges hv,
        areFields_of_rearranges hrest]
    | _ => rfl

end

end Reading

end Declaration

end Dotfiles
