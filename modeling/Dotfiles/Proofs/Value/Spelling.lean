import Dotfiles.Error
import Dotfiles.Proofs.Value.TakingPart
import Mathlib.Data.List.Forall2

/-!
Documents that spell single globs in different ways. A glob alone and a list of nothing but
it are values of different kinds, so they merge differently. What documents merge to differs
by spelling only if, wherever a respelled glob is what counts, the values that take part there
are indifferent to its spelling.
-/

namespace Dotfiles.Value

/-- The key that globs are declared under. -/
def ignoreKey : Scalar := .text AttributeKey.ignore.text

/-- Whether a value is another one, or the list of nothing but another one that is a text. -/
def RespellsGlob (v v' : Value) : Prop := v' = v ∨ ∃ t, v = text t ∧ v' = .list [text t]

mutual

/-- Whether a value is another one in which some single globs are written as lists. -/
def Respells : Value → Value → Prop
  | .map fields, v' => ∃ fields', v' = .map fields' ∧ RespellsBelow fields fields'
  | v, v' => v' = v

/-- Whether fields are others in which some single globs are written as lists. -/
def RespellsBelow : Fields → Fields → Prop
  | [], fields' => fields' = []
  | (key, v) :: rest, fields' => ∃ v' rest', fields' = (key, v') :: rest' ∧
      (if key = ignoreKey then RespellsGlob v v' else Respells v v') ∧ RespellsBelow rest rest'

end

/-- Whether the value under a key is another one in which some single globs are written as
lists. -/
def RespellsUnder (key : Scalar) (v v' : Value) : Prop :=
  if key = ignoreKey then RespellsGlob v v' else Respells v v'

/-- A text as the list of nothing but it. -/
def listed : Value → Value
  | .scalar (.text t) => .list [text t]
  | v => v

mutual

/-- A value with every single glob in it written as a list. -/
def listGlobs : Value → Value
  | .map fields => .map (listGlobsBelow fields)
  | v => v

/-- Fields with every single glob in them written as a list. -/
def listGlobsBelow : Fields → Fields
  | [] => []
  | (key, v) :: rest =>
    (key, if key = ignoreKey then listed v else listGlobs v) :: listGlobsBelow rest

end

/-- Whether values, each of them in two spellings, merge to the same globs. If it is a text
written as a list that is left in the end, there are no other globs, or else it repeats the
text that is there before it. -/
def AreIndifferent (pairs : List (Value × Value)) : Prop :=
  ∀ before t after, pairs = before ++ (text t, .list [text t]) :: after →
    (∀ p ∈ after, p.1.kind ≠ .single) →
    ((∀ p ∈ before, p.1 = .list []) ∧ ∀ p ∈ after, p.1.items = []) ∨
      ∃ first rest, before = first ++ (text t, text t) :: rest ∧ ∀ p ∈ rest, p.2.kind ≠ .single

section Fields

variable {v v' : Value} {fields fields' : Fields} {key : Scalar}

theorem respellsUnder_ignoreKey : RespellsUnder ignoreKey = RespellsGlob := by
  funext v v'
  rw [RespellsUnder, if_pos rfl]

theorem respellsUnder_of_ne (h : key ≠ ignoreKey) : RespellsUnder key = Respells := by
  funext v v'
  rw [RespellsUnder, if_neg h]

theorem respellsBelow_iff : RespellsBelow fields fields' ↔
    List.Forall₂ (fun f f' => f.1 = f'.1 ∧ RespellsUnder f.1 f.2 f'.2) fields fields' := by
  induction fields generalizing fields' with
  | nil => rw [RespellsBelow, List.forall₂_nil_left_iff]
  | cons field rest ih =>
    rw [RespellsBelow, List.forall₂_cons_left_iff]
    constructor
    · rintro ⟨v', rest', rfl, hv, hrest⟩
      exact ⟨(field.1, v'), rest', ⟨rfl, hv⟩, ih.1 hrest, rfl⟩
    · rintro ⟨⟨k, v'⟩, rest', ⟨rfl, hv⟩, hrest, rfl⟩
      exact ⟨v', rest', rfl, hv, ih.2 hrest⟩

theorem respells_iff_eq (h : v.kind ≠ .mapping) : Respells v v' ↔ v' = v := by
  cases v with
  | map fields => exact absurd rfl h
  | _ => rw [Respells]; nofun

theorem respells_map_iff :
    Respells (.map fields) v' ↔ ∃ fields', v' = .map fields' ∧ RespellsBelow fields fields' := by
  rw [Respells]

theorem kind_of_respells (h : Respells v v') : v'.kind = v.kind := by
  by_cases hv : v.kind = .mapping
  · rw [eq_map_of_kind hv] at h ⊢
    obtain ⟨fields', rfl, _⟩ := respells_map_iff.1 h
    rfl
  · rw [(respells_iff_eq hv).1 h]

theorem respellsBelow_fields (h : Respells v v') : RespellsBelow v.fields v'.fields := by
  by_cases hv : v.kind = .mapping
  · rw [eq_map_of_kind hv] at h
    obtain ⟨fields', rfl, hbelow⟩ := respells_map_iff.1 h
    exact hbelow
  · rw [(respells_iff_eq hv).1 h, fields_of_kind_ne hv, RespellsBelow]

theorem map_fst_of_respells (h : RespellsBelow fields fields') :
    fields.map (·.1) = fields'.map (·.1) := by
  rw [respellsBelow_iff] at h
  induction h with
  | nil => rfl
  | cons hfield _ ih => rw [List.map_cons, List.map_cons, hfield.1, ih]

theorem isNone_get?_of_respells (h : RespellsBelow fields fields') (key : Scalar) :
    (Fields.get? key fields).isNone = (Fields.get? key fields').isNone := by
  rw [Fields.isNone_get?, Fields.isNone_get?, map_fst_of_respells h]

theorem eq_ignoreKey_iff {k : Scalar} (h : k.sameKey key = true) :
    k = ignoreKey ↔ key = ignoreKey := by
  constructor
  · rintro rfl
    rw [Scalar.sameKey_comm] at h
    exact Scalar.sameKey_comm_text key _ h
  · rintro rfl
    exact Scalar.sameKey_comm_text k _ h

theorem respells_get? (h : RespellsBelow fields fields') (key : Scalar) :
    Option.Rel (RespellsUnder key) (Fields.get? key fields) (Fields.get? key fields') := by
  rw [respellsBelow_iff] at h
  induction h with
  | nil => exact .none
  | cons hfield _ ih =>
    obtain ⟨hkey, hvalue⟩ := hfield
    rw [Fields.get?, Fields.get?, ← hkey]
    split
    · rename_i hs
      refine .some ?_
      simpa only [RespellsUnder, eq_ignoreKey_iff hs] using hvalue
    · exact ih

theorem respellsGlob_listed (v : Value) : RespellsGlob v (listed v) := by
  cases v with
  | scalar s =>
    cases s with
    | text t => exact .inr ⟨t, rfl, rfl⟩
    | _ => exact .inl rfl
  | _ => exact .inl rfl

mutual

theorem respells_refl : ∀ v : Value, Respells v v
  | .map fields => ⟨_, rfl, respellsBelow_refl fields⟩
  | .scalar _ => rfl
  | .list _ => rfl
  | .set _ => rfl
  | .pair _ _ => rfl
  | .endless => rfl

theorem respellsBelow_refl : ∀ fields : Fields, RespellsBelow fields fields
  | [] => rfl
  | (key, v) :: rest => by
    refine ⟨_, _, rfl, ?_, respellsBelow_refl rest⟩
    split
    · exact .inl rfl
    · exact respells_refl v

end

mutual

theorem respells_listGlobs : ∀ v : Value, Respells v (listGlobs v)
  | .map fields => ⟨_, rfl, respells_listGlobsBelow fields⟩
  | .scalar _ => rfl
  | .list _ => rfl
  | .set _ => rfl
  | .pair _ _ => rfl
  | .endless => rfl

theorem respells_listGlobsBelow : ∀ fields : Fields, RespellsBelow fields (listGlobsBelow fields)
  | [] => rfl
  | (key, v) :: rest => by
    refine ⟨_, _, rfl, ?_, respells_listGlobsBelow rest⟩
    split
    · exact respellsGlob_listed v
    · exact respells_listGlobs v

end

end Fields

section Keyed

mutual

/-- Respelling a glob does not change any key. -/
theorem isKeyed_of_respells : ∀ {v v' : Value}, Respells v v' → v.isKeyed = true →
    v'.isKeyed = true
  | .map fields, v', h, hk => by
    obtain ⟨fields', rfl, hbelow⟩ := respells_map_iff.1 h
    rw [isKeyed, Bool.and_eq_true, decide_eq_true_eq] at hk ⊢
    refine ⟨?_, areKeyed_of_respells hbelow hk.2⟩
    rw [Fields.hasDistinctKeys_iff, ← map_fst_of_respells hbelow]
    exact Fields.hasDistinctKeys_iff.1 hk.1
  | .scalar _, _, rfl, hk => hk
  | .list _, _, rfl, hk => hk
  | .set _, _, rfl, hk => hk
  | .pair _ _, _, rfl, hk => hk
  | .endless, _, rfl, hk => hk

theorem areKeyed_of_respells : ∀ {fields fields' : Fields}, RespellsBelow fields fields' →
    areKeyed fields = true → areKeyed fields' = true
  | [], fields', h, _ => by
    rw [RespellsBelow] at h
    rw [h]
    rfl
  | (key, v) :: rest, fields', h, hk => by
    rw [RespellsBelow] at h
    obtain ⟨v', rest', rfl, hv, hrest⟩ := h
    rw [areKeyed, Bool.and_eq_true] at hk ⊢
    refine ⟨?_, areKeyed_of_respells hrest hk.2⟩
    split at hv
    · rcases hv with rfl | ⟨t, rfl, rfl⟩
      · exact hk.1
      · rfl
    · exact isKeyed_of_respells hv hk.1

end

end Keyed

section Shape

variable {u u' v v' : Value} {rest rest' : List Value}

/-- Whether values are the same apart from the fields of mappings. -/
structure HaveSameShape (v v' : Value) : Prop where
  kind_eq : v'.kind = v.kind
  eq_of_ne_mapping : v.kind ≠ .mapping → v' = v

theorem haveSameShape_of_respells (h : Respells v v') : HaveSameShape v v' :=
  ⟨kind_of_respells h, fun hv => (respells_iff_eq hv).1 h⟩

theorem HaveSameShape.merge (hu : HaveSameShape u u') (hv : HaveSameShape v v') :
    HaveSameShape (merge u v) (merge u' v') := by
  have hkind : v'.kind = v.kind := hv.kind_eq
  by_cases hsingle : v.kind = .single
  · rw [merge_of_single hsingle, merge_of_single (hkind.trans hsingle)]
    exact hv
  · by_cases hleft : v.kind = .null ∨ u.kind ≠ v.kind
    · rw [merge_eq_left hsingle hleft,
        merge_eq_left (by rwa [hkind]) (by rwa [hkind, hu.kind_eq])]
      exact hu
    · rw [not_or, not_not] at hleft
      by_cases hmap : v.kind = .mapping
      · have hboth : (Value.merge u v).kind = .mapping :=
          kind_merge_eq_mapping_iff.2 ⟨hleft.2.trans hmap, hsingle⟩
        refine ⟨?_, fun hne => absurd hboth hne⟩
        rw [hboth, kind_merge_eq_mapping_iff, hu.kind_eq, hkind]
        exact ⟨hleft.2.trans hmap, hsingle⟩
      · rw [hv.eq_of_ne_mapping hmap, hu.eq_of_ne_mapping (by rwa [hleft.2])]
        exact ⟨rfl, fun _ => rfl⟩

theorem HaveSameShape.mergeAll (hv : HaveSameShape v v')
    (h : List.Forall₂ HaveSameShape rest rest') :
    HaveSameShape (mergeAll v rest) (mergeAll v' rest') := by
  induction h generalizing v v' with
  | nil => exact hv
  | cons hw _ ih => exact ih (hv.merge hw)

theorem haveSameShape_merged? {docs docs' : List Value} (h : List.Forall₂ Respells docs docs') :
    Option.Rel HaveSameShape (merged? docs) (merged? docs') := by
  cases h with
  | nil => exact .none
  | cons hv hrest =>
    exact .some ((haveSameShape_of_respells hv).mergeAll
      (hrest.imp fun _ _ => haveSameShape_of_respells))

end Shape

section Indifference

variable {pairs : List (Value × Value)}

theorem areIndifferent_nil : AreIndifferent [] := by
  intro before t after h
  simp at h

/-- Whether values are indifferent to spelling wherever globs are declared is seen from the
paths to the values in the documents. -/
theorem areIndifferent_of_paths {docs docs' : List Value}
    (h : ∀ own ∈ docs.flatMap paths, own.getLast? = some ignoreKey →
      AreIndifferent ((takingPart own docs).zip (takingPart own docs')))
    {path : List Scalar} (hlast : path.getLast? = some ignoreKey) :
    AreIndifferent ((takingPart path docs).zip (takingPart path docs')) := by
  cases hvalues : takingPart path docs with
  | nil => exact areIndifferent_nil
  | cons u more =>
    obtain ⟨d, hd, hu⟩ := exists_of_mem_takingPart (u := u) (by rw [hvalues]; simp)
    obtain ⟨own, hown, hsame⟩ := exists_mem_paths hu
    have hownLast : own.getLast? = some ignoreKey := by
      rw [List.getLast?_eq_head?_reverse] at hlast ⊢
      have hreverse := List.forall₂_reverse_iff.2 hsame
      generalize own.reverse = keys at hreverse ⊢
      generalize path.reverse = keys' at hreverse hlast
      cases hreverse with
      | nil => exact hlast
      | cons hkey _ => exact congrArg some ((eq_ignoreKey_iff hkey).2 (Option.some.inj hlast))
    rw [← hvalues, ← takingPart_congr hsame]
    exact h own (List.mem_flatMap.2 ⟨d, hd, hown⟩) hownLast

theorem exists_last {α : Type} {P : α → Prop} {l : List α} (h : ∃ a ∈ l, P a) :
    ∃ before a after, l = before ++ a :: after ∧ P a ∧ ∀ b ∈ after, ¬ P b := by
  induction l with
  | nil => simp at h
  | cons x rest ih =>
    by_cases hrest : ∃ a ∈ rest, P a
    · obtain ⟨before, a, after, rfl, ha, hafter⟩ := ih hrest
      exact ⟨x :: before, a, after, rfl, ha, hafter⟩
    · have hx : P x := by
        obtain ⟨a, ha, hp⟩ := h
        rcases List.mem_cons.1 ha with rfl | ha
        · exact hp
        · exact absurd ⟨a, ha, hp⟩ hrest
      exact ⟨[], x, rest, rfl, hx, fun b hb hp => hrest ⟨b, hb, hp⟩⟩

theorem merged?_of_single {v : Value} {before after : List Value} (hv : v.kind = .single)
    (h : ∀ w ∈ after, w.kind ≠ .single) : merged? (before ++ v :: after) = some v := by
  cases before with
  | nil => rw [List.nil_append, merged?, mergeAll_eq_left (.inr hv) h]
  | cons first rest => rw [List.cons_append, merged?, mergeAll_append_cons hv h]

theorem eq_of_respellsGlob {v v' : Value} (h : RespellsGlob v v') (hv : v.kind ≠ .single) :
    v' = v := by
  rcases h with rfl | ⟨t, rfl, _⟩
  · rfl
  · exact absurd rfl hv

theorem map_snd_eq (h : ∀ p ∈ pairs, RespellsGlob p.1 p.2) (hs : ∀ p ∈ pairs, p.1.kind ≠ .single) :
    pairs.map (·.2) = pairs.map (·.1) :=
  List.map_congr_left fun p hp => eq_of_respellsGlob (h p hp) (hs p hp)

theorem merged?_of_alone {t : Text} {before after : List Value} (hb : ∀ v ∈ before, v = .list [])
    (ha : ∀ v ∈ after, v.kind ≠ .single) (hitems : ∀ v ∈ after, v.items = []) :
    merged? (before ++ .list [text t] :: after) = some (.list [text t]) := by
  have hafter : after.flatMap items = [] := List.flatMap_eq_nil_iff.2 hitems
  cases before with
  | nil => rw [List.nil_append, merged?, mergeAll_list _ ha, hafter, List.append_nil]
  | cons first rest =>
    obtain ⟨rfl, hrest⟩ := List.forall_mem_cons.1 hb
    have hbefore : rest.flatMap items = [] :=
      List.flatMap_eq_nil_iff.2 fun v hv => by rw [hrest v hv, items]
    rw [List.cons_append, merged?, mergeAll_list, List.flatMap_append, List.flatMap_cons, hafter,
      hbefore]
    · rfl
    · intro v hv
      rcases List.mem_append.1 hv with hv | hv
      · simp [hrest v hv, kind]
      · rcases List.mem_cons.1 hv with rfl | hv
        · simp [kind]
        · exact ha v hv

/-- Indifferent values merge to the same in both spellings, or to a text and the list of it. -/
theorem respellsGlob_merged? {values values' : List Value} {m m' : Value}
    (h : List.Forall₂ RespellsGlob values values') (hind : AreIndifferent (values.zip values'))
    (hm : merged? values = some m) (hm' : merged? values' = some m') : RespellsGlob m m' := by
  obtain ⟨hlength, hglobs⟩ := List.forall₂_iff_zip.1 h
  rw [← List.map_fst_zip (Nat.le_of_eq hlength)] at hm
  rw [← List.map_snd_zip (Nat.le_of_eq hlength.symm)] at hm'
  generalize values.zip values' = pairs at hglobs hind hm hm'
  by_cases hs : ∃ p ∈ pairs, p.1.kind = .single
  · obtain ⟨before, ⟨v, v'⟩, after, rfl, hv, hafter⟩ := exists_last hs
    have hglob : RespellsGlob v v' := hglobs (by simp)
    have hsame : after.map (·.2) = after.map (·.1) :=
      map_snd_eq (fun q hq => hglobs (by simp [hq])) hafter
    have hafter' : ∀ w ∈ after.map (·.1), w.kind ≠ .single := by simpa using hafter
    rw [List.map_append, List.map_cons, merged?_of_single hv hafter', Option.some_inj] at hm
    rw [List.map_append, List.map_cons, hsame] at hm'
    subst hm
    rcases hglob with rfl | ⟨t, rfl, rfl⟩
    · rw [merged?_of_single hv hafter', Option.some_inj] at hm'
      exact .inl hm'.symm
    · rcases hind before t after rfl hafter with ⟨hbefore, hitems⟩ | ⟨front, back, rfl, hback⟩
      · rw [merged?_of_alone _ hafter' (by simpa using hitems), Option.some_inj] at hm'
        · exact .inr ⟨t, rfl, hm'.symm⟩
        · intro w hw
          obtain ⟨q, hq, rfl⟩ := List.mem_map.1 hw
          rw [← hbefore q hq]
          exact eq_of_respellsGlob (hglobs (by simp [hq])) (by simp [hbefore q hq, kind])
      · rw [List.map_append, List.map_cons, List.append_assoc, List.cons_append,
          merged?_of_single rfl, Option.some_inj] at hm'
        · exact .inl hm'.symm
        · intro w hw
          rcases List.mem_append.1 hw with hw | hw
          · obtain ⟨q, hq, rfl⟩ := List.mem_map.1 hw
            exact hback q hq
          · rcases List.mem_cons.1 hw with rfl | hw
            · simp [kind]
            · exact hafter' w hw
  · simp only [not_exists, not_and] at hs
    rw [map_snd_eq (fun p hp => hglobs hp) hs, hm, Option.some_inj] at hm'
    exact .inl hm'.symm

end Indifference

section Merging

variable {docs docs' : List Value} {D D' : List Fields} {first first' : Fields}

theorem respellsBelow_map_fields (h : List.Forall₂ Respells docs docs') :
    List.Forall₂ RespellsBelow (docs.map fields) (docs'.map fields) := by
  rw [List.forall₂_map_left_iff, List.forall₂_map_right_iff]
  exact h.imp fun _ _ => respellsBelow_fields

theorem respells_under (h : List.Forall₂ Respells docs docs') (key : Scalar) :
    List.Forall₂ (RespellsUnder key) (under key docs) (under key docs') :=
  List.rel_filterMap (R := RespellsBelow) (fun _ _ hf => respells_get? hf key)
    (respellsBelow_map_fields h)

theorem isKeyed_of_forall₂ (h : List.Forall₂ Respells docs docs')
    (hk : ∀ d ∈ docs, d.isKeyed = true) : ∀ d ∈ docs', d.isKeyed = true := by
  induction h with
  | nil => exact hk
  | cons hd _ ih =>
    rw [List.forall_mem_cons] at hk ⊢
    exact ⟨isKeyed_of_respells hd hk.1, ih hk.2⟩

theorem hasDistinctKeys_of_respells (h : RespellsBelow first first')
    (hd : Fields.HasDistinctKeys first) : Fields.HasDistinctKeys first' := by
  rw [Fields.hasDistinctKeys_iff] at hd ⊢
  rwa [← map_fst_of_respells h]

theorem filterMap_get?_eq_nil {key : Scalar} (h : key.sameKey key = false) (D : List Fields) :
    D.filterMap (Fields.get? key) = [] := by
  refine List.filterMap_eq_nil_iff.2 fun d _ => ?_
  cases hfound : Fields.get? key d with
  | none => rfl
  | some v =>
    rw [Fields.sameKey_self_of_get? hfound] at h
    cases h

/-- A field of the first document with everything merged into it is respelled if what is
merged under its key is. -/
theorem respells_mergeAll_field (hfirst : RespellsBelow first first')
    (hd : Fields.HasDistinctKeys first) {f f' : Scalar × Value} (hf : f ∈ first)
    (hf' : f' ∈ first') (hkey : f.1 = f'.1) (hvalue : RespellsUnder f.1 f.2 f'.2)
    (hunder : ∀ m m', merged? ((first :: D).filterMap (Fields.get? f.1)) = some m →
      merged? ((first' :: D').filterMap (Fields.get? f.1)) = some m' → RespellsUnder f.1 m m') :
    RespellsUnder f.1 (mergeAll f.2 (D.filterMap (Fields.get? f.1)))
      (mergeAll f'.2 (D'.filterMap (Fields.get? f'.1))) := by
  rw [← hkey]
  cases hself : f.1.sameKey f.1 with
  | true =>
    have hget := Fields.get?_of_mem hd hf hself
    have hget' := Fields.get?_of_mem (hasDistinctKeys_of_respells hfirst hd) hf' (hkey ▸ hself)
    rw [← hkey] at hget'
    apply hunder
    · rw [List.filterMap_cons, hget, merged?]
    · rw [List.filterMap_cons, hget', merged?]
  | false =>
    -- a key that is not the same as itself is found in no document
    rw [filterMap_get?_eq_nil hself, filterMap_get?_eq_nil hself]
    exact hvalue

/-- Combined fields are respelled if what is merged under each of their keys is, apart from
the keys that are `seen`. -/
theorem respells_combine (h : List.Forall₂ RespellsBelow D D')
    (hd : ∀ d ∈ D, Fields.HasDistinctKeys d) (seen : Scalar → Bool)
    (hunder : ∀ key m m', seen key = false → merged? (D.filterMap (Fields.get? key)) = some m →
      merged? (D'.filterMap (Fields.get? key)) = some m' → RespellsUnder key m m') :
    RespellsBelow ((combine D).filter fun f => !seen f.1)
      ((combine D').filter fun f => !seen f.1) := by
  induction h generalizing seen with
  | nil => simp [combine, RespellsBelow]
  | @cons first first' D D' hfirst _ ih =>
    obtain ⟨hd, hdrest⟩ := List.forall_mem_cons.1 hd
    rw [combine, combine, List.filter_append, List.filter_append, respellsBelow_iff]
    apply List.rel_append
    · have hfields : List.Forall₂ (fun f f' => f.1 = f'.1 ∧ RespellsUnder f.1 f.2 f'.2)
          (first.filter fun f => !seen f.1) (first'.filter fun f => !seen f.1) :=
        List.rel_filter (fun f f' hf => by simp only [hf.1]) (respellsBelow_iff.1 hfirst)
      rw [List.filter_map, List.filter_map, List.forall₂_map_left_iff, List.forall₂_map_right_iff]
      refine List.forall₂_iff_zip.2 ⟨hfields.length_eq, fun {f f'} hzip => ?_⟩
      obtain ⟨hkey, hvalue⟩ := List.forall₂_zip hfields hzip
      obtain ⟨hf, hf'⟩ := List.of_mem_zip hzip
      obtain ⟨hf, hfree⟩ := List.mem_filter.1 hf
      refine ⟨hkey, respells_mergeAll_field hfirst hd hf (List.mem_filter.1 hf').1 hkey hvalue ?_⟩
      exact fun m m' => hunder f.1 m m' (by simpa using hfree)
    · have hfree : (fun f : Scalar × Value => (Fields.get? f.1 first').isNone) =
          fun f => (Fields.get? f.1 first).isNone := by
        funext f
        rw [isNone_get?_of_respells hfirst]
      have hseen : (fun f : Scalar × Value => !seen f.1 && (Fields.get? f.1 first).isNone) =
          fun f => !(seen f.1 || !(Fields.get? f.1 first).isNone) := by
        funext f
        rw [Bool.not_or, Bool.not_not]
      rw [hfree, List.filter_filter, List.filter_filter, hseen, ← respellsBelow_iff]
      apply ih hdrest fun key => seen key || !(Fields.get? key first).isNone
      intro key m m' hkey hm hm'
      rw [Bool.or_eq_false_iff, Bool.not_eq_false'] at hkey
      have hnone := Option.isNone_iff_eq_none.1 hkey.2
      have hnone' : Fields.get? key first' = none := by
        rw [← Option.isNone_iff_eq_none, ← isNone_get?_of_respells hfirst, hkey.2]
      apply hunder key m m' hkey.1
      · rwa [List.filterMap_cons, hnone]
      · rwa [List.filterMap_cons, hnone']

/-- Respelled documents merge to a respelled document if, wherever globs are declared, the
values that take part are indifferent to their spelling. -/
theorem respells_merged? {m m' : Value} (h : List.Forall₂ Respells docs docs')
    (hkeyed : ∀ d ∈ docs, d.isKeyed = true)
    (hplaces : ∀ place, AreIndifferent ((takingPart (place ++ [ignoreKey]) docs).zip
      (takingPart (place ++ [ignoreKey]) docs')))
    (hm : merged? docs = some m) (hm' : merged? docs' = some m') : Respells m m' := by
  -- on the height of the documents, as what stands under a key has a smaller one
  obtain ⟨n, hn⟩ := exists_height_lt docs
  induction n generalizing docs docs' m m' with
  | zero =>
    cases docs with
    | nil => cases hm
    | cons v rest => exact absurd (hn v List.mem_cons_self) (Nat.not_lt_zero _)
  | succ n ih =>
    obtain _ | @⟨v, v', rest, rest', hv, hrest⟩ := h
    · cases hm
    cases hm
    cases hm'
    have hdocs := List.Forall₂.cons hv hrest
    have hshape := (haveSameShape_of_respells hv).mergeAll
      (hrest.imp fun _ _ => haveSameShape_of_respells)
    by_cases hmap : (mergeAll v rest).kind = .mapping
    · have hmap' := hshape.kind_eq.trans hmap
      have hunder : ∀ key m m', merged? (under key (v :: rest)) = some m →
          merged? (under key (v' :: rest')) = some m' → RespellsUnder key m m' := by
        intro key m m' hm hm'
        have hvalues := respells_under hdocs key
        by_cases hkey : key = ignoreKey
        · subst hkey
          have hind := hplaces []
          rw [List.nil_append, takingPart_cons, if_pos hmap, takingPart_cons, if_pos hmap'] at hind
          rw [respellsUnder_ignoreKey] at hvalues ⊢
          exact respellsGlob_merged? hvalues hind hm hm'
        · rw [respellsUnder_of_ne hkey] at hvalues ⊢
          refine ih hvalues (isKeyed_under hkeyed key) ?_ hm hm' (height_under_lt hn key)
          intro place
          have hind := hplaces (key :: place)
          rwa [List.cons_append, takingPart_cons, if_pos hmap, takingPart_cons,
            if_pos hmap'] at hind
      rw [mergeAll_eq_combine hkeyed hmap, respells_map_iff,
        mergeAll_eq_combine (isKeyed_of_forall₂ hdocs hkeyed) hmap']
      refine ⟨_, rfl, ?_⟩
      simpa using respells_combine (respellsBelow_map_fields hdocs)
        (hasDistinctKeys_map_fields hkeyed) (fun _ => false) fun key m m' _ => hunder key m m'
    · rw [hshape.eq_of_ne_mapping hmap, respells_iff_eq hmap]

theorem rel_merged? (h : List.Forall₂ Respells docs docs')
    (hkeyed : ∀ d ∈ docs, d.isKeyed = true)
    (hplaces : ∀ place, AreIndifferent ((takingPart (place ++ [ignoreKey]) docs).zip
      (takingPart (place ++ [ignoreKey]) docs'))) :
    Option.Rel Respells (merged? docs) (merged? docs') := by
  have hshape := haveSameShape_merged? h
  have hrespells := fun m m' => @respells_merged? docs docs' m m' h hkeyed hplaces
  generalize merged? docs = found at hshape hrespells
  generalize merged? docs' = found' at hshape hrespells
  cases hshape with
  | none => exact .none
  | some _ => exact .some (hrespells _ _ rfl rfl)

end Merging

end Dotfiles.Value
