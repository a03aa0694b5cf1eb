import Dotfiles.Proofs.Value.Paths

/-!
Documents that write the entries of their mappings in different orders.
-/

namespace Dotfiles.Value

mutual

/-- Whether a value is another one in which the entries of some mappings, at any depth, stand in
another order. -/
def Rearranges : Value → Value → Prop
  | .map fields, v' => ∃ fields' sorted,
      v' = .map sorted ∧ RearrangesBelow fields fields' ∧ fields'.Perm sorted
  | .list items, v' => ∃ items', v' = .list items' ∧ RearrangesItems items items'
  | .pair first second, v' => ∃ first' second',
      v' = .pair first' second' ∧ Rearranges first first' ∧ Rearranges second second'
  | v, v' => v' = v

/-- Whether fields are others, one by one, with rearranged values. -/
def RearrangesBelow : Fields → Fields → Prop
  | [], fields' => fields' = []
  | (key, v) :: rest, fields' => ∃ v' rest', fields' = (key, v') :: rest' ∧
      Rearranges v v' ∧ RearrangesBelow rest rest'

/-- Whether items are others, one by one, rearranged. -/
def RearrangesItems : List Value → List Value → Prop
  | [], items' => items' = []
  | v :: rest, items' => ∃ v' rest', items' = v' :: rest' ∧
      Rearranges v v' ∧ RearrangesItems rest rest'

end

variable {v v' : Value} {fields fields' : Fields}

theorem rearrangesBelow_iff : RearrangesBelow fields fields' ↔
    List.Forall₂ (fun f f' => f.1 = f'.1 ∧ Rearranges f.2 f'.2) fields fields' := by
  induction fields generalizing fields' with
  | nil => rw [RearrangesBelow, List.forall₂_nil_left_iff]
  | cons field rest ih =>
    rw [RearrangesBelow, List.forall₂_cons_left_iff]
    constructor
    · rintro ⟨v', rest', rfl, hv, hrest⟩
      exact ⟨(field.1, v'), rest', ⟨rfl, hv⟩, ih.1 hrest, rfl⟩
    · rintro ⟨⟨k, v'⟩, rest', ⟨rfl, hv⟩, hrest, rfl⟩
      exact ⟨v', rest', rfl, hv, ih.2 hrest⟩

theorem map_fst_of_rearranges (h : RearrangesBelow fields fields') :
    fields.map (·.1) = fields'.map (·.1) := by
  rw [rearrangesBelow_iff] at h
  induction h with
  | nil => rfl
  | cons hfield _ ih => rw [List.map_cons, List.map_cons, hfield.1, ih]

theorem rearranges_map_iff : Rearranges (.map fields) v' ↔ ∃ fields' sorted,
    v' = .map sorted ∧ RearrangesBelow fields fields' ∧ fields'.Perm sorted := by
  rw [Rearranges]

theorem rearranges_map (h : RearrangesBelow fields fields') :
    Rearranges (.map fields) (.map fields') :=
  rearranges_map_iff.2 ⟨fields', fields', rfl, h, .refl _⟩

theorem rearrangesBelow_cons (key : Scalar) (h : Rearranges v v')
    (hrest : RearrangesBelow fields fields') :
    RearrangesBelow ((key, v) :: fields) ((key, v') :: fields') := by
  rw [RearrangesBelow]
  exact ⟨v', fields', rfl, h, hrest⟩

/-- A scalar is rearranged to nothing but itself. -/
theorem rearranges_scalar_iff {s : Scalar} : Rearranges (.scalar s) v' ↔ v' = .scalar s := by
  rw [Rearranges] <;> simp

theorem rearranges_set_iff {members : List Scalar} :
    Rearranges (.set members) v' ↔ v' = .set members := by
  rw [Rearranges] <;> simp

theorem rearranges_endless_iff : Rearranges .endless v' ↔ v' = .endless := by
  rw [Rearranges] <;> simp

mutual

theorem rearranges_refl : ∀ v : Value, Rearranges v v
  | .map fields => rearranges_map_iff.2 ⟨fields, fields, rfl, rearrangesBelow_refl fields, .refl _⟩
  | .list items => by
    rw [Rearranges]
    exact ⟨items, rfl, rearrangesItems_refl items⟩
  | .pair first second => by
    rw [Rearranges]
    exact ⟨first, second, rfl, rearranges_refl first, rearranges_refl second⟩
  | .scalar s => rearranges_scalar_iff.2 rfl
  | .set members => rearranges_set_iff.2 rfl
  | .endless => rearranges_endless_iff.2 rfl

theorem rearrangesBelow_refl : ∀ fields : Fields, RearrangesBelow fields fields
  | [] => by rw [RearrangesBelow]
  | (key, v) :: rest => by
    rw [RearrangesBelow]
    exact ⟨v, rest, rfl, rearranges_refl v, rearrangesBelow_refl rest⟩

theorem rearrangesItems_refl : ∀ items : List Value, RearrangesItems items items
  | [] => by rw [RearrangesItems]
  | v :: rest => by
    rw [RearrangesItems]
    exact ⟨v, rest, rfl, rearranges_refl v, rearrangesItems_refl rest⟩

end

theorem rearranges_of_perm (h : fields.Perm fields') : Rearranges (.map fields) (.map fields') :=
  rearranges_map_iff.2 ⟨fields, fields', rfl, rearrangesBelow_refl fields, h⟩

end Dotfiles.Value
