import Dotfiles.Value.Basic
import Mathlib.Data.List.Basic

/-!
Keys of mappings. Being the same key is symmetric and transitive, as two scalars are the
same key exactly if both are known by the same thing. Only a NaN is known by nothing, and
is not even the same key as itself.
-/

namespace Dotfiles

/-- What a key is known by: equal numbers are one key, and so are equal moments. -/
inductive KeyIdentity where
  | integer (n : Int)
  | number (x : Binary64)
  | instant (zoned : Bool) (time : Int)
  | other (s : Scalar)
  deriving DecidableEq

/-- The number of microseconds up to a moment, by universal time if its zone is known. -/
def Moment.time (m : Moment) : Int := m.localTime - m.offset.getD 0 * 60000000

/-- What a scalar is known by as a key. -/
def Scalar.identity? (s : Scalar) : Option KeyIdentity :=
  match s.integer? with
  | some n => some (.integer n)
  | none =>
    match s with
    | .float x => if x.magnitude = .nan then none else some (.number x)
    | .moment m => some (.instant m.offset.isSome m.time)
    | s => some (.other s)

/-- Moments are the same if they are at the same time, both with a zone or both without. -/
theorem Moment.isSame_iff (a b : Moment) :
    a.isSame b = true ↔ a.offset.isSome = b.offset.isSome ∧ a.time = b.time := by
  unfold Moment.isSame Moment.time
  cases a.offset with
  | none =>
    cases b.offset with
    | none =>
      rw [decide_eq_true_eq, ← Int.natCast_inj]
      simp
    | some n => simp
  | some m => cases b.offset <;> simp

namespace Binary64

theorem isZero_eq_false {x : Binary64} (h : x.toInt? = none) : x.isZero = false := by
  unfold isZero
  unfold toInt? at h
  split
  · rename_i e hm
    simp [hm] at h
  · rfl

theorem sameNumber_iff {x y : Binary64} (hx : x.toInt? = none) :
    x.sameNumber y = true ↔ x.magnitude ≠ .nan ∧ x = y := by
  unfold sameNumber
  split
  · rename_i hm
    simp [hm]
  · rename_i hm
    rw [isZero_eq_false hx]
    simpa using fun _ => hm

end Binary64

namespace Scalar

/-- Two scalars are the same key exactly if they are known by the same thing. -/
theorem sameKey_iff (a b : Scalar) :
    a.sameKey b = true ↔ a.identity? = b.identity? ∧ a.identity?.isSome = true := by
  unfold sameKey identity?
  cases ha : a.integer? with
  | some m =>
    cases hb : b.integer? with
    | some n => simp
    | none =>
      cases b with
      | float y => by_cases hy : y.magnitude = .nan <;> simp [hy]
      | _ => simp
  | none =>
    cases hb : b.integer? with
    | some n =>
      cases a with
      | float x => by_cases hx : x.magnitude = .nan <;> simp [hx]
      | _ => simp
    | none =>
      cases a with
      | float x =>
        cases b with
        | float y =>
          rw [Binary64.sameNumber_iff ha]
          by_cases hx : x.magnitude = .nan
          · simp [hx]
          · by_cases hy : y.magnitude = .nan
            · have hne : x ≠ y := fun he => hx (he ▸ hy)
              simp [hy, hne]
            · simp [hx, hy]
        | _ => by_cases hx : x.magnitude = .nan <;> simp [hx]
      | moment m =>
        cases b with
        | float y => by_cases hy : y.magnitude = .nan <;> simp [hy]
        | moment n => simp [Moment.isSame_iff]
        | _ => simp
      | _ =>
        cases b with
        | float y => by_cases hy : y.magnitude = .nan <;> simp [hy]
        | _ => simp

theorem sameKey_comm (a b : Scalar) : a.sameKey b = b.sameKey a := by
  rw [Bool.eq_iff_iff, sameKey_iff, sameKey_iff]
  constructor <;> exact fun ⟨h, hs⟩ => ⟨h.symm, h ▸ hs⟩

/-- The same key is the same key as no other keys than this one is. -/
theorem sameKey_congr {a b : Scalar} (h : a.sameKey b = true) (c : Scalar) :
    a.sameKey c = b.sameKey c := by
  rw [Bool.eq_iff_iff, sameKey_iff, sameKey_iff, ((sameKey_iff a b).1 h).1]

end Scalar

namespace Fields

/-- No key stands twice. -/
def HasDistinctKeys (fields : Fields) : Prop :=
  fields.Pairwise fun a b => a.1.sameKey b.1 = false

instance (fields : Fields) : Decidable fields.HasDistinctKeys :=
  inferInstanceAs (Decidable (List.Pairwise _ fields))

variable {key other : Scalar} {fields : Fields}

theorem get?_append (key : Scalar) (first second : Fields) :
    get? key (first ++ second) = (get? key first).or (get? key second) := by
  induction first with
  | nil => rfl
  | cons field rest ih =>
    rw [List.cons_append, get?, get?]
    split
    · rfl
    · exact ih

theorem get?_congr (h : key.sameKey other = true) (fields : Fields) :
    get? key fields = get? other fields := by
  induction fields with
  | nil => rfl
  | cons field rest ih =>
    rw [get?, get?, ih, Scalar.sameKey_comm field.1, Scalar.sameKey_comm field.1,
      Scalar.sameKey_congr h]

theorem get?_eq_none_iff : get? key fields = none ↔ ∀ f ∈ fields, f.1.sameKey key = false := by
  induction fields with
  | nil => simp [get?]
  | cons field rest ih =>
    rw [get?, List.forall_mem_cons]
    split
    · rename_i h
      simp [h]
    · rename_i h
      simp [h, ih]

theorem exists_mem_of_get? {value : Value} (h : get? key fields = some value) :
    ∃ k, (k, value) ∈ fields ∧ k.sameKey key = true := by
  induction fields with
  | nil => cases h
  | cons field rest ih =>
    rw [get?] at h
    split at h
    · rename_i hk
      cases h
      exact ⟨field.1, List.mem_cons_self, hk⟩
    · obtain ⟨k, hm, hk⟩ := ih h
      exact ⟨k, List.mem_cons_of_mem _ hm, hk⟩

theorem get?_of_mem (h : HasDistinctKeys fields) {value : Value} (hm : (key, value) ∈ fields)
    (hk : key.sameKey key = true) : get? key fields = some value := by
  induction fields with
  | nil => cases hm
  | cons field rest ih =>
    obtain ⟨hfield, hrest⟩ := List.pairwise_cons.1 h
    rw [get?]
    rcases List.mem_cons.1 hm with rfl | hm
    · rw [if_pos hk]
    · rw [hfield _ hm]
      exact ih hrest hm

theorem sameKey_self_of_get? {value : Value} (h : get? key fields = some value) :
    key.sameKey key = true := by
  obtain ⟨k, _, hk⟩ := exists_mem_of_get? h
  rw [← Scalar.sameKey_congr hk, hk]

theorem get?_insert (key other : Scalar) (value : Value) (fields : Fields) :
    get? other (insert key value fields) =
      if key.sameKey other then some value else get? other fields := by
  induction fields with
  | nil => rfl
  | cons field rest ih =>
    rw [insert]
    split
    · rename_i hs
      rw [get?, get?, Scalar.sameKey_congr hs]
      cases key.sameKey other <;> rfl
    · rename_i hs
      rw [get?, get?, ih]
      cases ho : field.1.sameKey other with
      | true =>
        -- the key is not that of the first field, which is the one looked for
        have hne : key.sameKey other = false := by
          rw [Scalar.sameKey_comm, ← Scalar.sameKey_congr ho]
          simpa using hs
        rw [hne]
        rfl
      | false => rfl

/-- Values that are changed in place, in the same way for the same key, are found changed. -/
theorem get?_map {change : Scalar → Value → Value}
    (h : ∀ k, k.sameKey key = true → change k = change key) :
    get? key (fields.map fun f => (f.1, change f.1 f.2)) = (get? key fields).map (change key) := by
  induction fields with
  | nil => rfl
  | cons field rest ih =>
    rw [List.map_cons, get?, get?]
    split
    · rename_i hs
      rw [h field.1 hs]
      rfl
    · exact ih

/-- Of the fields whose keys others do not have, those are found whose keys they do not have. -/
theorem get?_filter_free (key : Scalar) (fields others : Fields) :
    get? key (fields.filter fun f => (get? f.1 others).isNone) =
      if (get? key others).isNone then get? key fields else none := by
  induction fields with
  | nil => simp [get?]
  | cons field rest ih =>
    rw [List.filter_cons, get?]
    cases hs : field.1.sameKey key with
    | true =>
      rw [get?_congr hs]
      by_cases ho : (get? key others).isNone = true
      · simp [ho, get?, hs]
      · simp [ho, ih]
    | false =>
      by_cases hf : (get? field.1 others).isNone = true
      · simp [hf, get?, hs, ih]
      · simp [hf, ih]

theorem hasDistinctKeys_iff : HasDistinctKeys fields ↔
    (fields.map (·.1)).Pairwise fun a b => a.sameKey b = false := by
  rw [List.pairwise_map, HasDistinctKeys]

theorem isNone_get? (key : Scalar) (fields : Fields) :
    (get? key fields).isNone = (fields.map (·.1)).all fun k => !k.sameKey key := by
  rw [Bool.eq_iff_iff, Option.isNone_iff_eq_none, get?_eq_none_iff]
  simp

end Fields

end Dotfiles
