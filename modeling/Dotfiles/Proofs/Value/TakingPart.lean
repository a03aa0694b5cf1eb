import Dotfiles.Proofs.Value.Paths

/-!
The values that take part in what stands at a path in merged documents. These are all values
that the documents have there, as long as every mapping above the path is merged into a
mapping, and none otherwise.
-/

namespace Dotfiles.Value

/-- What documents have under a key. -/
def under (key : Scalar) (docs : List Value) : List Value :=
  (docs.map fields).filterMap (Fields.get? key)

/-- The values that take part in what merged documents have at a path. -/
def takingPart : List Scalar → List Value → List Value
  | [], docs => docs
  | key :: rest, docs =>
    if (merged? docs).map kind = some .mapping then takingPart rest (under key docs) else []

section Under

variable {docs : List Value} {key : Scalar} {u : Value}

theorem under_append (key : Scalar) (first second : List Value) :
    under key (first ++ second) = under key first ++ under key second := by
  simp [under]

theorem exists_of_mem_under (h : u ∈ under key docs) :
    ∃ d ∈ docs, Fields.get? key d.fields = some u := by
  obtain ⟨fields, hf, hu⟩ := List.mem_filterMap.1 h
  obtain ⟨d, hd, rfl⟩ := List.mem_map.1 hf
  exact ⟨d, hd, hu⟩

theorem under_eq_nil (h : ∀ d ∈ docs, d.kind ≠ .mapping) : under key docs = [] := by
  refine List.filterMap_eq_nil_iff.2 fun f hf => ?_
  obtain ⟨d, hd, rfl⟩ := List.mem_map.1 hf
  rw [fields_of_kind_ne (h d hd)]
  rfl

theorem isKeyed_under (h : ∀ d ∈ docs, d.isKeyed = true) (key : Scalar) :
    ∀ u ∈ under key docs, u.isKeyed = true := by
  intro u hu
  obtain ⟨d, hd, hu⟩ := exists_of_mem_under hu
  exact isKeyed_of_get? (h d hd) hu

theorem exists_height_lt (docs : List Value) : ∃ n, ∀ d ∈ docs, d.height < n := by
  refine ⟨heights (docs.map (Scalar.null, ·)), fun d hd => ?_⟩
  exact height_lt_heights (f := (.null, d)) (List.mem_map_of_mem hd)

theorem height_under_lt {n : Nat} (h : ∀ d ∈ docs, d.height < n + 1) (key : Scalar) :
    ∀ u ∈ under key docs, u.height < n := by
  intro u hu
  obtain ⟨d, hd, hu⟩ := exists_of_mem_under hu
  exact Nat.lt_of_lt_of_le (height_get?_lt hu) (Nat.le_of_lt_succ (h d hd))

theorem hasDistinctKeys_map_fields (h : ∀ d ∈ docs, d.isKeyed = true) :
    ∀ f ∈ docs.map fields, Fields.HasDistinctKeys f := by
  intro f hf
  obtain ⟨d, hd, rfl⟩ := List.mem_map.1 hf
  exact hasDistinctKeys_fields (h d hd)

end Under

section Paths

variable {docs : List Value} {path own : List Scalar} {u : Value}

theorem exists_of_mem_takingPart (h : u ∈ takingPart path docs) :
    ∃ d ∈ docs, d.at? path = some u := by
  induction path generalizing docs with
  | nil => exact ⟨u, h, rfl⟩
  | cons key path ih =>
    rw [takingPart] at h
    split at h
    · obtain ⟨w, hw, hu⟩ := ih h
      obtain ⟨d, hd, hw⟩ := exists_of_mem_under hw
      exact ⟨d, hd, by rw [at?_cons, hw]; exact hu⟩
    · cases h

theorem takingPart_congr (h : List.Forall₂ (·.sameKey · = true) own path) :
    takingPart own = takingPart path := by
  induction h with
  | nil => rfl
  | cons hkey _ ih =>
    funext docs
    have hunder : under _ docs = under _ docs :=
      List.filterMap_congr fun f _ => Fields.get?_congr hkey f
    rw [takingPart, takingPart, ih, hunder]

end Paths

section Mappings

variable {v w : Value} {rest docs : List Value}

/-- A mapping takes the place of nothing, and only a single value takes its place. -/
theorem kind_merge_eq_mapping_iff :
    (merge v w).kind = .mapping ↔ v.kind = .mapping ∧ w.kind ≠ .single := by
  by_cases hw : w.kind = .single
  · simp [merge_of_single hw, hw]
  · by_cases hv : v.kind = .mapping
    · simp only [hv, ne_eq, hw, not_false_eq_true, and_self, iff_true]
      rw [eq_map_of_kind hv, merge_map_left _ hw]
      rfl
    · simp only [hv, false_and, iff_false]
      by_cases hsame : w.kind = .null ∨ v.kind ≠ w.kind
      · rwa [merge_eq_left hw hsame]
      · rw [not_or, not_not] at hsame
        cases hk : w.kind with
        | list =>
          rw [eq_list_of_kind (hsame.2.trans hk), merge_list_left _ hw]
          nofun
        | null => exact absurd hk hsame.1
        | single => exact absurd hk hw
        | mapping => exact absurd (hsame.2.trans hk) hv

theorem kind_mergeAll_eq_mapping_iff :
    (mergeAll v rest).kind = .mapping ↔ v.kind = .mapping ∧ ∀ w ∈ rest, w.kind ≠ .single := by
  induction rest generalizing v with
  | nil => simp [mergeAll]
  | cons w more ih =>
    rw [mergeAll_cons, ih, kind_merge_eq_mapping_iff, List.forall_mem_cons, and_assoc]

theorem mergeAll_eq_combine (hkeyed : ∀ d ∈ v :: rest, d.isKeyed = true)
    (h : (mergeAll v rest).kind = .mapping) :
    mergeAll v rest = .map (combine ((v :: rest).map fields)) := by
  obtain ⟨hvk, hrest⟩ := List.forall_mem_cons.1 hkeyed
  obtain ⟨hv, hsingle⟩ := kind_mergeAll_eq_mapping_iff.1 h
  rw [eq_map_of_kind hv, mergeAll_map _ hsingle, foldl_mergeFields (hasDistinctKeys_fields hvk)
    (hasDistinctKeys_map_fields hrest)]
  rfl

theorem get?_mergeAll (hkeyed : ∀ d ∈ v :: rest, d.isKeyed = true)
    (h : (mergeAll v rest).kind = .mapping) (key : Scalar) :
    Fields.get? key (mergeAll v rest).fields = merged? (under key (v :: rest)) := by
  rw [mergeAll_eq_combine hkeyed h]
  exact get?_combine key _

theorem takingPart_cons (key : Scalar) (path : List Scalar) (v : Value) (rest : List Value) :
    takingPart (key :: path) (v :: rest) =
      if (mergeAll v rest).kind = .mapping then takingPart path (under key (v :: rest)) else [] := by
  simp [takingPart, merged?]

/-- At every path, what documents merge to has what the values that take part there merge
to. -/
theorem at?_merged? (hkeyed : ∀ d ∈ docs, d.isKeyed = true) (path : List Scalar) :
    (merged? docs).bind (at? path) = merged? (takingPart path docs) := by
  induction path generalizing docs with
  | nil => cases docs <;> rfl
  | cons key path ih =>
    cases docs with
    | nil => rfl
    | cons v rest =>
      rw [takingPart_cons, merged?, Option.bind_some, at?_cons]
      split
      · rename_i h
        rw [get?_mergeAll hkeyed h, ih (isKeyed_under hkeyed key)]
      · rename_i h
        rw [fields_of_kind_ne h]
        rfl

end Mappings

end Dotfiles.Value
