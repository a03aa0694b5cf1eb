import Dotfiles.Proofs.Value.Merging
import Mathlib.Data.List.Forall2

/-!
Paths of keys through the mappings of a value. What stands at a path in merged documents
is what the documents have there, merged, unless one of them puts something else in the
place of a mapping above it.
-/

namespace Dotfiles.Value

/-- The value at the end of a path of keys, which leads through mappings only. -/
def at? : List Scalar → Value → Option Value
  | [], v => some v
  | key :: rest, v => (Fields.get? key v.fields).bind (at? rest)

mutual

/-- Whether no mapping in a value has a key twice. What stands in lists does not count. -/
def isKeyed : Value → Bool
  | .map fields => decide (Fields.HasDistinctKeys fields) && areKeyed fields
  | _ => true

/-- Whether no mapping in the values of some fields has a key twice. -/
def areKeyed : Fields → Bool
  | [] => true
  | (_, value) :: rest => isKeyed value && areKeyed rest

end

mutual

/-- How many keys lead to a value inside another one at most. -/
def height : Value → Nat
  | .map fields => heights fields
  | _ => 0

/-- One more than the greatest height among the values of some fields. -/
def heights : Fields → Nat
  | [] => 0
  | (_, value) :: rest => Nat.max (value.height + 1) (heights rest)

end

mutual

/-- The paths to all values in a value. -/
def paths : Value → List (List Scalar)
  | .map fields => [] :: pathsOf fields
  | _ => [[]]

/-- The paths to all values in some fields. -/
def pathsOf : Fields → List (List Scalar)
  | [] => []
  | (key, value) :: rest => (paths value).map (key :: ·) ++ pathsOf rest

end

section Paths

variable {v u : Value} {key : Scalar} {path : List Scalar}

theorem at?_cons (key : Scalar) (rest : List Scalar) (v : Value) :
    v.at? (key :: rest) = (Fields.get? key v.fields).bind (at? rest) := rfl

theorem eq_map_of_get? (h : Fields.get? key v.fields = some u) : v = .map v.fields := by
  cases v with
  | map fields => rfl
  | _ => cases h

theorem hasDistinctKeys_fields (h : v.isKeyed = true) : Fields.HasDistinctKeys v.fields := by
  cases v with
  | map fields =>
    rw [isKeyed, Bool.and_eq_true, decide_eq_true_eq] at h
    exact h.1
  | _ => exact .nil

theorem isKeyed_of_mem {fields : Fields} (h : areKeyed fields = true) {f : Scalar × Value}
    (hf : f ∈ fields) : f.2.isKeyed = true := by
  induction fields with
  | nil => cases hf
  | cons field rest ih =>
    rw [areKeyed, Bool.and_eq_true] at h
    rcases List.mem_cons.1 hf with rfl | hf
    · exact h.1
    · exact ih h.2 hf

theorem isKeyed_of_get? (h : v.isKeyed = true) (hu : Fields.get? key v.fields = some u) :
    u.isKeyed = true := by
  rw [eq_map_of_get? hu, isKeyed, Bool.and_eq_true] at h
  obtain ⟨k, hm, _⟩ := Fields.exists_mem_of_get? hu
  exact isKeyed_of_mem h.2 hm

theorem isKeyed_of_at? (h : v.isKeyed = true) (hu : v.at? path = some u) :
    u.isKeyed = true := by
  induction path generalizing v with
  | nil =>
    cases hu
    exact h
  | cons key rest ih =>
    rw [at?_cons, Option.bind_eq_some_iff] at hu
    obtain ⟨w, hw, hu⟩ := hu
    exact ih (isKeyed_of_get? h hw) hu

theorem height_lt_heights {fields : Fields} {f : Scalar × Value} (hf : f ∈ fields) :
    f.2.height < heights fields := by
  induction fields with
  | nil => cases hf
  | cons field rest ih =>
    rw [heights]
    rcases List.mem_cons.1 hf with rfl | hf
    · exact Nat.lt_of_lt_of_le (Nat.lt_succ_self _) (Nat.le_max_left _ _)
    · exact Nat.lt_of_lt_of_le (ih hf) (Nat.le_max_right _ _)

theorem height_get?_lt (hu : Fields.get? key v.fields = some u) : u.height < v.height := by
  rw [eq_map_of_get? hu, height]
  obtain ⟨k, hm, _⟩ := Fields.exists_mem_of_get? hu
  exact height_lt_heights hm

theorem at?_congr {own : List Scalar} (h : List.Forall₂ (·.sameKey · = true) own path) :
    at? own = at? path := by
  induction h with
  | nil => rfl
  | cons hkey _ ih =>
    funext v
    rw [at?_cons, at?_cons, Fields.get?_congr hkey, ih]

theorem nil_mem_paths (v : Value) : [] ∈ v.paths := by
  cases v <;> simp [paths]

theorem mem_pathsOf {fields : Fields} (hf : (key, u) ∈ fields) (hp : path ∈ u.paths) :
    key :: path ∈ pathsOf fields := by
  induction fields with
  | nil => cases hf
  | cons field rest ih =>
    rw [pathsOf, List.mem_append]
    rcases List.mem_cons.1 hf with rfl | hf
    · exact .inl (List.mem_map_of_mem hp)
    · exact .inr (ih hf)

/-- Where a value has something, it has it at one of its own paths, with the same keys. -/
theorem exists_mem_paths (h : v.at? path = some u) :
    ∃ own ∈ v.paths, List.Forall₂ (·.sameKey · = true) own path := by
  induction path generalizing v with
  | nil => exact ⟨[], nil_mem_paths v, .nil⟩
  | cons key rest ih =>
    rw [at?_cons, Option.bind_eq_some_iff] at h
    obtain ⟨w, hw, h⟩ := h
    obtain ⟨own, hown, hsame⟩ := ih h
    obtain ⟨k, hk, hkey⟩ := Fields.exists_mem_of_get? hw
    refine ⟨k :: own, ?_, .cons hkey hsame⟩
    rw [eq_map_of_get? hw, paths]
    exact List.mem_cons_of_mem _ (mem_pathsOf hk hown)

end Paths

section Merging

variable {u v old : Value} {path : List Scalar}

/-- Whether merging a value leaves the mappings above a path alone: nothing that it has on
the way there replaces them. -/
def spares : List Scalar → Value → Bool
  | [], _ => true
  | key :: rest, v => v.kind ≠ .single && (Fields.get? key v.fields).all (spares rest)

theorem spares_of_at? (h : v.at? path = some u) : v.spares path = true := by
  induction path generalizing v with
  | nil => rfl
  | cons key rest ih =>
    rw [at?_cons, Option.bind_eq_some_iff] at h
    obtain ⟨w, hw, h⟩ := h
    have hkind : v.kind ≠ .single := by
      rw [eq_map_of_get? hw]
      simp [kind]
    rw [spares, hw, Option.all_some, ih h, decide_eq_true hkind]
    rfl

/-- At a path that a value spares, merging it merges what it has there. -/
theorem at?_merge (hu : u.at? path = some old) (hv : v.isKeyed = true)
    (hs : v.spares path = true) :
    (merge u v).at? path = some ((v.at? path).elim old (merge old)) := by
  induction path generalizing u v with
  | nil =>
    cases hu
    rfl
  | cons key rest ih =>
    rw [at?_cons, Option.bind_eq_some_iff] at hu
    obtain ⟨w, hw, hu⟩ := hu
    rw [spares, Bool.and_eq_true, decide_eq_true_eq] at hs
    rw [eq_map_of_get? hw, merge_map_left _ hs.1, at?_cons, at?_cons]
    show (Fields.get? key (mergeFields u.fields v.fields)).bind _ = _
    rw [get?_mergeFields (hasDistinctKeys_fields hv), hw]
    cases hk : Fields.get? key v.fields with
    | none => exact hu
    | some x =>
      rw [hk, Option.all_some] at hs
      exact ih hu (isKeyed_of_get? hv hk) hs.2

end Merging

end Dotfiles.Value
