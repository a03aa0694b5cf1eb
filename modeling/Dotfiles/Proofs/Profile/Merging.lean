import Dotfiles.Profile.Attributes
import Mathlib.Data.List.Induction

/-!
Attributes merged one after another. Merging is associative, so it does not matter
how a sequence of declarations is grouped; the last value set wins, and globs add up
in their order.
-/

namespace Dotfiles.Attributes

/-- The value that the last of the attributes to set one sets. -/
def lastSet {α : Type} (field : Attributes → Option α) (declared : List Attributes) : Option α :=
  declared.reverse.findSome? field

/-- What attributes declared for the same target merge to, one after another. -/
def mergeAll (declared : List Attributes) : Attributes := declared.foldl merge empty

/-- Whether attributes are what several declarations say together when the last one to
set a value decides and globs add up. -/
structure LastWins (a : Attributes) (declared : List Attributes) : Prop where
  source : a.source = lastSet (·.source) declared
  method : a.method = lastSet (·.method) declared
  recursive : a.recursive = lastSet (·.recursive) declared
  globs : a.globs.globs = declared.flatMap (·.globs.globs)

theorem lastSet_append {α : Type} (field : Attributes → Option α) (first second : List Attributes) :
    lastSet field (first ++ second) = (lastSet field second).or (lastSet field first) := by
  simp [lastSet, List.findSome?_append]

theorem lastSet_singleton {α : Type} (field : Attributes → Option α) (a : Attributes) :
    lastSet field [a] = field a := by
  simp [lastSet]

theorem exists_of_lastSet {α : Type} {field : Attributes → Option α} {declared : List Attributes}
    {x : α} (h : lastSet field declared = some x) : ∃ a ∈ declared, field a = some x := by
  obtain ⟨a, ha, hx⟩ := List.exists_of_findSome?_eq_some h
  exact ⟨a, List.mem_reverse.1 ha, hx⟩

theorem isEmpty_union (a b : GlobList) : (a.union b).isEmpty = (a.isEmpty && b.isEmpty) := by
  cases h : a.globs <;> simp [GlobList.isEmpty, GlobList.union, h]

theorem union_assoc (a b c : GlobList) : (a.union b).union c = a.union (b.union c) := by
  simp [GlobList.union]

theorem ignore_merge (a b : Attributes) :
    (a.merge b).ignore = if b.globs.isEmpty then a.ignore else some (a.globs.union b.globs) := rfl

theorem merge_assoc (a b c : Attributes) : (a.merge b).merge c = a.merge (b.merge c) := by
  have hignore : ((a.merge b).merge c).ignore = (a.merge (b.merge c)).ignore := by
    simp only [ignore_merge, globs_merge, isEmpty_union, union_assoc]
    cases hb : b.globs.isEmpty with
    | false => cases hc : c.globs.isEmpty <;> simp_all [GlobList.isEmpty, GlobList.union]
    | true => cases hc : c.globs.isEmpty <;> simp
  have hrest : ((a.merge b).merge c).source = (a.merge (b.merge c)).source ∧
      ((a.merge b).merge c).method = (a.merge (b.merge c)).method ∧
      ((a.merge b).merge c).recursive = (a.merge (b.merge c)).recursive := by
    simp [merge, Option.or_assoc]
  cases hl : (a.merge b).merge c
  cases hr : a.merge (b.merge c)
  simp_all

theorem foldl_merge (declared : List Attributes) (a : Attributes) :
    declared.foldl merge a = a.merge (mergeAll declared) := by
  induction declared generalizing a with
  | nil => simp [mergeAll]
  | cons d rest ih =>
    have hfirst : mergeAll (d :: rest) = (Attributes.empty.merge d).merge (mergeAll rest) :=
      ih (Attributes.empty.merge d)
    rw [List.foldl_cons, ih, hfirst, ← merge_assoc, ← merge_assoc, merge_empty]

theorem mergeAll_append (first second : List Attributes) :
    mergeAll (first ++ second) = (mergeAll first).merge (mergeAll second) := by
  rw [mergeAll, List.foldl_append, foldl_merge second]
  rfl

/-- Declarations may be merged in groups before the groups are. -/
theorem mergeAll_flatMap {α : Type} (group : α → List Attributes) (items : List α) :
    mergeAll (items.flatMap group) = mergeAll (items.map fun x => mergeAll (group x)) := by
  induction items with
  | nil => rfl
  | cons x rest ih =>
    have hsingle : mergeAll [mergeAll (group x)] = mergeAll (group x) := by
      have h := foldl_merge (group x) Attributes.empty
      exact h.symm
    rw [List.flatMap_cons, mergeAll_append, ih, List.map_cons, ← List.singleton_append,
      mergeAll_append, hsingle]

/-- Merging what has been merged into nothing comes to the same. -/
theorem mergeAll_map_merge_empty (declared : List Attributes) :
    mergeAll (declared.map fun a => Attributes.empty.merge a) = mergeAll declared := by
  have hstep : ∀ a d : Attributes, a.merge (Attributes.empty.merge d) = a.merge d := by
    intro a d
    rw [← merge_assoc, merge_empty]
  rw [mergeAll, List.foldl_map, mergeAll]
  simp only [hstep]

/-- Attributes declared for the same target merge to what the last ones say. -/
theorem lastWins_mergeAll (declared : List Attributes) : LastWins (mergeAll declared) declared := by
  have hsnoc : ∀ (l : List Attributes) (d : Attributes),
      mergeAll (l ++ [d]) = (mergeAll l).merge d := by
    intro l d
    simp [mergeAll, List.foldl_append]
  induction declared using List.reverseRecOn with
  | nil => exact ⟨rfl, rfl, rfl, rfl⟩
  | append_singleton rest d ih =>
    refine ⟨?_, ?_, ?_, ?_⟩
    · rw [hsnoc, lastSet_append, lastSet_singleton, ← ih.source]
      rfl
    · rw [hsnoc, lastSet_append, lastSet_singleton, ← ih.method]
      rfl
    · rw [hsnoc, lastSet_append, lastSet_singleton, ← ih.recursive]
      rfl
    · rw [hsnoc, globs_merge, List.flatMap_append, ← ih.globs]
      simp [GlobList.union]

end Dotfiles.Attributes
