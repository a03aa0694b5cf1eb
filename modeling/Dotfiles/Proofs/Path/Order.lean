import Dotfiles.Path.Basic
import Mathlib.Data.Char
import Mathlib.Data.List.Forall2
import Mathlib.Data.List.Lex
import Mathlib.Order.Lattice

/-!
The order of paths is the lexicographic order of their components. A path comes
before everything below it, and of two paths above a third one the earlier is
above the other.
-/

namespace Dotfiles

/-- Texts are compared code point by code point. -/
theorem Text.before_iff_lt (a b : Text) : Text.before a b = true ↔ a < b := by
  induction a generalizing b with
  | nil => cases b <;> simp [Text.before]
  | cons c rest ih =>
    cases b with
    | nil => simp [Text.before]
    | cons d others =>
      rw [Text.before, List.cons_lt_cons_iff]
      split
      · rename_i h
        simp [h, ih]
      · rename_i h
        have hlt : c.toNat < d.toNat ↔ c < d := Iff.rfl
        simp [h, hlt]

namespace Path

theorem componentsBefore_iff_lt (a b : List Name) : componentsBefore a b = true ↔ a < b := by
  induction a generalizing b with
  | nil => cases b <;> simp [componentsBefore]
  | cons first rest ih =>
    cases b with
    | nil => simp [componentsBefore]
    | cons other others =>
      rw [componentsBefore, List.cons_lt_cons_iff]
      split
      · rename_i h
        simp [h, ih]
      · rename_i h
        simp [h, Text.before_iff_lt]

theorem before_iff_lt (p q : Path) : before p q = true ↔ components p < components q :=
  componentsBefore_iff_lt _ _

/-- Names come before all that continue them. -/
theorem lt_of_isPrefix {a b : List Name} (h : a <+: b) (hne : a ≠ b) : a < b := by
  obtain ⟨rest, rfl⟩ := h
  induction a with
  | nil =>
    cases rest with
    | nil => exact absurd rfl hne
    | cons name others => simp
  | cons first more ih =>
    rw [List.cons_append, List.cons_lt_cons_iff]
    exact .inr ⟨rfl, ih fun he => hne (by rw [List.cons_append, ← he])⟩

/-- Of two places above a third one, the one that comes first is above the other. -/
theorem isPrefix_of_lt {a b t : List Name} (ha : a <+: t) (hb : b <+: t) (h : a < b) :
    a <+: b := by
  rcases List.prefix_or_prefix_of_prefix ha hb with hab | hba
  · exact hab
  · by_cases he : b = a
    · exact he ▸ List.prefix_refl _
    · exact absurd (lt_of_isPrefix hba he) (lt_asymm h)

/-- Items with different keys are sorted strictly by their keys. -/
theorem pairwise_mergeSort_of_lt {α β : Type} [LinearOrder β] {key : α → β}
    {before : α → α → Bool} (hlt : ∀ a b, before a b = true ↔ key a < key b) {items : List α}
    (hd : (items.map key).Nodup) :
    (items.mergeSort fun a b => !before b a).Pairwise fun a b => key a < key b := by
  have hle : (items.mergeSort fun a b => !before b a).Pairwise fun a b => !before b a := by
    apply List.pairwise_mergeSort
    · intro a b c hab hbc
      simp only [Bool.not_eq_true', Bool.eq_false_iff, ne_eq, hlt, not_lt] at hab hbc ⊢
      exact le_trans hab hbc
    · intro a b
      simp only [Bool.or_eq_true, Bool.not_eq_true', Bool.eq_false_iff, ne_eq, hlt, not_lt]
      exact le_total _ _
  have hne : ((items.mergeSort fun a b => !before b a).map key).Nodup :=
    ((List.mergeSort_perm _ _).map _).nodup_iff.2 hd
  rw [List.Nodup, List.pairwise_map] at hne
  refine (hle.and hne).imp ?_
  intro a b hab
  simp only [Bool.not_eq_true', Bool.eq_false_iff, ne_eq, hlt, not_lt] at hab
  exact lt_of_le_of_ne hab.1 hab.2

/-- Items at different places are sorted strictly by their components. -/
theorem pairwise_sortOn {α : Type} (path : α → Path) {items : List α}
    (hd : (items.map fun x => components (path x)).Nodup) :
    (sortOn path items).Pairwise fun a b => components (path a) < components (path b) :=
  pairwise_mergeSort_of_lt (fun a b => before_iff_lt (path a) (path b)) hd

/-- Items in strictly increasing order are what any arrangement of them is sorted to. -/
theorem sortOn_eq_of_perm {α : Type} (path : α → Path) {items sorted : List α}
    (hperm : items.Perm sorted)
    (hs : sorted.Pairwise fun a b => before (path a) (path b) = true) :
    sortOn path items = sorted := by
  have hlt : sorted.Pairwise fun a b => components (path a) < components (path b) :=
    hs.imp fun hab => (before_iff_lt _ _).1 hab
  have hnodup : (items.map fun x => components (path x)).Nodup := by
    rw [(hperm.map _).nodup_iff, List.Nodup, List.pairwise_map]
    exact hlt.imp fun hab => ne_of_lt hab
  apply List.Perm.eq_of_pairwise _ (pairwise_sortOn path hnodup) hlt
  · exact (List.mergeSort_perm _ _).trans hperm
  · intro a b _ _ hab hba
    exact absurd hab (lt_asymm hba)

/-- Of two sorted lists, one with an item more than the other, that item is put in behind all that
come before it. -/
theorem exists_of_mem_iff {α : Type} (path : α → Path) {items items' : List α} {item extra : α}
    (hs : items.Pairwise fun a b => components (path a) < components (path b))
    (hs' : items'.Pairwise fun a b => components (path a) < components (path b))
    (hsame : ∀ x, x ∈ items' ↔ x = extra ∨ x ∈ items) (hnew : extra ∉ items) (hitem : item ∈ items)
    (hlt : components (path item) < components (path extra)) :
    ∃ first between last, items = first ++ item :: (between ++ last) ∧
      items' = first ++ item :: (between ++ extra :: last) := by
  have hnodup : ∀ {l : List α},
      l.Pairwise (fun a b => components (path a) < components (path b)) → l.Nodup := by
    intro l hl
    refine List.Pairwise.imp ?_ hl
    rintro a b hab rfl
    exact lt_irrefl _ hab
  have hperm : items'.Perm (extra :: items) := by
    refine (List.perm_ext_iff_of_nodup (hnodup hs') (List.nodup_cons.2 ⟨hnew, hnodup hs⟩)).2 ?_
    simpa using hsame
  obtain ⟨front, last, rfl⟩ := List.append_of_mem (hperm.symm.subset List.mem_cons_self)
  obtain rfl : items = front ++ last := by
    refine List.Perm.eq_of_pairwise (fun a b _ _ hab hba => absurd hab (lt_asymm hba)) hs
      (hs'.sublist ((List.sublist_cons_self _ _).append_left _)) ?_
    exact (List.perm_middle.symm.trans hperm).cons_inv.symm
  have hfront : item ∈ front := by
    refine (List.mem_append.1 hitem).resolve_right fun hlast => ?_
    exact lt_asymm hlt
      ((List.pairwise_cons.1 (List.pairwise_append.1 hs').2.1).1 item hlast)
  obtain ⟨first, between, rfl⟩ := List.append_of_mem hfront
  exact ⟨first, between, last, by simp, by simp⟩

theorem mem_sortOn {α : Type} (path : α → Path) {items : List α} {x : α} :
    x ∈ sortOn path items ↔ x ∈ items :=
  List.mem_mergeSort

theorem sortOn_map {α β : Type} {path : α → Path} {path' : β → Path} {f : α → β} {items : List α}
    (h : ∀ x ∈ items, path' (f x) = path x) :
    sortOn path' (items.map f) = (sortOn path items).map f := by
  symm
  apply List.map_mergeSort
  intro a ha b hb
  rw [h a ha, h b hb]

/-- Items that have the same paths one by one are sorted in the same way. -/
theorem forall₂_sortOn {α β : Type} {R : α → β → Prop} {path : α → Path} {path' : β → Path}
    (hpath : ∀ a b, R a b → path' b = path a) {items : List α} {items' : List β}
    (h : List.Forall₂ R items items') :
    List.Forall₂ R (sortOn path items) (sortOn path' items') := by
  obtain ⟨hlength, hpairs⟩ := List.forall₂_iff_zip.1 h
  have hfirst : sortOn path items =
      (sortOn (fun p => path p.1) (items.zip items')).map Prod.fst := by
    rw [← sortOn_map (fun _ _ => rfl), List.map_fst_zip hlength.le]
  have hsecond : sortOn path' items' =
      (sortOn (fun p => path p.1) (items.zip items')).map Prod.snd := by
    rw [← sortOn_map fun p hp => hpath _ _ (hpairs hp), List.map_snd_zip hlength.ge]
  rw [hfirst, hsecond, List.forall₂_map_left_iff, List.forall₂_map_right_iff, List.forall₂_same]
  intro p hp
  exact hpairs ((mem_sortOn _).1 hp)

end Path

end Dotfiles
