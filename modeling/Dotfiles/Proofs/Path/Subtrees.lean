import Dotfiles.Path.Normal
import Dotfiles.Proofs.Path.Order

/-!
Subtrees in the order of paths. When paths are sorted, everything below a path follows it at once
and nothing else comes in between, whatever characters the names hold. Taken backwards, a path is
reached when everything below it has just been dealt with.
-/

namespace Dotfiles.Path

/-- A path continues another one by at least one component. -/
def IsBelow (top p : Path) : Prop :=
  ∃ name rest, components p = components top ++ name :: rest

theorem isBelow_iff {top p : Path} :
    IsBelow top p ↔ components top <+: components p ∧ components top ≠ components p := by
  constructor
  · rintro ⟨name, rest, h⟩
    rw [h]
    exact ⟨List.prefix_append _ _, by simp⟩
  · rintro ⟨⟨more, hmore⟩, hne⟩
    cases more with
    | nil => exact absurd (by simpa using hmore) hne
    | cons name rest => exact ⟨name, rest, hmore.symm⟩

instance (top p : Path) : Decidable (IsBelow top p) := decidable_of_iff' _ isBelow_iff

/-- What comes between names and a continuation of them continues them too. -/
theorem isPrefix_of_between {top a b : List Name} (h : top <+: b) (hta : top < a) (hab : a < b) :
    top <+: a := by
  induction top generalizing a b with
  | nil => exact List.nil_prefix
  | cons name rest ih =>
    obtain ⟨more, rfl⟩ := h
    cases a with
    | nil => exact absurd hta (List.not_lt_nil _)
    | cons other others =>
      rw [List.cons_lt_cons_iff] at hta
      rw [List.cons_append, List.cons_lt_cons_iff] at hab
      -- a name that differs from the first one would not come before both or after both
      rcases hta with hlt | ⟨rfl, hta⟩
      · rcases hab with hgt | ⟨rfl, _⟩
        · exact absurd hgt (lt_asymm hlt)
        · exact absurd hlt (lt_irrefl _)
      · rcases hab with hgt | ⟨_, hab⟩
        · exact absurd hgt (lt_irrefl _)
        · exact List.cons_prefix_cons.2 ⟨rfl, ih (List.prefix_append _ _) hta hab⟩

theorem IsBelow.of_between {top a b : Path} (h : IsBelow top b)
    (hta : components top < components a) (hab : components a < components b) :
    IsBelow top a :=
  isBelow_iff.2 ⟨isPrefix_of_between (isBelow_iff.1 h).1 hta hab, ne_of_lt hta⟩

theorem IsBelow.lt {top p : Path} (h : IsBelow top p) : components top < components p :=
  lt_of_isPrefix (isBelow_iff.1 h).1 (isBelow_iff.1 h).2

/-- Paths in normal form are told apart by their components. -/
theorem ofSegments_components_of_normalize {drives : Bool} {p q : Path}
    (h : normalize drives p = .ok q) : ofSegments (components q) = q := by
  unfold normalize at h
  simp only at h
  split at h
  · cases h
  · cases h
    rw [components_ofSegments_normalComponents]

section Sorted

variable {α : Type} (path : α → Path) {items : List α} {top : α}

/-- Behind a path in a sorted list comes first what lies below it, and then what does not. -/
theorem exists_block {after : List α}
    (hs : (top :: after).Pairwise fun a b => components (path a) < components (path b)) :
    ∃ below others, after = below ++ others ∧ (∀ x ∈ below, IsBelow (path top) (path x)) ∧
      ∀ x ∈ others, ¬ IsBelow (path top) (path x) := by
  induction after with
  | nil => exact ⟨[], [], rfl, by simp, by simp⟩
  | cons first rest ih =>
    obtain ⟨htop, hrest⟩ := List.pairwise_cons.1 hs
    by_cases hfirst : IsBelow (path top) (path first)
    · obtain ⟨below, others, rfl, hbelow, hothers⟩ :=
        ih (hs.sublist ((List.sublist_cons_self first rest).cons_cons top))
      exact ⟨first :: below, others, rfl, List.forall_mem_cons.2 ⟨hfirst, hbelow⟩, hothers⟩
    · refine ⟨[], first :: rest, rfl, by simp, ?_⟩
      intro x hx hbelow
      rcases List.mem_cons.1 hx with rfl | hx
      · exact hfirst hbelow
      · have hlt := (List.pairwise_cons.1 hrest).1 x hx
        exact hfirst (hbelow.of_between (htop first List.mem_cons_self) hlt)

/-- When things are sorted by their paths, in normal form and all different, those below one of
them make up a block that comes immediately behind it, and immediately before it when they are taken
backwards. -/
theorem sortOn_block (hnormal : ∀ x ∈ items, ∃ drives p, normalize drives p = .ok (path x))
    (hd : (items.map path).Nodup) (htop : top ∈ items) :
    ∃ before below others,
      sortOn path items = before ++ top :: (below ++ others) ∧
      (∀ x ∈ items, x ∈ below ↔ IsBelow (path top) (path x)) ∧
      (sortOn path items).reverse =
        others.reverse ++ (below.reverse ++ top :: before.reverse) := by
  have hdistinct : (items.map fun x => components (path x)).Nodup := by
    rw [List.Nodup, List.pairwise_map] at hd ⊢
    refine hd.imp_of_mem fun {x y} hx hy hne he => hne ?_
    obtain ⟨_, _, hx⟩ := hnormal x hx
    obtain ⟨_, _, hy⟩ := hnormal y hy
    rw [← ofSegments_components_of_normalize hx, he, ofSegments_components_of_normalize hy]
  have hs := pairwise_sortOn path hdistinct
  obtain ⟨before, after, hsorted⟩ := List.append_of_mem ((mem_sortOn path).2 htop)
  rw [hsorted] at hs
  obtain ⟨_, hafter, hbetween⟩ := List.pairwise_append.1 hs
  obtain ⟨below, others, rfl, hbelow, hothers⟩ := exists_block path hafter
  refine ⟨before, below, others, hsorted, ?_, by rw [hsorted]; simp⟩
  intro x hx
  refine ⟨hbelow x, fun h => ?_⟩
  have hm : x ∈ before ++ top :: (below ++ others) := hsorted ▸ (mem_sortOn path).2 hx
  rcases List.mem_append.1 hm with hm | hm
  · exact absurd h.lt (lt_asymm (hbetween x hm top List.mem_cons_self))
  · rcases List.mem_cons.1 hm with rfl | hm
    · exact absurd h.lt (lt_irrefl _)
    · exact (List.mem_append.1 hm).resolve_right fun hlast => hothers x hlast h

end Sorted

/-- A hyphen comes before a slash among characters, but not between a path and what lies below
it. -/
theorem sortOn_block_hyphen :
    let paths := ["a-c".toList, "a/b/c".toList, "b".toList, "a".toList, "a/b".toList]
    (∀ p ∈ paths, ∃ drives raw, normalize drives raw = .ok (id p)) ∧ (paths.map id).Nodup ∧
      ∃ before below others, sortOn id paths = before ++ "a".toList :: (below ++ others) ∧
        (∀ p ∈ paths, p ∈ below ↔ IsBelow "a".toList p) ∧
        (sortOn id paths).reverse =
          others.reverse ++ (below.reverse ++ "a".toList :: before.reverse) := by
  intro paths
  have hnormal : ∀ p ∈ paths, ∃ drives raw, normalize drives raw = .ok (id p) := by
    intro p hp
    refine ⟨false, p, ?_⟩
    revert p
    decide
  have hd : (paths.map id).Nodup := by decide
  exact ⟨hnormal, hd, sortOn_block id hnormal hd (by decide)⟩

end Dotfiles.Path
