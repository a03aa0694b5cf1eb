import Dotfiles.Proofs.Profile.Outline
import Mathlib.Data.List.Lex
import Mathlib.Data.List.Nodup
import Mathlib.Order.Lattice

/-!
The order in which declarations are gathered. A tree of declarations brings everything with
the same keys together and keeps every key where it was used first, so what it lists is the
written list sorted by the first use of every beginning of the keys, ties left as they were.
-/

namespace Dotfiles.ProfileTree

/-- Where the declarations first use every beginning of some keys that follow a place. -/
def ranksBelow (declared : List (List Text × Attributes)) (place : List Text) :
    List Text → List Nat
  | [] => []
  | key :: rest =>
    firstAt declared (place ++ [key]) :: ranksBelow declared (place ++ [key]) rest

/-- Where the declarations first use every beginning of some keys. -/
def ranks (declared : List (List Text × Attributes)) (keys : List Text) : List Nat :=
  ranksBelow declared [] keys

/-- The declarations in the order in which a tree of them lists them. -/
def gatheredOrder (declared : List (List Text × Attributes)) :
    List (List Text × Attributes) :=
  declared.mergeSort fun d e => decide (ranks declared d.1 ≤ ranks declared e.1)

section Sorting

variable {α β : Type} [LinearOrder β] {f : α → β} {first second : List α}

theorem rankLe_trans (f : α → β) (a b c : α) (hab : decide (f a ≤ f b) = true)
    (hbc : decide (f b ≤ f c) = true) : decide (f a ≤ f c) = true := by
  rw [decide_eq_true_eq] at hab hbc ⊢
  exact le_trans hab hbc

theorem rankLe_total (f : α → β) (a b : α) : (decide (f a ≤ f b) || decide (f b ≤ f a)) = true := by
  rw [Bool.or_eq_true, decide_eq_true_eq, decide_eq_true_eq]
  exact le_total _ _

theorem pairwise_mergeSort_rank (f : α → β) (items : List α) :
    (items.mergeSort fun a b => decide (f a ≤ f b)).Pairwise fun a b => f a ≤ f b := by
  have h := List.pairwise_mergeSort (rankLe_trans f) (rankLe_total f) items
  exact h.imp fun hab => of_decide_eq_true hab

variable [DecidableEq β]

/-- A stable sort leaves items of equal rank as they were. -/
theorem filter_mergeSort (f : α → β) (items : List α) (r : β) :
    (items.mergeSort fun a b => decide (f a ≤ f b)).filter (fun a => decide (f a = r)) =
      items.filter fun a => decide (f a = r) := by
  have hsame : (items.filter fun a => decide (f a = r)).Pairwise
      fun a b => decide (f a ≤ f b) = true := by
    rw [List.pairwise_filter]
    apply List.pairwise_of_forall
    intro a b ha hb
    rw [decide_eq_true_eq] at ha hb ⊢
    rw [ha, hb]
  have hsub := (List.sublist_mergeSort (rankLe_trans f) (rankLe_total f) hsame
    List.filter_sublist).filter fun a => decide (f a = r)
  rw [List.filter_filter] at hsub
  simp only [Bool.and_self] at hsub
  have hperm := (List.mergeSort_perm items fun a b => decide (f a ≤ f b)).filter
    fun a => decide (f a = r)
  exact (hsub.eq_of_length hperm.length_eq.symm).symm

/-- In a sorted list that agrees with another one on every rank, the first item has the lowest
rank of both. -/
theorem le_head_of_filter {a b : α} (hf : (a :: first).Pairwise fun a b => f a ≤ f b)
    (h : ∀ r, (a :: first).filter (fun x => decide (f x = r)) =
      second.filter fun x => decide (f x = r)) (hb : b ∈ second) : f a ≤ f b := by
  have hmem : b ∈ (a :: first).filter fun x => decide (f x = f b) := by
    rw [h, List.mem_filter]
    exact ⟨hb, by simp⟩
  rcases List.mem_cons.1 (List.mem_filter.1 hmem).1 with rfl | hm
  · exact le_refl _
  · exact (List.pairwise_cons.1 hf).1 b hm

/-- Two sorted lists that agree on every rank are equal. -/
theorem eq_of_sorted_of_filter (hf : first.Pairwise fun a b => f a ≤ f b)
    (hs : second.Pairwise fun a b => f a ≤ f b)
    (h : ∀ r, first.filter (fun a => decide (f a = r)) =
      second.filter fun a => decide (f a = r)) : first = second := by
  induction first generalizing second with
  | nil =>
    cases second with
    | nil => rfl
    | cons b rest =>
      have hb := h (f b)
      simp at hb
  | cons a rest ih =>
    cases second with
    | nil =>
      have ha := h (f a)
      simp at ha
    | cons b others =>
      have hab : f a ≤ f b := le_head_of_filter hf h List.mem_cons_self
      have hba : f b ≤ f a := le_head_of_filter hs (fun r => (h r).symm) List.mem_cons_self
      have hrank : f b = f a := le_antisymm hba hab
      have hhead := h (f a)
      rw [List.filter_cons_of_pos (by simp), List.filter_cons_of_pos (by simp [hrank])] at hhead
      obtain ⟨rfl, _⟩ := List.cons.inj hhead
      rw [ih (List.pairwise_cons.1 hf).2 (List.pairwise_cons.1 hs).2]
      intro r
      have hr := h r
      rcases Classical.em (f a = r) with he | hne
      · rw [List.filter_cons_of_pos (by simp [he]), List.filter_cons_of_pos (by simp [he])] at hr
        exact (List.cons.inj hr).2
      · rwa [List.filter_cons_of_neg (by simp [hne]), List.filter_cons_of_neg (by simp [hne])]
          at hr

end Sorting

section Ranks

variable {P : Text → Prop} {tree : ProfileTree} {declared : List (List Text × Attributes)}

theorem keysAt_child {own : Attributes} {children : List (Text × ProfileTree)} {key : Text}
    {child : ProfileTree} (hc : childOf key children = some child) (place : List Text) :
    (ProfileTree.node own children).keysAt (key :: place) = child.keysAt place := by
  rw [keysAt, at?_cons, hc, Option.bind_some]
  rfl

/-- A tree whose children are in the order of their first use is listed in the order of
ranks. -/
theorem pairwise_outline_ranksBelow (hk : IsKeyed P tree) {place : List Text}
    (ho : ∀ below, (tree.keysAt below).Pairwise fun a b =>
      firstAt declared (place ++ below ++ [a]) < firstAt declared (place ++ below ++ [b])) :
    (outline tree).Pairwise fun d e =>
      ranksBelow declared place d.1 < ranksBelow declared place e.1 := by
  induction hk generalizing place with
  | @node own children distinct _ _ ih =>
    rw [outline_node, List.pairwise_cons]
    constructor
    · intro d hd
      obtain ⟨c, _, hm⟩ := List.mem_flatMap.1 hd
      obtain ⟨rest, he, _⟩ := mem_under_iff.1 hm
      rw [he]
      exact List.nil_lt_cons _ _
    · rw [List.pairwise_flatMap]
      constructor
      · rintro ⟨key, child⟩ hc
        have hchild := (childOf_eq_some_iff distinct).2 hc
        have hordered : ∀ below, (child.keysAt below).Pairwise fun a b =>
            firstAt declared (place ++ [key] ++ below ++ [a]) <
              firstAt declared (place ++ [key] ++ below ++ [b]) := by
          intro below
          have h := ho (key :: below)
          rw [keysAt_child hchild] at h
          simpa using h
        have hbelow := ih _ hc hordered
        rw [under, List.pairwise_map]
        refine hbelow.imp ?_
        intro d e hlt
        exact List.cons_lt_cons_iff.2 (.inr ⟨rfl, hlt⟩)
      · have hroot := ho []
        have hkeys : (ProfileTree.node own children).keysAt [] = children.map (·.1) := rfl
        rw [hkeys, List.pairwise_map, List.append_nil] at hroot
        refine hroot.imp ?_
        rintro c d hlt ⟨keys, a⟩ hx ⟨others, b⟩ hy
        obtain ⟨rest, rfl, _⟩ := mem_under_iff.1 hx
        obtain ⟨more, rfl, _⟩ := mem_under_iff.1 hy
        exact List.cons_lt_cons_iff.2 (.inl hlt)

theorem Gathers.pairwise_outline (h : Gathers tree declared) :
    (outline tree).Pairwise fun d e => ranks declared d.1 < ranks declared e.1 := by
  apply pairwise_outline_ranksBelow h.keyed
  intro below
  rw [List.nil_append]
  exact h.ordered below

/-- Every declaration is listed at its keys. -/
theorem Gathers.exists_mem_outline (h : Gathers tree declared) {d : List Text × Attributes}
    (hd : d ∈ declared) : ∃ a, (d.1, a) ∈ outline tree := by
  have hsome := (h.isSome_iff d.1).2 (.inr ⟨d, hd, List.prefix_refl _⟩)
  obtain ⟨a, ha⟩ := Option.isSome_iff_exists.1 hsome
  exact ⟨a, (mem_outline_iff h.keyed d.1 a).2 ha⟩

/-- Different keys of a tree have different ranks. -/
theorem Gathers.eq_of_ranks_eq (h : Gathers tree declared) {d e : List Text × Attributes}
    (hd : d ∈ outline tree) (he : e ∈ outline tree)
    (hr : ranks declared d.1 = ranks declared e.1) : d = e := by
  have hnodup : ((outline tree).map fun x => ranks declared x.1).Nodup := by
    rw [List.Nodup, List.pairwise_map]
    exact h.pairwise_outline.imp fun hlt => ne_of_lt hlt
  exact List.inj_on_of_nodup_map hnodup hd he hr

theorem filter_filter_eq_nil {keys others : List Text} (hne : keys ≠ others) :
    (declared.filter fun e => decide (e.1 = others)).filter (fun e => decide (e.1 = keys)) =
      [] := by
  rw [List.filter_eq_nil_iff]
  intro e he hk
  rw [decide_eq_true_eq] at hk
  exact hne (hk ▸ of_decide_eq_true (List.mem_filter.1 he).2)

/-- Of the groups of a list, only that of the given keys has anything with these keys. -/
theorem filter_groups (declared : List (List Text × Attributes)) {groups : List (List Text)}
    (hnodup : groups.Nodup) {keys : List Text} (hm : keys ∈ groups) :
    (groups.flatMap fun k => (declared.filter fun e => decide (e.1 = k)).filter
      fun e => decide (e.1 = keys)) = declared.filter fun e => decide (e.1 = keys) := by
  induction groups with
  | nil => cases hm
  | cons k rest ih =>
    rw [List.nodup_cons] at hnodup
    rw [List.flatMap_cons]
    rcases List.mem_cons.1 hm with rfl | hm
    · have hrest : (rest.flatMap fun k => (declared.filter fun e => decide (e.1 = k)).filter
          fun e => decide (e.1 = keys)) = [] := by
        rw [List.flatMap_eq_nil_iff]
        intro k hk
        apply filter_filter_eq_nil
        rintro rfl
        exact hnodup.1 hk
      rw [hrest, List.append_nil, List.filter_filter]
      simp
    · have hne : keys ≠ k := fun he => hnodup.1 (he ▸ hm)
      rw [filter_filter_eq_nil hne, List.nil_append, ih hnodup.2 hm]

/-- Among the declarations, having the rank of some keys of the tree is having these keys. -/
theorem Gathers.filter_ranks (h : Gathers tree declared) {d : List Text × Attributes}
    (hd : d ∈ outline tree) {some : List (List Text × Attributes)} (hs : some ⊆ declared) :
    some.filter (fun e => decide (ranks declared e.1 = ranks declared d.1)) =
      some.filter fun e => decide (e.1 = d.1) := by
  apply List.filter_congr
  intro e he
  obtain ⟨a, ha⟩ := h.exists_mem_outline (hs he)
  rw [decide_eq_decide]
  constructor
  · intro hr
    have hsame : (e.1, a) = d := h.eq_of_ranks_eq ha hd hr
    rw [← hsame]
  · intro hk
    rw [hk]

/-- What is gathered is the written list, grouped by the nodes of the tree. -/
theorem Gathers.gatheredOrder_eq (h : Gathers tree declared) :
    gatheredOrder declared =
      (outline tree).flatMap fun d => declared.filter fun e => decide (e.1 = d.1) := by
  -- both sides are sorted by rank, so it is enough that they agree on every rank
  apply eq_of_sorted_of_filter (f := fun d => ranks declared d.1)
  · exact pairwise_mergeSort_rank _ _
  · rw [List.pairwise_flatMap]
    constructor
    · intro d _
      rw [List.pairwise_filter]
      apply List.pairwise_of_forall
      intro a b ha hb
      rw [decide_eq_true_eq] at ha hb
      rw [ha, hb]
    · refine h.pairwise_outline.imp ?_
      intro d e hlt a ha b hb
      rw [of_decide_eq_true (List.mem_filter.1 ha).2, of_decide_eq_true (List.mem_filter.1 hb).2]
      exact le_of_lt hlt
  · intro r
    rw [gatheredOrder, filter_mergeSort (fun d : List Text × Attributes => ranks declared d.1),
      List.filter_flatMap]
    rcases Classical.em (∃ d ∈ outline tree, ranks declared d.1 = r) with hsome | hnone
    · obtain ⟨d, hd, rfl⟩ := hsome
      have hgroup := filter_groups declared (nodup_outline h.keyed) (List.mem_map_of_mem hd)
      rw [List.flatMap_map] at hgroup
      rw [h.filter_ranks hd (List.Subset.refl _), ← hgroup]
      apply List.flatMap_congr
      intro e _
      exact (h.filter_ranks hd (List.filter_sublist.subset)).symm
    · have hno : ∀ e ∈ declared, ¬ ranks declared e.1 = r := by
        intro e he hr
        obtain ⟨a, ha⟩ := h.exists_mem_outline he
        exact hnone ⟨(e.1, a), ha, hr⟩
      have hleft : declared.filter (fun e => decide (ranks declared e.1 = r)) = [] := by
        rw [List.filter_eq_nil_iff]
        intro e he hr
        exact hno e he (of_decide_eq_true hr)
      rw [hleft, eq_comm, List.flatMap_eq_nil_iff]
      intro d _
      rw [List.filter_eq_nil_iff]
      intro e he hr
      exact hno e (List.mem_filter.1 he).1 (of_decide_eq_true hr)

end Ranks

end Dotfiles.ProfileTree
