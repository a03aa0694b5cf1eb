import Dotfiles.Proofs.Profile.Place
import Mathlib.Order.Basic

/-!
Trees that gather a list of declarations: every node stands where a declaration is or
leads through, holds what the declarations of its place merge to, and has its children
in the order in which they were first declared. Merging two trees gathers the
declarations of both, one list after the other.
-/

namespace Dotfiles.ProfileTree

/-- The keys of the children at a place, in their order. -/
def keysAt (tree : ProfileTree) (place : List Text) : List Text :=
  ((tree.at? place).map fun node => node.children.map (·.1)).getD []

/-- How many declarations come before the first one at or below a place. -/
def firstAt (declared : List (List Text × Attributes)) (place : List Text) : Nat :=
  declared.findIdx fun d => decide (place <+: d.1)

/-- The tree holds the declarations and nothing else. An empty list of globs counts as
none. -/
structure Gathers (tree : ProfileTree) (declared : List (List Text × Attributes)) : Prop where
  keyed : IsKeyed (fun _ => True) tree
  isSome_iff : ∀ place, (tree.attributesAt? place).isSome = true ↔
    place = [] ∨ ∃ d ∈ declared, place <+: d.1
  merged : ∀ place, Attributes.empty.merge ((tree.attributesAt? place).getD .empty) =
    Attributes.mergeAll (declaredAt place declared)
  ordered : ∀ place, (tree.keysAt place).Pairwise fun a b =>
    firstAt declared (place ++ [a]) < firstAt declared (place ++ [b])

section Merging

theorem childOf_append (key : Text) (first second : List (Text × ProfileTree)) :
    childOf key (first ++ second) = (childOf key first).or (childOf key second) := by
  induction first with
  | nil => rfl
  | cons c rest ih =>
    by_cases h : c.1 = key <;> simp [childOf, h, ih]

theorem childOf_eq_none_iff {key : Text} {children : List (Text × ProfileTree)} :
    childOf key children = none ↔ key ∉ children.map (·.1) := by
  induction children with
  | nil => simp [childOf]
  | cons c rest ih =>
    by_cases h : c.1 = key
    · simp [childOf, h]
    · simp [childOf, h, ih, show ¬ key = c.1 from fun e => h e.symm]

/-- A child of both lists is merged; a child of one of them stays as it is. -/
theorem childOf_mergeChildren (key : Text) (into : List (Text × ProfileTree))
    {children : List (Text × ProfileTree)} (hd : (children.map (·.1)).Nodup) :
    childOf key (mergeChildren into children) =
      Option.merge merge (childOf key into) (childOf key children) := by
  induction children generalizing into with
  | nil => cases h : childOf key into <;> simp [mergeChildren, childOf, h]
  | cons c rest ih =>
    obtain ⟨k, child⟩ := c
    rw [List.map_cons, List.nodup_cons] at hd
    obtain ⟨hk, hrest⟩ := hd
    have hnone : childOf k rest = none := childOf_eq_none_iff.2 hk
    rw [mergeChildren]
    split
    · rename_i old ho
      rw [ih _ hrest]
      by_cases he : k = key
      · subst he
        simp [childOf, hnone, ho]
      · rw [childOf_setChild_ne fun e => he e.symm]
        simp [childOf, he]
    · rename_i ho
      rw [ih _ hrest, childOf_append]
      by_cases he : k = key
      · subst he
        simp [childOf, hnone, ho]
      · simp [childOf, he]

theorem map_fst_mergeChildren (into : List (Text × ProfileTree))
    {children : List (Text × ProfileTree)} (hd : (children.map (·.1)).Nodup) :
    (mergeChildren into children).map (·.1) =
      into.map (·.1) ++ (children.map (·.1)).filter fun key => key ∉ into.map (·.1) := by
  induction children generalizing into with
  | nil => simp [mergeChildren]
  | cons c rest ih =>
    obtain ⟨k, child⟩ := c
    rw [List.map_cons, List.nodup_cons] at hd
    obtain ⟨hk, hrest⟩ := hd
    rw [mergeChildren]
    split
    · rename_i old ho
      have hin : k ∈ into.map (·.1) := by
        by_contra hnot
        rw [childOf_eq_none_iff.2 hnot] at ho
        exact absurd ho (by simp)
      rw [ih _ hrest, map_fst_setChild, if_pos hin, List.map_cons,
        List.filter_cons_of_neg (by simpa using hin)]
    · rename_i ho
      have hin : k ∉ into.map (·.1) := childOf_eq_none_iff.1 ho
      rw [ih _ hrest, List.map_cons, List.filter_cons_of_pos (by simpa using hin),
        List.map_append, List.append_assoc]
      simp only [List.map_cons, List.map_nil, List.cons_append, List.nil_append,
        List.append_cancel_left_eq, List.cons.injEq, true_and]
      apply List.filter_congr
      intro key hm
      have hne : key ≠ k := fun e => hk (e ▸ hm)
      simp [hne]

theorem merge_node (own : Attributes) (into : List (Text × ProfileTree)) (other : Attributes)
    (children : List (Text × ProfileTree)) :
    merge (.node own into) (.node other children) =
      .node (own.merge other) (mergeChildren into children) := rfl

theorem at?_cons (own : Attributes) (children : List (Text × ProfileTree)) (key : Text)
    (rest : List Text) :
    at? (key :: rest) (.node own children) = (childOf key children).bind (at? rest) := rfl

theorem IsKeyed.distinct {P : Text → Prop} {own : Attributes}
    {children : List (Text × ProfileTree)} (h : IsKeyed P (.node own children)) :
    (children.map (·.1)).Nodup := by
  cases h
  assumption

theorem IsKeyed.child {P : Text → Prop} {own : Attributes} {children : List (Text × ProfileTree)}
    (h : IsKeyed P (.node own children)) {child : Text × ProfileTree} (hm : child ∈ children) :
    P child.1 ∧ IsKeyed P child.2 := by
  obtain ⟨_, keys, below⟩ := h
  exact ⟨keys child hm, below child hm⟩

theorem IsKeyed.withRoot {P : Text → Prop} {own : Attributes}
    {children : List (Text × ProfileTree)} (h : IsKeyed P (.node own children))
    (other : Attributes) : IsKeyed P (.node other children) := by
  obtain ⟨distinct, keys, below⟩ := h
  exact .node distinct keys below

theorem IsKeyed.at? {P : Text → Prop} {place : List Text} {tree node : ProfileTree}
    (h : IsKeyed P tree) (ha : tree.at? place = some node) : IsKeyed P node := by
  induction place generalizing tree with
  | nil =>
    cases ha
    exact h
  | cons key rest ih =>
    obtain ⟨own, children⟩ := tree
    rw [at?_cons, Option.bind_eq_some_iff] at ha
    obtain ⟨child, hc, hat⟩ := ha
    exact ih (h.child (mem_of_childOf hc)).2 hat

/-- A node of both trees is merged; a node of one of them stays as it is. -/
theorem at?_merge (place : List Text) (tree : ProfileTree) {other : ProfileTree}
    (hk : IsKeyed (fun _ => True) other) :
    (merge tree other).at? place = Option.merge merge (tree.at? place) (other.at? place) := by
  induction place generalizing tree other with
  | nil => rfl
  | cons key rest ih =>
    obtain ⟨own, into⟩ := tree
    obtain ⟨theirs, children⟩ := other
    rw [merge_node, at?_cons, at?_cons, at?_cons, childOf_mergeChildren key into hk.distinct]
    cases hc : childOf key children with
    | none => cases childOf key into <;> simp
    | some theirChild =>
      have hbelow := (hk.child (mem_of_childOf hc)).2
      cases childOf key into with
      | none => simp
      | some child => simpa using ih child hbelow

theorem attributes_merge (tree other : ProfileTree) :
    (merge tree other).attributes = tree.attributes.merge other.attributes := by
  cases other
  rfl

theorem attributesAt?_merge (place : List Text) (tree : ProfileTree) {other : ProfileTree}
    (hk : IsKeyed (fun _ => True) other) :
    (merge tree other).attributesAt? place =
      Option.merge Attributes.merge (tree.attributesAt? place) (other.attributesAt? place) := by
  unfold attributesAt?
  rw [at?_merge place tree hk]
  cases tree.at? place <;> cases other.at? place <;> simp [attributes_merge]

theorem keysAt_merge (place : List Text) (tree : ProfileTree) {other : ProfileTree}
    (hk : IsKeyed (fun _ => True) other) :
    (merge tree other).keysAt place =
      tree.keysAt place ++ (other.keysAt place).filter fun key => key ∉ tree.keysAt place := by
  unfold keysAt
  rw [at?_merge place tree hk]
  cases ho : other.at? place with
  | none => simp
  | some theirs =>
    obtain ⟨own, children⟩ := theirs
    have hd := (hk.at? ho).distinct
    cases tree.at? place with
    | none => exact (List.filter_eq_self.2 fun _ _ => rfl).symm
    | some node =>
      obtain ⟨ours, into⟩ := node
      exact map_fst_mergeChildren into hd

theorem IsKeyed.merge {P : Text → Prop} {tree other : ProfileTree} (ht : IsKeyed P tree)
    (ho : IsKeyed P other) : IsKeyed P (ProfileTree.merge tree other) := by
  induction ho generalizing tree with
  | @node theirs children distinct keys below ih =>
    obtain ⟨own, into⟩ := tree
    have hkeys := map_fst_mergeChildren into distinct
    have hnodup : ((mergeChildren into children).map (·.1)).Nodup := by
      rw [hkeys, List.nodup_append]
      refine ⟨ht.distinct, distinct.filter _, ?_⟩
      intro a ha b hb he
      simp only [List.mem_filter, decide_eq_true_eq] at hb
      exact hb.2 (he ▸ ha)
    rw [merge_node]
    refine .node hnodup ?_ ?_
    · intro child hm
      have hk : child.1 ∈ (mergeChildren into children).map (·.1) :=
        List.mem_map_of_mem (f := (·.1)) hm
      rw [hkeys, List.mem_append, List.mem_filter] at hk
      rcases hk with hk | ⟨hk, _⟩
      · obtain ⟨c, hc, he⟩ := List.mem_map.1 hk
        exact he ▸ (ht.child hc).1
      · obtain ⟨c, hc, he⟩ := List.mem_map.1 hk
        exact he ▸ keys c hc
    · rintro ⟨key, child⟩ hm
      have hc := (childOf_eq_some_iff hnodup).2 hm
      rw [childOf_mergeChildren key into distinct] at hc
      cases ha : childOf key into with
      | none =>
        rw [ha] at hc
        exact below _ (mem_of_childOf (by simpa using hc))
      | some ours =>
        have hours := (ht.child (mem_of_childOf ha)).2
        cases hb : childOf key children with
        | none =>
          rw [ha, hb] at hc
          simp only [Option.merge_none_right, Option.some.injEq] at hc
          exact hc ▸ hours
        | some theirs =>
          rw [ha, hb] at hc
          simp only [Option.merge_some_some, Option.some.injEq] at hc
          exact hc ▸ ih _ (mem_of_childOf hb) hours

end Merging

section Gathering

variable {tree other : ProfileTree} {first second : List (List Text × Attributes)}

theorem firstAt_lt_length {place : List Text} :
    firstAt first place < first.length ↔ ∃ d ∈ first, place <+: d.1 := by
  simp [firstAt, List.findIdx_lt_length]

theorem firstAt_append (place : List Text) :
    firstAt (first ++ second) place =
      if firstAt first place < first.length then firstAt first place
      else firstAt second place + first.length := by
  rw [firstAt, List.findIdx_append]
  rfl

theorem mem_keysAt_iff (tree : ProfileTree) (place : List Text) (key : Text) :
    key ∈ tree.keysAt place ↔ (tree.attributesAt? (place ++ [key])).isSome = true := by
  induction place generalizing tree with
  | nil =>
    obtain ⟨own, children⟩ := tree
    rw [List.nil_append, attributesAt?_cons]
    cases hc : childOf key children with
    | none => simpa [keysAt, at?, ProfileTree.children] using childOf_eq_none_iff.1 hc
    | some child =>
      have hm := List.mem_map_of_mem (f := (·.1)) (mem_of_childOf hc)
      simpa [keysAt, at?, ProfileTree.children, attributesAt?] using hm
  | cons name rest ih =>
    obtain ⟨own, children⟩ := tree
    rw [List.cons_append, attributesAt?_cons]
    unfold keysAt
    rw [at?_cons]
    cases hc : childOf name children with
    | none => simp
    | some child => simpa [keysAt] using ih child

/-- A child stands at the places that its declarations are at or lead through. -/
theorem Gathers.mem_keysAt_iff (h : Gathers tree first) (place : List Text) (key : Text) :
    key ∈ tree.keysAt place ↔ firstAt first (place ++ [key]) < first.length := by
  rw [ProfileTree.mem_keysAt_iff, h.isSome_iff, firstAt_lt_length]
  simp

theorem gathers_nil : Gathers .empty [] := by
  refine ⟨isKeyed_empty _, ?_, ?_, ?_⟩
  · intro place
    rw [attributesAt?_empty]
    by_cases hp : place = [] <;> simp [hp]
  · intro place
    rw [attributesAt?_empty]
    by_cases hp : place = [] <;> simp [hp, declaredAt, Attributes.mergeAll]
  · intro place
    cases place with
    | nil => exact .nil
    | cons key rest => exact .nil

theorem gathers_leaf (own : Attributes) : Gathers (.node own []) [([], own)] := by
  have hat : ∀ place, (ProfileTree.node own []).attributesAt? place =
      if place = [] then some own else none := by
    intro place
    cases place with
    | nil => rfl
    | cons key rest => rfl
  refine ⟨.node (by simp) (by simp) (by simp), ?_, ?_, ?_⟩
  · intro place
    rw [hat]
    by_cases hp : place = [] <;> simp [hp]
  · intro place
    rw [hat]
    by_cases hp : place = []
    · simp [hp, declaredAt, Attributes.mergeAll]
    · simp [hp, Ne.symm hp, declaredAt, Attributes.mergeAll]
  · intro place
    cases place with
    | nil => exact .nil
    | cons key rest => exact .nil

/-- A merged tree gathers the declarations of both trees, the second list after the first. -/
theorem Gathers.merge (ht : Gathers tree first) (ho : Gathers other second) :
    Gathers (tree.merge other) (first ++ second) := by
  refine ⟨ht.keyed.merge ho.keyed, ?_, ?_, ?_⟩
  · intro place
    have heither : ∀ a b : Option Attributes,
        (Option.merge Attributes.merge a b).isSome = true ↔ a.isSome = true ∨ b.isSome = true := by
      intro a b
      cases a <;> cases b <;> simp
    rw [attributesAt?_merge place tree ho.keyed, heither, ht.isSome_iff, ho.isSome_iff]
    simp only [List.mem_append, or_and_right, exists_or]
    exact or_or_distrib_left.symm
  · intro place
    rw [declaredAt_append, Attributes.mergeAll_append, ← ht.merged, ← ho.merged,
      attributesAt?_merge place tree ho.keyed, ← Attributes.merge_assoc]
    cases tree.attributesAt? place <;> cases other.attributesAt? place <;>
      simp [Attributes.merge_assoc]
  · -- keys of the first tree keep their order, and new ones come after them
    intro place
    rw [keysAt_merge place tree ho.keyed, List.pairwise_append]
    refine ⟨?_, ?_, ?_⟩
    · refine (ht.ordered place).imp_of_mem ?_
      intro a b ha hb hab
      rw [ht.mem_keysAt_iff] at ha hb
      rwa [firstAt_append, firstAt_append, if_pos ha, if_pos hb]
    · refine ((ho.ordered place).filter _).imp_of_mem ?_
      intro a b ha hb hab
      simp only [List.mem_filter, decide_eq_true_eq, ht.mem_keysAt_iff] at ha hb
      rw [firstAt_append, firstAt_append, if_neg ha.2, if_neg hb.2]
      omega
    · intro a ha b hb
      simp only [List.mem_filter, decide_eq_true_eq, ht.mem_keysAt_iff] at ha hb
      rw [firstAt_append, firstAt_append, if_pos ha, if_neg hb.2]
      omega

theorem firstAt_under (key : Text) (path : List Text) :
    firstAt (under key first) (key :: path) = firstAt first path := by
  simp [firstAt, under, List.findIdx_map, Function.comp_def, List.cons_prefix_cons]

/-- Declarations under a key make a tree with one child. -/
theorem Gathers.under (h : Gathers tree first) (hne : first ≠ []) (key : Text) :
    Gathers (.node .empty [(key, tree)]) (ProfileTree.under key first) := by
  have hat : ∀ name rest, (ProfileTree.node .empty [(key, tree)]).attributesAt? (name :: rest) =
      if name = key then tree.attributesAt? rest else none := by
    intro name rest
    rw [attributesAt?_cons, childOf, childOf]
    by_cases hk : key = name
    · simp [hk]
    · simp [hk, show ¬ name = key from fun e => hk e.symm]
  refine ⟨.node (by simp) (by simp) ?_, ?_, ?_, ?_⟩
  · intro child hm
    rw [List.mem_singleton.1 hm]
    exact h.keyed
  · intro place
    cases place with
    | nil => simp
    | cons name rest =>
      rw [hat]
      by_cases hk : name = key
      · subst hk
        obtain ⟨d, others, rfl⟩ := List.exists_cons_of_ne_nil hne
        have hroot : rest = [] → ∃ x ∈ d :: others, rest <+: x.1 :=
          fun e => ⟨d, by simp, e ▸ List.nil_prefix⟩
        have hmap : (∃ x ∈ ProfileTree.under name (d :: others), name :: rest <+: x.1) ↔
            ∃ x ∈ d :: others, rest <+: x.1 := by
          simp [ProfileTree.under, List.cons_prefix_cons]
        rw [if_pos rfl, h.isSome_iff, hmap]
        simpa using hroot
      · simp [hk, ProfileTree.under, List.cons_prefix_cons]
  · intro place
    cases place with
    | nil =>
      rw [declaredAt_eq_nil fun d hd => ne_nil_of_mem_under hd]
      rfl
    | cons name rest =>
      rw [hat, declaredAt_under]
      by_cases hk : name = key
      · rw [if_pos hk, if_pos hk, h.merged]
      · rw [if_neg hk, if_neg hk]
        rfl
  · intro place
    cases place with
    | nil => simp [keysAt, at?, ProfileTree.children]
    | cons name rest =>
      by_cases hk : key = name
      · subst hk
        have hkeys : (ProfileTree.node .empty [(key, tree)]).keysAt (key :: rest) =
            tree.keysAt rest := by
          simp [keysAt, at?_cons, childOf]
        rw [hkeys]
        simpa [firstAt_under] using h.ordered rest
      · simp [keysAt, at?_cons, childOf, hk]

/-- What the root declares comes before what is declared below it. -/
theorem Gathers.withRoot {children : List (Text × ProfileTree)}
    (h : Gathers (.node .empty children) first) (hne : ∀ d ∈ first, d.1 ≠ []) (own : Attributes) :
    Gathers (.node own children) (([], own) :: first) := by
  have hsplit : ∀ place, declaredAt place (([], own) :: first) =
      if place = [] then [own] else declaredAt place first := by
    intro place
    rw [← List.singleton_append, declaredAt_append]
    by_cases hp : place = []
    · subst hp
      rw [declaredAt_eq_nil hne]
      simp [declaredAt]
    · simp [declaredAt, hp, Ne.symm hp]
  refine ⟨h.keyed.withRoot own, ?_, ?_, ?_⟩
  · intro place
    cases place with
    | nil => simp
    | cons name rest =>
      have hat := h.isSome_iff (name :: rest)
      rw [attributesAt?_cons] at hat ⊢
      rw [hat]
      simp
  · intro place
    rw [hsplit]
    cases place with
    | nil => rfl
    | cons name rest =>
      have hat := h.merged (name :: rest)
      rwa [attributesAt?_cons] at hat ⊢
  · intro place
    have hkeys : (ProfileTree.node own children).keysAt place =
        (ProfileTree.node .empty children).keysAt place := by
      cases place <;> rfl
    have hfirst : ∀ path key, firstAt (([], own) :: first) (path ++ [key]) =
        firstAt first (path ++ [key]) + 1 := by
      intro path key
      simp [firstAt, List.findIdx_cons]
    rw [hkeys]
    simpa [hfirst] using h.ordered place

end Gathering

end Dotfiles.ProfileTree
