import Dotfiles.Proofs.Profile.Inheritance

/-!
Two lists of children that differ in one place, somewhere below them. Merging the same
children into both, or both into the same children, keeps them so, as long as nothing else is
declared for the keys in which they differ.
-/

namespace Dotfiles.ProfileTree

/-- Whether children are others with one edit at the end of the given keys. The edit replaces
some children that stand together, and the keys in which they differ have no siblings of the
same name. -/
inductive EditedAt (Edit : List (Text × ProfileTree) → List (Text × ProfileTree) → Prop) :
    List Text → List (Text × ProfileTree) → List (Text × ProfileTree) → Prop
  | here {before block block' after : List (Text × ProfileTree)} (edit : Edit block block')
      (fresh : ∀ key ∈ (block ++ block').map (·.1), key ∉ (before ++ after).map (·.1)) :
      EditedAt Edit [] (before ++ block ++ after) (before ++ block' ++ after)
  | inside {key : Text} {keys : List Text} {own : Attributes}
      {children children' before after : List (Text × ProfileTree)}
      (fresh : key ∉ (before ++ after).map (·.1)) (h : EditedAt Edit keys children children') :
      EditedAt Edit (key :: keys) (before ++ [(key, .node own children)] ++ after)
        (before ++ [(key, .node own children')] ++ after)

/-- Whether an edit concerns no other keys than the given ones, and each of them once. -/
structure Concerns (changed : List Text)
    (Edit : List (Text × ProfileTree) → List (Text × ProfileTree) → Prop) : Prop where
  keys : ∀ {block block'}, Edit block block' → ∀ key ∈ (block ++ block').map (·.1), key ∈ changed
  distinct : ∀ {block block'}, Edit block block' →
    (block.map (·.1)).Nodup ∧ (block'.map (·.1)).Nodup

/-- Whether children have nothing under the given keys at the end of a place. -/
def Spares (changed place : List Text) (children : List (Text × ProfileTree)) : Prop :=
  ∀ key ∈ changed, (ProfileTree.node .empty children).attributesAt? (place ++ [key]) = none

variable {Edit : List (Text × ProfileTree) → List (Text × ProfileTree) → Prop}
  {changed keys : List Text} {key : Text} {children children' : List (Text × ProfileTree)}

section Sparing

theorem spares_nil_iff :
    Spares changed [] children ↔ ∀ key ∈ changed, key ∉ children.map (·.1) := by
  refine forall₂_congr fun key _ => ?_
  rw [← childOf_eq_none_iff, List.nil_append, attributesAt?_cons, Option.bind_eq_none_iff]
  constructor
  · intro h
    cases hc : childOf key children with
    | none => rfl
    | some child =>
      obtain ⟨own, below⟩ := child
      cases h _ hc
  · intro h child hc
    rw [h] at hc
    cases hc

/-- What a child spares, the children do below its key. -/
theorem Spares.child {own : Attributes} {below : List (Text × ProfileTree)}
    (h : Spares changed (key :: keys) children)
    (hc : childOf key children = some (.node own below)) : Spares changed keys below := by
  intro k hk
  have hnone := h k hk
  rw [List.cons_append, attributesAt?_cons, hc, Option.bind_some,
    ← Option.not_isSome_iff_eq_none] at hnone
  rwa [← Option.not_isSome_iff_eq_none, isSome_attributesAt?_node .empty own]

end Sparing

section Lists

variable {first second : List (Text × ProfileTree)} {tree : ProfileTree}

theorem setChild_append_of_mem (h : key ∈ first.map (·.1)) :
    setChild key tree (first ++ second) = setChild key tree first ++ second := by
  induction first with
  | nil => cases h
  | cons c rest ih =>
    by_cases hc : c.1 = key
    · simp [setChild, hc]
    · have hrest : key ∈ rest.map (·.1) := by
        rw [List.map_cons, List.mem_cons] at h
        exact h.resolve_left fun e => hc e.symm
      simp [setChild, hc, ih hrest]

theorem setChild_append_of_not_mem (h : key ∉ first.map (·.1)) :
    setChild key tree (first ++ second) = first ++ setChild key tree second := by
  induction first with
  | nil => rfl
  | cons c rest ih =>
    rw [List.map_cons, List.mem_cons, not_or] at h
    simp [setChild, show ¬ c.1 = key from fun e => h.1 e.symm, ih h.2]

theorem mergeChildren_cons (into : List (Text × ProfileTree)) (c : Text × ProfileTree)
    (rest : List (Text × ProfileTree)) :
    mergeChildren into (c :: rest) = mergeChildren (mergeChildren into [c]) rest := by
  rw [mergeChildren, mergeChildren]
  split
  · rfl
  · rfl

theorem mergeChildren_append (into first second : List (Text × ProfileTree)) :
    mergeChildren into (first ++ second) = mergeChildren (mergeChildren into first) second := by
  induction first generalizing into with
  | nil => rw [List.nil_append, mergeChildren]
  | cons c rest ih => rw [List.cons_append, mergeChildren_cons, ih, ← mergeChildren_cons]

theorem mergeChildren_single_of_some {into : List (Text × ProfileTree)} {old : ProfileTree}
    (h : childOf key into = some old) :
    mergeChildren into [(key, tree)] = setChild key (merge old tree) into := by
  rw [mergeChildren, h]
  rfl

theorem mergeChildren_single_of_none {into : List (Text × ProfileTree)}
    (h : childOf key into = none) : mergeChildren into [(key, tree)] = into ++ [(key, tree)] := by
  rw [mergeChildren, h]
  rfl

theorem mem_map_fst_setChild {k : Text} (h : k ∈ (setChild key tree children).map (·.1)) :
    k = key ∨ k ∈ children.map (·.1) := by
  rw [map_fst_setChild] at h
  split at h
  · exact .inr h
  · rcases List.mem_append.1 h with h | h
    · exact .inr h
    · exact .inl (List.mem_singleton.1 h)

theorem mem_keys_append_iff {k : Text} :
    k ∈ (first ++ second).map (·.1) ↔ k ∈ first.map (·.1) ∨ k ∈ second.map (·.1) := by
  rw [List.map_append, List.mem_append]

/-- A child that is merged in leaves those alone that have another key. -/
theorem exists_mergeChildren_single_around (key : Text) (tree : ProfileTree)
    (before after : List (Text × ProfileTree)) : ∃ before' after' : List (Text × ProfileTree),
      (∀ k ∈ (before' ++ after').map (·.1), k = key ∨ k ∈ (before ++ after).map (·.1)) ∧
      ∀ middle : List (Text × ProfileTree), key ∉ middle.map (·.1) →
        mergeChildren (before ++ middle ++ after) [(key, tree)] = before' ++ middle ++ after' := by
  cases hb : childOf key before with
  | some old =>
    refine ⟨setChild key (merge old tree) before, after, fun k hk => ?_, fun middle _ => ?_⟩
    · rw [mem_keys_append_iff] at hk ⊢
      rcases hk with hk | hk
      · exact (mem_map_fst_setChild hk).imp_right .inl
      · exact .inr (.inr hk)
    · have hin : key ∈ before.map (·.1) := List.mem_map_of_mem (mem_of_childOf hb)
      have hold : childOf key (before ++ (middle ++ after)) = some old := by
        rw [childOf_append, hb, Option.some_or]
      rw [List.append_assoc, mergeChildren_single_of_some hold, setChild_append_of_mem hin,
        List.append_assoc]
  | none =>
    rw [childOf_eq_none_iff] at hb
    cases ha : childOf key after with
    | some old =>
      refine ⟨before, setChild key (merge old tree) after, fun k hk => ?_, fun middle hmid => ?_⟩
      · rw [mem_keys_append_iff] at hk ⊢
        rcases hk with hk | hk
        · exact .inr (.inl hk)
        · exact (mem_map_fst_setChild hk).imp_right .inr
      · have hnot : key ∉ (before ++ middle).map (·.1) := by
          rw [mem_keys_append_iff, not_or]
          exact ⟨hb, hmid⟩
        have hold : childOf key (before ++ middle ++ after) = some old := by
          rw [childOf_append, childOf_eq_none_iff.2 hnot, ha, Option.none_or]
        rw [mergeChildren_single_of_some hold, setChild_append_of_not_mem hnot]
    | none =>
      rw [childOf_eq_none_iff] at ha
      refine ⟨before, after ++ [(key, tree)], fun k hk => ?_, fun middle hmid => ?_⟩
      · rw [← List.append_assoc, mem_keys_append_iff] at hk
        exact hk.symm.imp_left List.mem_singleton.1
      · have hnot : key ∉ (before ++ middle ++ after).map (·.1) := by
          rw [mem_keys_append_iff, mem_keys_append_iff, not_or, not_or]
          exact ⟨⟨hb, hmid⟩, ha⟩
        rw [mergeChildren_single_of_none (childOf_eq_none_iff.2 hnot), List.append_assoc]

/-- Children that are merged in leave those alone that have other keys, and what becomes of the
others does not depend on them. -/
theorem exists_mergeChildren_around (into : List (Text × ProfileTree)) :
    ∀ before after : List (Text × ProfileTree), ∃ before' after',
      (∀ key ∈ (before' ++ after').map (·.1), key ∈ (before ++ after ++ into).map (·.1)) ∧
      ∀ middle : List (Text × ProfileTree), (∀ key ∈ into.map (·.1), key ∉ middle.map (·.1)) →
        mergeChildren (before ++ middle ++ after) into = before' ++ middle ++ after' := by
  induction into with
  | nil =>
    intro before after
    exact ⟨before, after, by simp, fun middle _ => by rw [mergeChildren]⟩
  | cons c rest ih =>
    obtain ⟨key, tree⟩ := c
    intro before after
    obtain ⟨front, back, hkeys, hput⟩ := exists_mergeChildren_single_around key tree before after
    obtain ⟨before', after', hkeys', hmerge⟩ := ih front back
    refine ⟨before', after', fun k hk => ?_, fun middle hmid => ?_⟩
    · have h := hkeys' k hk
      rw [mem_keys_append_iff] at h ⊢
      rcases h with h | h
      · rcases hkeys k h with rfl | h
        · exact .inr List.mem_cons_self
        · exact .inl h
      · exact .inr (List.mem_cons_of_mem _ h)
    · rw [List.map_cons, List.forall_mem_cons] at hmid
      rw [mergeChildren_cons, hput middle hmid.1, hmerge middle hmid.2]

theorem mem_map_fst_mergeChildren {into : List (Text × ProfileTree)}
    (h : key ∈ (mergeChildren into children).map (·.1)) :
    key ∈ into.map (·.1) ∨ key ∈ children.map (·.1) := by
  obtain ⟨before, after, hkeys, hmerge⟩ := exists_mergeChildren_around children into []
  have hall := hmerge [] (by simp)
  rw [List.append_nil, List.append_nil, List.append_nil] at hall
  rw [hall] at h
  simpa using hkeys key h

theorem nodup_mergeChildren {into : List (Text × ProfileTree)} (h : (into.map (·.1)).Nodup) :
    ((mergeChildren into children).map (·.1)).Nodup := by
  induction children generalizing into with
  | nil => rwa [mergeChildren]
  | cons c rest ih =>
    obtain ⟨k, tree⟩ := c
    rw [mergeChildren]
    split
    · exact ih (nodup_setChild h)
    · rename_i hnone
      apply ih
      rw [List.map_append, List.nodup_append]
      refine ⟨h, by simp, ?_⟩
      rintro key hkey other hother rfl
      obtain rfl : key = k := List.mem_singleton.1 hother
      exact childOf_eq_none_iff.1 hnone hkey

theorem childOf_mergeChildren_of_not_mem {into : List (Text × ProfileTree)}
    (h : key ∉ children.map (·.1)) : childOf key (mergeChildren into children) = childOf key into := by
  induction children generalizing into with
  | nil => rw [mergeChildren]
  | cons c rest ih =>
    obtain ⟨k, tree⟩ := c
    rw [List.map_cons, List.mem_cons, not_or] at h
    rw [mergeChildren]
    split
    · rw [ih h.2, childOf_setChild_ne h.1]
    · rw [ih h.2, childOf_append]
      simp [childOf, show ¬ k = key from fun e => h.1 e.symm]

/-- Children with new keys go to the end, in their order. -/
theorem mergeChildren_of_fresh {into : List (Text × ProfileTree)}
    (hd : (children.map (·.1)).Nodup) (h : ∀ key ∈ children.map (·.1), key ∉ into.map (·.1)) :
    mergeChildren into children = into ++ children := by
  induction children generalizing into with
  | nil => rw [mergeChildren, List.append_nil]
  | cons c rest ih =>
    obtain ⟨k, tree⟩ := c
    rw [List.map_cons, List.nodup_cons] at hd
    rw [List.map_cons, List.forall_mem_cons] at h
    rw [mergeChildren_cons, mergeChildren_single_of_none (childOf_eq_none_iff.2 h.1), ih hd.2,
      List.append_assoc, List.singleton_append]
    intro key hkey hm
    rw [mem_keys_append_iff] at hm
    rcases hm with hm | hm
    · exact h.2 key hkey hm
    · obtain rfl : key = k := List.mem_singleton.1 hm
      exact hd.1 hkey

/-- Some of the children that are merged in have new keys: they stay together, and what becomes of
the others does not depend on them. -/
theorem exists_mergeChildren_block (into before after : List (Text × ProfileTree)) :
    ∃ before' after' : List (Text × ProfileTree),
      (∀ key ∈ (before' ++ after').map (·.1),
        key ∈ into.map (·.1) ∨ key ∈ (before ++ after).map (·.1)) ∧
      ∀ block : List (Text × ProfileTree), (block.map (·.1)).Nodup →
        (∀ key ∈ block.map (·.1), key ∉ into.map (·.1) ∧ key ∉ (before ++ after).map (·.1)) →
        mergeChildren into (before ++ block ++ after) = before' ++ block ++ after' := by
  obtain ⟨before', after', hkeys, hmerge⟩ :=
    exists_mergeChildren_around after (mergeChildren into before) []
  simp only [List.append_nil] at hkeys hmerge
  refine ⟨before', after', fun key hkey => ?_, fun block hd hnew => ?_⟩
  · have hall := hkeys key hkey
    rw [mem_keys_append_iff] at hall ⊢
    rcases hall with hall | hall
    · exact (mem_map_fst_mergeChildren hall).imp_right .inl
    · exact .inr (.inr hall)
  · simp only [mem_keys_append_iff, not_or] at hnew
    have hblock : mergeChildren (mergeChildren into before) block =
        mergeChildren into before ++ block := by
      refine mergeChildren_of_fresh hd fun key hkey hm => ?_
      exact (mem_map_fst_mergeChildren hm).elim (hnew key hkey).1 (hnew key hkey).2.1
    rw [mergeChildren_append, mergeChildren_append, hblock, hmerge]
    exact fun key hkey hm => (hnew key hm).2.2 hkey

theorem flattenChildren_append (place : List Name) (first second : List (Text × ProfileTree)) :
    flattenChildren place (first ++ second) =
      flattenChildren place first ++ flattenChildren place second := by
  induction first with
  | nil => rfl
  | cons c rest ih => rw [List.cons_append, flattenChildren, flattenChildren, ih, List.append_assoc]

/-- A list of children is taken apart at a key. -/
theorem exists_of_childOf (hd : (children.map (·.1)).Nodup) (hc : childOf key children = some tree) :
    ∃ before after, children = before ++ [(key, tree)] ++ after ∧
      key ∉ (before ++ after).map (·.1) := by
  obtain ⟨before, after, rfl⟩ := List.append_of_mem (mem_of_childOf hc)
  refine ⟨before, after, by simp, ?_⟩
  rw [List.map_append, List.map_cons, List.perm_middle.nodup_iff, List.nodup_cons,
    ← List.map_append] at hd
  exact hd.1

end Lists

section Merging

variable {into later : List (Text × ProfileTree)}

/-- Other children are merged around the one of a key. -/
theorem exists_mergeChildren_around_key {before after others : List (Text × ProfileTree)}
    (hfresh : key ∉ (before ++ after).map (·.1)) (hnot : key ∉ others.map (·.1)) :
    ∃ before' after', key ∉ (before' ++ after').map (·.1) ∧ ∀ tree,
      mergeChildren (before ++ [(key, tree)] ++ after) others =
        before' ++ [(key, tree)] ++ after' := by
  obtain ⟨before', after', hkeys, hmerge⟩ := exists_mergeChildren_around others before after
  refine ⟨before', after', ?_, fun tree => hmerge _ ?_⟩
  · intro hm
    have hall := hkeys key hm
    rw [mem_keys_append_iff] at hall
    exact hall.elim hfresh hnot
  · intro k hk he
    obtain rfl : k = key := List.mem_singleton.1 he
    exact hnot hk

/-- A child is merged into the one of its key, which stays where it is. -/
theorem mergeChildren_around_single {own theirs : Attributes}
    {before after more : List (Text × ProfileTree)} (h : key ∉ before.map (·.1)) :
    mergeChildren (before ++ [(key, .node own children)] ++ after) [(key, .node theirs more)] =
      before ++ [(key, .node (own.merge theirs) (mergeChildren children more))] ++ after := by
  have hc : childOf key (before ++ [(key, .node own children)] ++ after) =
      some (.node own children) := by
    rw [List.append_assoc, childOf_append, childOf_eq_none_iff.2 h, Option.none_or,
      List.singleton_append, childOf, if_pos rfl]
  rw [mergeChildren_single_of_some hc, List.append_assoc, setChild_append_of_not_mem h,
    List.singleton_append, setChild, if_pos rfl, List.append_assoc, merge_node]
  rfl

/-- Children that are merged into both leave the edit as it is. -/
theorem EditedAt.merge_right (h : EditedAt Edit keys children children')
    (hedit : Concerns changed Edit) (hk : IsKeyed (fun _ => True) (.node .empty later))
    (hs : Spares changed keys later) :
    EditedAt Edit keys (mergeChildren children later) (mergeChildren children' later) := by
  induction h generalizing later with
  | @here before block block' after edit fresh =>
    have hnew : ∀ key ∈ later.map (·.1), key ∉ (block ++ block').map (·.1) := fun key hkey hm =>
      spares_nil_iff.1 hs key (hedit.keys edit key hm) hkey
    simp only [List.map_append, List.mem_append, not_or] at hnew
    obtain ⟨before', after', hkeys, hmerge⟩ := exists_mergeChildren_around later before after
    rw [hmerge block fun key hkey => (hnew key hkey).1,
      hmerge block' fun key hkey => (hnew key hkey).2]
    refine .here edit fun key hkey hm => ?_
    have hall := hkeys key hm
    rw [mem_keys_append_iff] at hall
    rcases hall with hall | hall
    · exact fresh key hkey hall
    · exact spares_nil_iff.1 hs key (hedit.keys edit key hkey) hall
  | @inside key keys own children children' before after fresh h ih =>
    cases hc : childOf key later with
    | none =>
      obtain ⟨before', after', hfresh, hmerge⟩ :=
        exists_mergeChildren_around_key fresh (childOf_eq_none_iff.1 hc)
      rw [hmerge, hmerge]
      exact .inside hfresh h
    | some child =>
      obtain ⟨theirs, more⟩ := child
      have hbelow := ih ((hk.child (mem_of_childOf hc)).2.withRoot .empty) (hs.child hc)
      -- what the new children have before this one, this one, and what they have after it
      obtain ⟨first, last, rfl, hnot⟩ := exists_of_childOf hk.distinct hc
      rw [mem_keys_append_iff, not_or] at hnot
      obtain ⟨before₁, after₁, hfresh₁, hfirst⟩ := exists_mergeChildren_around_key fresh hnot.1
      obtain ⟨before₂, after₂, hfresh₂, hlast⟩ := exists_mergeChildren_around_key hfresh₁ hnot.2
      have hbefore : key ∉ before₁.map (·.1) := by
        rw [mem_keys_append_iff, not_or] at hfresh₁
        exact hfresh₁.1
      simp only [mergeChildren_append, hfirst, mergeChildren_around_single hbefore, hlast]
      exact .inside hfresh₂ hbelow

/-- Merging both into the same children leaves the edit as it is. -/
theorem EditedAt.merge_left (h : EditedAt Edit keys children children')
    (hedit : Concerns changed Edit) (hk : IsKeyed (fun _ => True) (.node .empty into))
    (hs : Spares changed keys into) :
    EditedAt Edit keys (mergeChildren into children) (mergeChildren into children') := by
  induction h generalizing into with
  | @here before block block' after edit fresh =>
    have hnew : ∀ key ∈ (block ++ block').map (·.1), key ∉ into.map (·.1) ∧
        key ∉ (before ++ after).map (·.1) := fun key hkey =>
      ⟨spares_nil_iff.1 hs key (hedit.keys edit key hkey), fresh key hkey⟩
    obtain ⟨hdistinct, hdistinct'⟩ := hedit.distinct edit
    obtain ⟨before', after', hkeys, hmerge⟩ := exists_mergeChildren_block into before after
    rw [hmerge block hdistinct fun key hkey => hnew key (mem_keys_append_iff.2 (.inl hkey)),
      hmerge block' hdistinct' fun key hkey => hnew key (mem_keys_append_iff.2 (.inr hkey))]
    exact .here edit fun key hkey hm => (hkeys key hm).elim (hnew key hkey).1 (hnew key hkey).2
  | @inside key keys own children children' before after fresh h ih =>
    rw [mem_keys_append_iff, not_or] at fresh
    have hsame : childOf key (mergeChildren into before) = childOf key into :=
      childOf_mergeChildren_of_not_mem fresh.1
    cases hc : childOf key into with
    | none =>
      have hnone : key ∉ (mergeChildren into before ++ []).map Prod.fst := by
        rw [List.append_nil]
        exact childOf_eq_none_iff.1 (hsame.trans hc)
      obtain ⟨before', after', hfresh, hmerge⟩ := exists_mergeChildren_around_key hnone fresh.2
      simp only [List.append_nil] at hmerge
      simp only [mergeChildren_append, mergeChildren_single_of_none (hsame.trans hc), hmerge]
      exact .inside hfresh h
    | some old =>
      obtain ⟨ours, inner⟩ := old
      have hbelow := ih ((hk.child (mem_of_childOf hc)).2.withRoot .empty) (hs.child hc)
      obtain ⟨front, back, hsplit, hnot⟩ :=
        exists_of_childOf (nodup_mergeChildren hk.distinct) (hsame.trans hc)
      obtain ⟨before', after', hfresh, hmerge⟩ := exists_mergeChildren_around_key hnot fresh.2
      have hfront : key ∉ front.map (·.1) := by
        rw [mem_keys_append_iff, not_or] at hnot
        exact hnot.1
      simp only [mergeChildren_append, hsplit, mergeChildren_around_single hfront, hmerge]
      exact .inside hfresh hbelow

end Merging

/-- What is gathered by components differs in what the edit makes of it. -/
theorem EditedAt.flatten (h : EditedAt Edit keys children children') (place : List Name) :
    ∃ block block' first last, Edit block block' ∧
      flattenChildren place children =
        first ++ flattenChildren (place ++ keys.flatMap Path.components) block ++ last ∧
      flattenChildren place children' =
        first ++ flattenChildren (place ++ keys.flatMap Path.components) block' ++ last := by
  induction h generalizing place with
  | @here before block block' after edit _ =>
    refine ⟨block, block', flattenChildren place before, flattenChildren place after, edit, ?_, ?_⟩
    · simp [flattenChildren_append]
    · simp [flattenChildren_append]
  | @inside key keys own children children' before after _ _ ih =>
    obtain ⟨block, block', first, last, edit, h, h'⟩ := ih (place ++ Path.components key)
    refine ⟨block, block',
      flattenChildren place before ++ (place ++ Path.components key, own) :: first,
      last ++ flattenChildren place after, edit, ?_, ?_⟩
    · simp [flattenChildren_append, flattenChildren, ProfileTree.flatten, h]
    · simp [flattenChildren_append, flattenChildren, ProfileTree.flatten, h']

end Dotfiles.ProfileTree
