import Dotfiles.Profile.Tree
import Dotfiles.Proofs.Profile.Merging
import Mathlib.Tactic.Tauto

/-!
What a profile tree holds at a place. Declaring attributes at a place merges them
into those that are there, creates the nodes above, and changes nothing else; so
the tree of components holds at every place what the declarations of that place
merge to, one after another.
-/

namespace Dotfiles

namespace ProfileTree

/-- The subtree at the end of a sequence of keys. -/
def at? : List Text → ProfileTree → Option ProfileTree
  | [], tree => some tree
  | key :: rest, .node _ children => (childOf key children).bind (at? rest)

/-- The attributes at the end of a sequence of keys, if a node is there. -/
def attributesAt? (tree : ProfileTree) (place : List Text) : Option Attributes :=
  (tree.at? place).map attributes

/-- What is declared for exactly the given place, in order. -/
def declaredAt (place : List Text) (declared : List (List Text × Attributes)) : List Attributes :=
  (declared.filter fun d => d.1 = place).map (·.2)

/-- The declarations below one key. -/
def under (key : Text) (declared : List (List Text × Attributes)) :
    List (List Text × Attributes) :=
  declared.map fun d => (key :: d.1, d.2)

/-- Every key of the tree has the property, and no node has a key twice. -/
inductive IsKeyed (P : Text → Prop) : ProfileTree → Prop
  | node {own : Attributes} {children : List (Text × ProfileTree)}
      (distinct : (children.map (·.1)).Nodup)
      (keys : ∀ child ∈ children, P child.1)
      (below : ∀ child ∈ children, IsKeyed P child.2) : IsKeyed P (.node own children)

section Lists

theorem mem_declaredAt_iff {place : List Text} {declared : List (List Text × Attributes)}
    {a : Attributes} : a ∈ declaredAt place declared ↔ (place, a) ∈ declared := by
  unfold declaredAt
  constructor
  · intro h
    obtain ⟨⟨p, b⟩, hd, rfl⟩ := List.mem_map.1 h
    obtain ⟨hm, hp⟩ := List.mem_filter.1 hd
    rw [decide_eq_true_eq] at hp
    subst hp
    exact hm
  · intro h
    exact List.mem_map.2 ⟨(place, a), List.mem_filter.2 ⟨h, by simp⟩, rfl⟩

theorem declaredAt_append (place : List Text) (first second : List (List Text × Attributes)) :
    declaredAt place (first ++ second) = declaredAt place first ++ declaredAt place second := by
  simp [declaredAt]

theorem declaredAt_eq_nil {place : List Text} {declared : List (List Text × Attributes)}
    (h : ∀ d ∈ declared, d.1 ≠ place) : declaredAt place declared = [] := by
  rw [declaredAt, List.map_eq_nil_iff, List.filter_eq_nil_iff]
  intro d hd
  simpa using h d hd

theorem declaredAt_under (key name : Text) (rest : List Text)
    (declared : List (List Text × Attributes)) :
    declaredAt (name :: rest) (under key declared) =
      if name = key then declaredAt rest declared else [] := by
  by_cases hk : name = key
  · subst hk
    simp [declaredAt, under, List.filter_map, Function.comp_def]
  · rw [if_neg hk]
    apply declaredAt_eq_nil
    intro d hd he
    obtain ⟨x, _, rfl⟩ := List.mem_map.1 hd
    simp only [List.cons.injEq] at he
    exact hk he.1.symm

theorem ne_nil_of_mem_under {key : Text} {declared : List (List Text × Attributes)}
    {d : List Text × Attributes} (h : d ∈ under key declared) : d.1 ≠ [] := by
  obtain ⟨x, _, rfl⟩ := List.mem_map.1 h
  simp

end Lists

section Lookup

@[simp] theorem attributesAt?_nil (own : Attributes) (children : List (Text × ProfileTree)) :
    (ProfileTree.node own children).attributesAt? [] = some own := rfl

theorem attributesAt?_cons (own : Attributes) (children : List (Text × ProfileTree))
    (key : Text) (rest : List Text) :
    (ProfileTree.node own children).attributesAt? (key :: rest) =
      (childOf key children).bind fun child => child.attributesAt? rest := by
  unfold attributesAt?
  rw [at?]
  cases childOf key children <;> rfl

theorem attributesAt?_empty (place : List Text) :
    ProfileTree.empty.attributesAt? place = if place = [] then some Attributes.empty else none := by
  cases place with
  | nil => rfl
  | cons key rest => simp [empty, attributesAt?_cons, childOf]

theorem mem_of_childOf {key : Text} {tree : ProfileTree} {children : List (Text × ProfileTree)}
    (h : childOf key children = some tree) : (key, tree) ∈ children := by
  induction children with
  | nil => simp [childOf] at h
  | cons c rest ih =>
    obtain ⟨k, other⟩ := c
    by_cases hk : k = key
    · simp only [childOf, hk, if_true, Option.some.injEq] at h
      simp [hk, h]
    · simp only [childOf, hk, if_false] at h
      exact List.mem_cons_of_mem _ (ih h)

/-- Where no key stands twice, a child is found under its key. -/
theorem childOf_eq_some_iff {key : Text} {tree : ProfileTree}
    {children : List (Text × ProfileTree)} (hd : (children.map (·.1)).Nodup) :
    childOf key children = some tree ↔ (key, tree) ∈ children := by
  refine ⟨mem_of_childOf, fun h => ?_⟩
  induction children with
  | nil => simp at h
  | cons c rest ih =>
    obtain ⟨k, other⟩ := c
    rw [List.map_cons, List.nodup_cons] at hd
    rcases List.mem_cons.1 h with he | hm
    · simp only [Prod.mk.injEq] at he
      simp [childOf, he]
    · have hk : k ≠ key := by
        rintro rfl
        exact hd.1 (List.mem_map.2 ⟨_, hm, rfl⟩)
      simp [childOf, hk, ih hd.2 hm]

end Lookup

section Declaring

/-- Declaring attributes at a place merges them into what is there. -/
theorem getD_attributesAt?_declare (declared : Attributes) (place asked : List Name)
    (tree : ProfileTree) :
    ((declare declared place tree).attributesAt? asked).getD .empty =
      if asked = place then ((tree.attributesAt? asked).getD .empty).merge declared
      else (tree.attributesAt? asked).getD .empty := by
  induction place generalizing asked tree with
  | nil =>
    obtain ⟨own, children⟩ := tree
    cases asked with
    | nil => simp [declare]
    | cons key rest => simp [declare, attributesAt?_cons]
  | cons name rest ih =>
    obtain ⟨own, children⟩ := tree
    cases asked with
    | nil => simp [declare]
    | cons key more =>
      rw [declare, attributesAt?_cons, attributesAt?_cons]
      by_cases hk : key = name
      · subst hk
        rw [childOf_setChild_self, Option.bind_some, ih]
        -- a fresh node holds nothing, at its root or below
        cases hc : childOf key children <;> cases more <;> simp [attributesAt?_empty]
      · rw [childOf_setChild_ne hk]
        simp [hk]

/-- Declaring attributes at a place creates the nodes on the way and no others. -/
theorem isSome_attributesAt?_declare (declared : Attributes) (place asked : List Name)
    (tree : ProfileTree) :
    ((declare declared place tree).attributesAt? asked).isSome =
      (decide (asked <+: place) || (tree.attributesAt? asked).isSome) := by
  induction place generalizing asked tree with
  | nil =>
    obtain ⟨own, children⟩ := tree
    cases asked with
    | nil => simp [declare]
    | cons key rest => simp [declare, attributesAt?_cons]
  | cons name rest ih =>
    obtain ⟨own, children⟩ := tree
    cases asked with
    | nil => simp [declare]
    | cons key more =>
      rw [declare, attributesAt?_cons, attributesAt?_cons]
      by_cases hk : key = name
      · subst hk
        rw [childOf_setChild_self, Option.bind_some, ih]
        cases hc : childOf key children <;> cases more <;>
          simp [attributesAt?_empty, List.cons_prefix_cons]
      · rw [childOf_setChild_ne hk]
        simp [hk, List.cons_prefix_cons]

/-- The tree of components holds at every place what the declarations of the place merge to. -/
theorem getD_attributesAt?_byComponent (tree : ProfileTree) (place : List Name) :
    (tree.byComponent.attributesAt? place).getD .empty =
      Attributes.mergeAll (declaredAt place (flatten [] tree)) := by
  have hfold : ∀ (declared : List (List Name × Attributes)) (gathered : ProfileTree),
      ((declared.foldl (fun t d => declare d.2 d.1 t) gathered).attributesAt? place).getD .empty =
        (declaredAt place declared).foldl Attributes.merge
          ((gathered.attributesAt? place).getD .empty) := by
    intro declared
    induction declared with
    | nil => exact fun _ => rfl
    | cons d rest ih =>
      intro gathered
      rw [List.foldl_cons, ih, getD_attributesAt?_declare]
      by_cases h : place = d.1
      · simp [declaredAt, h]
      · simp [declaredAt, h, show d.1 ≠ place from fun e => h e.symm]
  rw [byComponent, hfold, attributesAt?_empty]
  split <;> rfl

/-- The tree of components has a node at the root and at every place that a declaration is
at or below. -/
theorem isSome_attributesAt?_byComponent (tree : ProfileTree) (place : List Name) :
    (tree.byComponent.attributesAt? place).isSome = true ↔
      ∃ d ∈ flatten [] tree, place <+: d.1 := by
  have hfold : ∀ (declared : List (List Name × Attributes)) (gathered : ProfileTree),
      ((declared.foldl (fun t d => declare d.2 d.1 t) gathered).attributesAt? place).isSome = true ↔
        (gathered.attributesAt? place).isSome = true ∨ ∃ d ∈ declared, place <+: d.1 := by
    intro declared
    induction declared with
    | nil => simp
    | cons d rest ih =>
      intro gathered
      rw [List.foldl_cons, ih, isSome_attributesAt?_declare]
      simp only [Bool.or_eq_true, decide_eq_true_eq, List.mem_cons, exists_eq_or_imp]
      tauto
  rw [byComponent, hfold, attributesAt?_empty]
  constructor
  · rintro (h | h)
    · have hp : place = [] := by
        by_contra hne
        simp [hne] at h
      obtain ⟨own, children⟩ := tree
      exact ⟨([], own), by simp [flatten], hp ▸ List.nil_prefix⟩
    · exact h
  · exact .inr

theorem isKeyed_empty (P : Text → Prop) : IsKeyed P ProfileTree.empty :=
  .node (by simp) (by simp) (by simp)

theorem map_fst_setChild (key : Text) (tree : ProfileTree)
    (children : List (Text × ProfileTree)) :
    (setChild key tree children).map (·.1) =
      if key ∈ children.map (·.1) then children.map (·.1) else children.map (·.1) ++ [key] := by
  induction children with
  | nil => simp [setChild]
  | cons c rest ih =>
    obtain ⟨k, other⟩ := c
    by_cases hk : k = key
    · simp [setChild, hk]
    · simp only [setChild, hk, if_false, List.map_cons, ih, List.mem_cons,
        show ¬ key = k from fun h => hk h.symm, false_or]
      split <;> simp

theorem mem_setChild {key : Text} {tree : ProfileTree} {children : List (Text × ProfileTree)}
    {child : Text × ProfileTree} (h : child ∈ setChild key tree children) :
    child = (key, tree) ∨ child ∈ children := by
  induction children with
  | nil => simpa [setChild] using h
  | cons c rest ih =>
    obtain ⟨k, other⟩ := c
    by_cases hk : k = key
    · simp only [setChild, hk, if_true, List.mem_cons] at h ⊢
      tauto
    · simp only [setChild, hk, if_false, List.mem_cons] at h ⊢
      rcases h with h | h
      · exact .inr (.inl h)
      · rcases ih h with h | h
        · exact .inl h
        · exact .inr (.inr h)

theorem nodup_setChild {key : Text} {tree : ProfileTree} {children : List (Text × ProfileTree)}
    (hd : (children.map (·.1)).Nodup) : ((setChild key tree children).map (·.1)).Nodup := by
  rw [map_fst_setChild]
  split
  · exact hd
  · rename_i hk
    rw [List.nodup_append]
    refine ⟨hd, by simp, ?_⟩
    intro k hm other ho
    rw [List.mem_singleton] at ho
    rintro rfl
    exact hk (ho ▸ hm)

/-- Declaring at a place adds its names to the keys, none of them twice. -/
theorem IsKeyed.declare {P : Text → Prop} (declared : Attributes) {place : List Name}
    (hp : ∀ name ∈ place, P name) {tree : ProfileTree} (h : IsKeyed P tree) :
    IsKeyed P (ProfileTree.declare declared place tree) := by
  induction place generalizing tree with
  | nil =>
    obtain ⟨distinct, keys, below⟩ := h
    exact .node distinct keys below
  | cons name rest ih =>
    obtain ⟨distinct, keys, below⟩ := h
    rename_i own children
    have hchild : IsKeyed P ((childOf name children).getD ProfileTree.empty) := by
      cases hc : childOf name children with
      | none => exact isKeyed_empty P
      | some child => exact below _ (mem_of_childOf hc)
    have hnew := ih (fun n hn => hp n (List.mem_cons_of_mem _ hn)) hchild
    refine .node (nodup_setChild distinct) ?_ ?_
    · intro child hm
      rcases mem_setChild hm with rfl | hm
      · exact hp name (by simp)
      · exact keys child hm
    · intro child hm
      rcases mem_setChild hm with rfl | hm
      · exact hnew
      · exact below child hm

/-- The tree of components has the components of the declared keys for keys. -/
theorem isKeyed_byComponent {P : Text → Prop} {tree : ProfileTree}
    (h : ∀ d ∈ flatten [] tree, ∀ name ∈ d.1, P name) : IsKeyed P tree.byComponent := by
  have hfold : ∀ (declared : List (List Name × Attributes)) (gathered : ProfileTree),
      (∀ d ∈ declared, ∀ name ∈ d.1, P name) → IsKeyed P gathered →
      IsKeyed P (declared.foldl (fun t d => ProfileTree.declare d.2 d.1 t) gathered) := by
    intro declared
    induction declared with
    | nil => exact fun _ _ hg => hg
    | cons d rest ih =>
      intro gathered hd hg
      exact ih _ (fun x hx => hd x (List.mem_cons_of_mem _ hx))
        (hg.declare d.2 (hd d (by simp)))
  exact hfold _ _ h (isKeyed_empty P)

end Declaring

end ProfileTree

end Dotfiles
