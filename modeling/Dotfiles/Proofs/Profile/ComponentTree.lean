import Dotfiles.Proofs.Profile.Outline

/-!
The tree of components is the merge of all declarations. It has a node wherever a declaration is
or leads through, every node holds what the declarations of its place merge to, its keys are
single components, and its children stand in the order in which declarations first lead to them.
-/

namespace Dotfiles.ProfileTree

/-- The declarations of a tree, depth first, each with the components of the keys that lead to
it. -/
def declarations (tree : ProfileTree) : List (List Name × Attributes) :=
  (outline tree).map fun d => (d.1.flatMap Path.components, d.2)

/-- The name with which a sequence of names goes on from a place, if it leads through the place. -/
def nameAfter? (place names : List Name) : Option Name :=
  if place <+: names then names[place.length]? else none

/-- The names with which declarations go on from a place, in their order. -/
def namesAfter (place : List Name) (declared : List (List Name × Attributes)) : List Name :=
  declared.filterMap fun d => nameAfter? place d.1

theorem flatten_eq_declarations (tree : ProfileTree) : flatten [] tree = declarations tree := by
  simp [flatten_eq, declarations]

section Order

theorem nameAfter?_nil_right (place : List Name) : nameAfter? place [] = none := by
  simp [nameAfter?]

theorem nameAfter?_nil_left (names : List Name) : nameAfter? [] names = names.head? := by
  simp [nameAfter?, List.head?_eq_getElem?]

theorem nameAfter?_cons_self (name : Name) (place names : List Name) :
    nameAfter? (name :: place) (name :: names) = nameAfter? place names := by
  simp [nameAfter?]

theorem nameAfter?_cons_ne {name other : Name} (h : other ≠ name) (place names : List Name) :
    nameAfter? (other :: place) (name :: names) = none := by
  simp [nameAfter?, h]

/-- The keys with one more behind them, unless it is among them. -/
def withKey (keys : List Name) : Option Name → List Name
  | none => keys
  | some name => if name ∈ keys then keys else keys ++ [name]

theorem keysAt_nil (own : Attributes) (children : List (Text × ProfileTree)) :
    (ProfileTree.node own children).keysAt [] = children.map (·.1) := rfl

theorem keysAt_cons (own : Attributes) (children : List (Text × ProfileTree)) (key : Text)
    (rest : List Text) : (ProfileTree.node own children).keysAt (key :: rest) =
      ((childOf key children).map fun child => child.keysAt rest).getD [] := by
  rw [keysAt, at?_cons]
  cases childOf key children <;> rfl

theorem keysAt_empty (place : List Text) : ProfileTree.empty.keysAt place = [] := by
  cases place <;> rfl

/-- A declaration adds one key at most to a node: the name with which it goes on from there. -/
theorem keysAt_declare (declared : Attributes) (place asked : List Name) (tree : ProfileTree) :
    (declare declared place tree).keysAt asked =
      withKey (tree.keysAt asked) (nameAfter? asked place) := by
  induction place generalizing asked tree with
  | nil =>
    obtain ⟨own, children⟩ := tree
    rw [nameAfter?_nil_right]
    cases asked <;> rfl
  | cons name rest ih =>
    obtain ⟨own, children⟩ := tree
    rw [declare]
    cases asked with
    | nil => rw [nameAfter?_nil_left, keysAt_nil, keysAt_nil, map_fst_setChild]; rfl
    | cons key more =>
      rw [keysAt_cons, keysAt_cons]
      by_cases hk : key = name
      · subst hk
        rw [childOf_setChild_self, Option.map_some, Option.getD_some, ih, nameAfter?_cons_self]
        cases childOf key children with
        | none => rw [Option.getD_none, keysAt_empty]; rfl
        | some child => rfl
      · rw [childOf_setChild_ne hk, nameAfter?_cons_ne hk]
        rfl

theorem eraseDups_concat (names : List Name) (name : Name) :
    (names ++ [name]).eraseDups = withKey names.eraseDups (some name) := by
  rw [List.eraseDups_append, withKey]
  by_cases h : name ∈ names
  · rw [if_pos (List.mem_eraseDups.2 h)]
    simp [List.removeAll, h]
  · rw [if_neg (mt List.mem_eraseDups.1 h)]
    simp [List.removeAll, h, List.eraseDups_cons]

/-- The children of a node stand in the order in which declarations first lead to them. -/
theorem keysAt_byComponent (tree : ProfileTree) (place : List Name) :
    tree.byComponent.keysAt place = (namesAfter place (declarations tree)).eraseDups := by
  rw [byComponent, flatten_eq_declarations]
  induction declarations tree using List.reverseRecOn with
  | nil => exact keysAt_empty place
  | append_singleton rest d ih =>
    rw [List.foldl_append, List.foldl_cons, List.foldl_nil, keysAt_declare, ih, namesAfter,
      namesAfter, List.filterMap_append]
    cases h : nameAfter? place d.1 with
    | none => simp [h, withKey]
    | some name => simp [h, eraseDups_concat]

end Order

/-- The tree of components is exactly the merge of all declarations: it has a node at a place
just if a declaration is there or below, a node holds the declarations of its place merged one
after another in depth-first order, every key is a single component, and the children of a node
stand in the order in which the declarations first lead to them. -/
theorem byComponent_merges (tree : ProfileTree) :
    (∀ place, (tree.byComponent.attributesAt? place).isSome = true ↔
      ∃ d ∈ declarations tree, place <+: d.1) ∧
    (∀ place a, tree.byComponent.attributesAt? place = some a →
      a = (declaredAt place (declarations tree)).foldl Attributes.merge Attributes.empty) ∧
    IsKeyed (fun key => key ≠ [] ∧ '/' ∉ key) tree.byComponent ∧
    ∀ place, tree.byComponent.keysAt place =
      (namesAfter place (declarations tree)).eraseDups := by
  refine ⟨?_, ?_, ?_, keysAt_byComponent tree⟩
  · intro place
    rw [isSome_attributesAt?_byComponent, flatten_eq_declarations]
  · intro place a ha
    have hmerged := getD_attributesAt?_byComponent tree place
    rwa [ha, flatten_eq_declarations] at hmerged
  · apply isKeyed_byComponent
    intro d hd name hname
    rw [flatten_eq_declarations] at hd
    obtain ⟨source, _, rfl⟩ := List.mem_map.1 hd
    obtain ⟨key, _, hkey⟩ := List.mem_flatMap.1 hname
    exact Path.mem_components hkey

end Dotfiles.ProfileTree
