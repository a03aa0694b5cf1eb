import Dotfiles.Proofs.Profile.Gathering

/-!
The outline of a tree: every node of it with the keys that lead there, depth first. It
lists exactly the attributes that the tree holds, each place once; what is gathered by
components is the outline with every key taken apart.
-/

namespace Dotfiles.ProfileTree

mutual

/-- The nodes of a tree, each with the keys that lead to it and its attributes. -/
def outline : ProfileTree → List (List Text × Attributes)
  | .node own children => ([], own) :: outlineBelow children

/-- The nodes at and below the given children. -/
def outlineBelow : List (Text × ProfileTree) → List (List Text × Attributes)
  | [] => []
  | (key, child) :: rest => under key (outline child) ++ outlineBelow rest

end

variable {P : Text → Prop}

theorem outlineBelow_eq (children : List (Text × ProfileTree)) :
    outlineBelow children = children.flatMap fun c => under c.1 (outline c.2) := by
  induction children with
  | nil => rfl
  | cons c rest ih => rw [outlineBelow, ih, List.flatMap_cons]

theorem outline_node (own : Attributes) (children : List (Text × ProfileTree)) :
    outline (.node own children) =
      ([], own) :: children.flatMap fun c => under c.1 (outline c.2) := by
  rw [outline, outlineBelow_eq]

theorem mem_under_iff {key : Text} {declared : List (List Text × Attributes)}
    {keys : List Text} {a : Attributes} :
    (keys, a) ∈ under key declared ↔ ∃ rest, keys = key :: rest ∧ (rest, a) ∈ declared := by
  constructor
  · intro h
    obtain ⟨d, hd, he⟩ := List.mem_map.1 h
    cases he
    exact ⟨d.1, rfl, hd⟩
  · rintro ⟨rest, rfl, h⟩
    exact List.mem_map.2 ⟨(rest, a), h, rfl⟩

/-- The outline lists what the tree holds. -/
theorem mem_outline_iff {tree : ProfileTree} (hk : IsKeyed P tree) (keys : List Text)
    (a : Attributes) : (keys, a) ∈ outline tree ↔ tree.attributesAt? keys = some a := by
  induction hk generalizing keys with
  | @node own children distinct _ _ ih =>
    rw [outline_node, List.mem_cons, List.mem_flatMap]
    cases keys with
    | nil =>
      rw [attributesAt?_nil]
      constructor
      · rintro (he | ⟨c, _, hm⟩)
        · cases he
          rfl
        · exact absurd rfl (ne_nil_of_mem_under hm)
      · intro h
        cases h
        exact .inl rfl
    | cons key rest =>
      rw [attributesAt?_cons, Option.bind_eq_some_iff]
      constructor
      · rintro (he | ⟨⟨k, child⟩, hc, hm⟩)
        · cases he
        · obtain ⟨more, he, hm⟩ := mem_under_iff.1 hm
          cases he
          exact ⟨child, (childOf_eq_some_iff distinct).2 hc, (ih _ hc rest).1 hm⟩
      · rintro ⟨child, hc, ha⟩
        have hmem := mem_of_childOf hc
        exact .inr ⟨(key, child), hmem, mem_under_iff.2 ⟨rest, rfl, (ih _ hmem rest).2 ha⟩⟩

theorem map_fst_under (key : Text) (declared : List (List Text × Attributes)) :
    (under key declared).map (·.1) = (declared.map (·.1)).map (key :: ·) := by
  simp [under, Function.comp_def]

/-- No place is listed twice. -/
theorem nodup_outline {tree : ProfileTree} (hk : IsKeyed P tree) :
    ((outline tree).map (·.1)).Nodup := by
  induction hk with
  | @node own children distinct _ _ ih =>
    rw [outline_node, List.map_cons, List.nodup_cons]
    constructor
    · intro h
      obtain ⟨d, hd, he⟩ := List.mem_map.1 h
      obtain ⟨c, _, hm⟩ := List.mem_flatMap.1 hd
      exact ne_nil_of_mem_under hm he
    · rw [List.map_flatMap, List.Nodup, List.pairwise_flatMap]
      constructor
      · intro c hc
        rw [map_fst_under, List.pairwise_map]
        refine (ih c hc).imp ?_
        intro keys others hne he
        exact hne (List.cons.inj he).2
      · rw [List.Nodup, List.pairwise_map] at distinct
        refine distinct.imp ?_
        intro c d hne keys hc others hd he
        rw [map_fst_under, List.mem_map] at hc hd
        obtain ⟨r, _, rfl⟩ := hc
        obtain ⟨s, _, rfl⟩ := hd
        exact hne (List.cons.inj he).1

mutual

/-- Gathering by components takes the keys of the outline apart. -/
theorem flatten_eq (place : List Name) : ∀ tree : ProfileTree,
    flatten place tree =
      (outline tree).map fun d => (place ++ d.1.flatMap Path.components, d.2)
  | .node own children => by
    rw [flatten, outline, List.map_cons, flattenChildren_eq place children]
    simp

theorem flattenChildren_eq (place : List Name) : ∀ children : List (Text × ProfileTree),
    flattenChildren place children =
      (outlineBelow children).map fun d => (place ++ d.1.flatMap Path.components, d.2)
  | [] => rfl
  | (key, child) :: rest => by
    rw [flattenChildren, outlineBelow, List.map_append, flatten_eq _ child,
      flattenChildren_eq place rest]
    simp [under, Function.comp_def]

end

end Dotfiles.ProfileTree
