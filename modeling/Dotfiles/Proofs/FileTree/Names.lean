import Dotfiles.FileTree.FileSystem
import Dotfiles.Proofs.Except
import Mathlib.Data.List.Basic

/-!
The names in a file tree. A listing shows names of the tree and none of them twice.
-/

namespace Dotfiles

namespace FileTree

mutual

/-- The names of all nodes below the root of a tree. -/
def names : FileTree → List Name
  | .file _ => []
  | .link _ => []
  | .dir entries => namesBelow entries

/-- The names of the given entries and of all nodes below them. -/
def namesBelow : List (Name × FileTree) → List Name
  | [] => []
  | (name, node) :: rest => name :: (names node ++ namesBelow rest)

end

theorem mem_namesBelow_of_mem {name : Name} {node : FileTree} {entries : List (Name × FileTree)}
    (h : (name, node) ∈ entries) :
    name ∈ namesBelow entries ∧ ∀ n ∈ node.names, n ∈ namesBelow entries := by
  induction entries with
  | nil => cases h
  | cons e rest ih =>
    obtain ⟨other, tree⟩ := e
    rw [namesBelow]
    rcases List.mem_cons.1 h with he | hm
    · cases he
      refine ⟨List.mem_cons_self, ?_⟩
      intro n hn
      exact List.mem_cons_of_mem _ (List.mem_append_left _ hn)
    · obtain ⟨hname, hbelow⟩ := ih hm
      refine ⟨List.mem_cons_of_mem _ (List.mem_append_right _ hname), ?_⟩
      intro n hn
      exact List.mem_cons_of_mem _ (List.mem_append_right _ (hbelow n hn))

theorem mem_of_entryOf {name : Name} {node : FileTree} {entries : List (Name × FileTree)}
    (h : entryOf name entries = some node) : (name, node) ∈ entries := by
  induction entries with
  | nil => cases h
  | cons e rest ih =>
    obtain ⟨other, tree⟩ := e
    rw [entryOf] at h
    split at h
    · rename_i he
      cases h
      cases he
      exact List.mem_cons_self
    · exact List.mem_cons_of_mem _ (ih h)

/-- The names below a node are names of the tree. -/
theorem names_at? {location : List Name} {root node : FileTree}
    (h : at? location root = some node) : ∀ name ∈ node.names, name ∈ root.names := by
  induction location generalizing root with
  | nil =>
    cases h
    exact fun _ hn => hn
  | cons first rest ih =>
    rw [at?, Option.bind_eq_some_iff] at h
    obtain ⟨child, hc, h⟩ := h
    unfold child? at hc
    split at hc
    · intro name hn
      exact (mem_namesBelow_of_mem (mem_of_entryOf hc)).2 name (ih h name hn)
    · cases hc

/-- A node is found where its path leads. -/
theorem find_eq_ok_iff {follow : Bool} {p : Path} {root node : FileTree} :
    root.find follow p = .ok node ↔
      ∃ here, root.locate follow p = .ok here ∧ root.at? here = some node := by
  rw [find, Except.bind_eq_ok_iff]
  refine exists_congr fun here => and_congr_right fun _ => ?_
  cases root.at? here <;> simp

theorem names_of_find {follow : Bool} {p : Path} {root node : FileTree}
    (h : root.find follow p = .ok node) : ∀ name ∈ node.names, name ∈ root.names := by
  obtain ⟨_, _, hat⟩ := find_eq_ok_iff.1 h
  exact names_at? hat

theorem mem_namesOf_iff {name : Name} {entries : List (Name × FileTree)} :
    name ∈ namesOf entries ↔ name ∈ entries.map (·.1) := by
  rw [namesOf, Text.sort, List.mem_mergeSort, List.mem_eraseDups]

theorem nodup_eraseDups (items : List Name) : items.eraseDups.Nodup := by
  match items with
  | [] => exact List.nodup_nil
  | item :: rest =>
    have hshorter : (rest.filter fun b => !b == item).length < rest.length + 1 :=
      Nat.lt_succ_of_le (List.length_filter_le _ _)
    rw [List.eraseDups_cons, List.nodup_cons]
    refine ⟨?_, nodup_eraseDups _⟩
    rw [List.mem_eraseDups, List.mem_filter]
    rintro ⟨_, hne⟩
    simp at hne
termination_by items.length

theorem nodup_namesOf (entries : List (Name × FileTree)) : (namesOf entries).Nodup := by
  rw [namesOf, Text.sort, (List.mergeSort_perm _ _).nodup_iff]
  exact nodup_eraseDups _

end FileTree

end Dotfiles
