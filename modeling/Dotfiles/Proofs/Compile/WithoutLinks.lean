import Dotfiles.Proofs.Compile.Walk
import Dotfiles.Proofs.FileTree.Seeking

/-!
Walks over a source tree without links and faults. What stands in for a source is the node at its
place, the walk goes down from directory to directory, and it never goes deeper than the tree is.
-/

namespace Dotfiles

open Dotfiles.Path

/-- A file system without links and faults, all names in it plain. -/
structure FileSystem.IsSimple (fs : FileSystem) : Prop where
  noLinks : fs.root.hasNoLinks = true
  noFaults : fs.faults = []
  plain : ∀ name ∈ fs.root.names, IsPlain name

namespace FileTree

variable {root node : FileTree} {place : Location} {name : Name} {depth : Nat}
  {entries : List (Name × FileTree)}

theorem height_at?_le (h : root.at? place = some node) : node.height ≤ root.height := by
  induction place generalizing root with
  | nil =>
    cases h
    exact Nat.le_refl _
  | cons name rest ih =>
    rw [at?, Option.bind_eq_some_iff] at h
    obtain ⟨child, hchild, h⟩ := h
    cases root with
    | file content => cases hchild
    | link destination => cases hchild
    | dir entries => exact (ih h).trans (Nat.le_of_lt (height_entryOf_lt hchild))

/-- Whether a walk of the given depth gets to the end of whatever is at a place. -/
structure Suffices (root : FileTree) (place : Location) (depth : Nat) : Prop where
  pos : 0 < depth
  height_lt : ∀ node, root.at? place = some node → node.height < depth

theorem Suffices.below (h : Suffices root place (depth + 1))
    (hdir : root.at? place = some (.dir entries)) (hname : name ∈ namesOf entries) :
    Suffices root (place ++ [name]) depth := by
  have hlt : ∀ child, root.at? (place ++ [name]) = some child → child.height < depth := by
    intro child hchild
    rw [at?_concat hdir] at hchild
    exact Nat.lt_of_lt_of_le (height_entryOf_lt hchild) (Nat.le_of_lt_succ (h.height_lt _ hdir))
  obtain ⟨child, hchild⟩ := Option.isSome_iff_exists.1 (isSome_entryOf_iff.2 hname)
  exact ⟨Nat.zero_lt_of_lt (hlt child ((at?_concat hdir name).trans hchild)), hlt⟩

end FileTree

namespace Expansion

open FileTree

variable {fs : FileSystem} {entry : Entry} {place : List Name} {node : FileTree}

theorem suffices_depthLimit (fs : FileSystem) (place : Location) :
    Suffices fs.root place (depthLimit fs) := by
  refine ⟨by simp [depthLimit], ?_⟩
  intro node hnode
  have hle := height_at?_le hnode
  simp only [depthLimit]
  omega

theorem inspect_rooted (hfs : fs.IsSimple) (hne : place ≠ []) (hplace : ∀ n ∈ place, IsPlain n) :
    fs.inspect (rooted place) =
      FileSystem.answer (rooted place) (kind <$> fs.root.seek place) := by
  have hc := components_rooted hplace
  rw [FileSystem.inspect_eq_seek hfs.noLinks hfs.noFaults (by rwa [hc]) (by rwa [hc]), hc]

/-- What stands in for a source is the node at its place. -/
theorem stands_of_at? (hfs : fs.IsSimple) (hne : place ≠ []) (hplace : ∀ n ∈ place, IsPlain n)
    (h : fs.root.at? place = some node) : Stands fs (rooted place) (rooted place) node.kind := by
  refine .self ?_ ?_
  · rw [inspect_rooted hfs hne hplace, seek_eq_ok_iff.2 h]
    rfl
  · cases node with
    | link destination => exact absurd h (at?_ne_link hfs.noLinks _ _)
    | file content => simp [kind]
    | dir entries => simp [kind]

theorem list_of_at? (hfs : fs.IsSimple) (hne : place ≠ []) (hplace : ∀ n ∈ place, IsPlain n)
    {entries : List (Name × FileTree)} (h : fs.root.at? place = some (.dir entries)) :
    fs.list (rooted place) = .ok (namesOf entries) := by
  have hc := components_rooted hplace
  refine FileSystem.list_eq_ok_of_seek hfs.noLinks hfs.noFaults (by rwa [hc]) (by rwa [hc]) ?_
  rw [hc]
  exact seek_eq_ok_iff.2 h

theorem plain_of_at? (hfs : fs.IsSimple) {entries : List (Name × FileTree)}
    (h : fs.root.at? place = some (.dir entries)) : ∀ name ∈ namesOf entries, IsPlain name := by
  intro name hname
  apply hfs.plain
  apply names_at? h
  obtain ⟨e, he, rfl⟩ := List.mem_map.1 (mem_namesOf_iff.1 hname)
  exact (mem_namesBelow_of_mem he).1

section Visits

variable {depth : Nat} {target : Path} {before : Table}

/-- Where nothing is found, a walk fails. -/
theorem outcome_visit_of_error (hfs : fs.IsSimple) (hne : place ≠ [])
    (hplace : ∀ n ∈ place, IsPlain n) {errno : Errno} (h : fs.root.seek place = .error errno)
    (hfree : before.holds target = false) :
    (visit fs entry (depth + 1) target (rooted place) before).outcome =
      .error (.ofCall .inspect (rooted place) (.of (rooted place) errno)) := by
  rw [visit, hfree, if_neg Bool.false_ne_true, Traced.outcome_bind, oneHop, Traced.outcome_bind,
    Traced.outcome_call, inspect_rooted hfs hne hplace, h]
  rfl

/-- A file is recorded. -/
theorem outcome_visit_of_file (hfs : fs.IsSimple) (hne : place ≠ [])
    (hplace : ∀ n ∈ place, IsPlain n) {content : Content}
    (h : fs.root.at? place = some (.file content)) (hfree : before.holds target = false) :
    (visit fs entry (depth + 1) target (rooted place) before).outcome =
      (record entry target (rooted place) before).outcome := by
  rw [visit, hfree, if_neg Bool.false_ne_true, Traced.outcome_bind,
    oneHop_eq_ok_iff.2 (stands_of_at? hfs hne hplace h), Except.ok_bind]
  rfl

/-- A directory is gone through if the entry is expanded, and recorded otherwise. -/
theorem outcome_visit_of_dir (hfs : fs.IsSimple) (hne : place ≠ [])
    (hplace : ∀ n ∈ place, IsPlain n) {entries : List (Name × FileTree)}
    (h : fs.root.at? place = some (.dir entries)) (hfree : before.holds target = false) :
    (visit fs entry (depth + 1) target (rooted place) before).outcome =
      if isExpanded entry then (matcherOf entry).outcome >>= fun matcher =>
        (visitNames (visit fs entry depth) matcher target (rooted place) (namesOf entries)
          before).outcome
      else if entry.method = .template then .error (.templateIsDirectory (rooted place))
      else (record entry target (rooted place) before).outcome := by
  rw [visit, hfree, if_neg Bool.false_ne_true, Traced.outcome_bind,
    oneHop_eq_ok_iff.2 (stands_of_at? hfs hne hplace h), Except.ok_bind]
  simp only [kind]
  cases isExpanded entry with
  | true =>
    simp only [if_true, Traced.outcome_bind, Traced.outcome_call, list_of_at? hfs hne hplace h]
    rfl
  | false =>
    simp only [Bool.false_eq_true, if_false]
    split <;> rfl

end Visits

end Expansion

end Dotfiles
