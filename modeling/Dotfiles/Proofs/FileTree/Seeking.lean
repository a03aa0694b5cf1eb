import Dotfiles.Proofs.FileTree.LinkFree
import Dotfiles.Proofs.FileTree.Names
import Dotfiles.Proofs.Path.Order
import Dotfiles.Proofs.Path.Plain

/-!
Lookups without links and dots. Where a tree holds no link and a path no dots, a lookup goes down
from the root name by name, so it says of a place what it says of the place above, and what that
one holds. A listing shows the names that it holds, in increasing order.
-/

namespace Dotfiles

open Dotfiles.Path

namespace FileTree

/-- The node that names lead to, or why there is none. Names are looked up in directories only. -/
def seek : List Name → FileTree → Except Errno FileTree
  | [], node => .ok node
  | name :: rest, .dir entries =>
    match entryOf name entries with
    | none => .error .noEntry
    | some node => seek rest node
  | _ :: _, _ => .error .notDirectory

variable {root node found : FileTree} {names : List Name} {name : Name}
  {entries : List (Name × FileTree)}

section Seeking

theorem at?_concat {here : Location} (hdir : root.at? here = some (.dir entries)) (name : Name) :
    root.at? (here ++ [name]) = entryOf name entries := by
  rw [at?_append, hdir, Option.bind_some, at?, child?]
  cases entryOf name entries <;> rfl

theorem seek_append (p q : List Name) (node : FileTree) :
    seek (p ++ q) node = seek p node >>= seek q := by
  induction p generalizing node with
  | nil => rfl
  | cons name rest ih =>
    cases node with
    | file content => rfl
    | link destination => rfl
    | dir entries =>
      rw [List.cons_append, seek, seek]
      cases entryOf name entries with
      | none => rfl
      | some child => exact ih child

theorem seek_eq_ok_iff : seek names node = .ok found ↔ node.at? names = some found := by
  induction names generalizing node with
  | nil => simp [seek, at?]
  | cons name rest ih =>
    cases node with
    | file content => simp [seek, at?, child?]
    | link destination => simp [seek, at?, child?]
    | dir entries =>
      rw [seek, at?, child?]
      cases entryOf name entries with
      | none => simp
      | some child => exact ih

/-- A step down from a node depends on its kind and on what it holds under the name. -/
theorem map_kind_seek_singleton {node' : FileTree} (hkind : node.kind = node'.kind)
    (hchild : (node.at? [name]).map kind = (node'.at? [name]).map kind) :
    kind <$> seek [name] node = kind <$> seek [name] node' := by
  cases node <;> cases node' <;> try cases hkind
  · rfl
  · rfl
  · rename_i entries entries'
    simp only [at?, child?] at hchild
    rw [seek, seek]
    cases he : entryOf name entries with
    | none =>
      cases he' : entryOf name entries' with
      | none => rfl
      | some child' => simp [he, he'] at hchild
    | some child =>
      cases he' : entryOf name entries' with
      | none => simp [he, he'] at hchild
      | some child' =>
        simp only [he, he', Option.bind_some, Option.map_some, Option.some.injEq] at hchild
        exact congrArg Except.ok hchild

/-- Without links and dots, a lookup goes down name by name. -/
theorem descend_eq_seek (h : root.hasNoLinks = true) {follow : Bool}
    {jump : Location → List Name → Except Errno Location} {here : Location}
    (hn : ∀ name ∈ names, IsPlain name) (hat : root.at? here = some node) :
    descend root follow jump here names = (fun _ => here ++ names) <$> seek names node := by
  induction names generalizing here node with
  | nil => rw [descend, List.append_nil]; rfl
  | cons name rest ih =>
    obtain ⟨hname, hrest⟩ := List.forall_mem_cons.1 hn
    rw [descend, hat]
    cases node with
    | file content => rfl
    | link destination => rfl
    | dir entries =>
      simp only [seek, if_neg hname.ne_dot, if_neg hname.ne_dots]
      have hbelow := at?_concat hat name
      cases he : entryOf name entries with
      | none => rfl
      | some child =>
        rw [he] at hbelow
        have hstep := ih hrest hbelow
        rw [List.append_assoc] at hstep
        cases child with
        | link destination => exact absurd hbelow (at?_ne_link h _ _)
        | file content => exact hstep
        | dir others => exact hstep

theorem find_eq_seek (h : root.hasNoLinks = true) {follow : Bool} {p : Path}
    (hne : components p ≠ []) (hn : ∀ name ∈ components p, IsPlain name) :
    root.find follow p = seek (components p) root := by
  have hp : p.isEmpty = false := by
    cases p with
    | nil => exact absurd rfl hne
    | cons c rest => rfl
  have hlocate : root.locate follow p = (fun _ => components p) <$> seek (components p) root := by
    rw [locate, hp]
    exact descend_eq_seek h hn (show root.at? [] = some root from rfl)
  cases hseek : seek (components p) root with
  | error errno =>
    rw [find, hlocate, hseek]
    rfl
  | ok found =>
    rw [hseek] at hlocate
    exact find_eq_ok_iff.2 ⟨_, hlocate, seek_eq_ok_iff.1 hseek⟩

end Seeking

section Listing

theorem isSome_entryOf_iff : (entryOf name entries).isSome = true ↔ name ∈ namesOf entries := by
  rw [mem_namesOf_iff]
  induction entries with
  | nil => simp [entryOf]
  | cons e rest ih =>
    rw [entryOf, List.map_cons, List.mem_cons]
    split
    · rename_i he
      simp [he]
    · rename_i he
      rw [ih]
      simp [Ne.symm he]

/-- A listing is sorted. -/
theorem pairwise_namesOf (entries : List (Name × FileTree)) :
    (namesOf entries).Pairwise (· < ·) := by
  have hd : ((entries.map (·.1)).eraseDups.map id).Nodup := by
    rw [List.map_id]
    exact nodup_eraseDups _
  exact pairwise_mergeSort_of_lt Text.before_iff_lt hd

end Listing

end FileTree

namespace FileSystem

variable {fs : FileSystem} {p : Path} {kind : NodeKind} {listed : List Name}

/-- What there is at a path of a file system without links and faults. -/
theorem inspect_eq_seek (hlinks : fs.root.hasNoLinks = true) (hfaults : fs.faults = [])
    (hne : components p ≠ []) (hn : ∀ name ∈ components p, IsPlain name) :
    fs.inspect p = answer p (FileTree.kind <$> fs.root.seek (components p)) := by
  rw [inspect, check_eq_ok hfaults, FileTree.find_eq_seek hlinks hne hn]
  cases fs.root.seek (components p) <;> rfl

/-- A directory that is found can be listed; the listing is sorted and shows what it holds. -/
theorem list_eq_ok_of_seek (hlinks : fs.root.hasNoLinks = true) (hfaults : fs.faults = [])
    (hne : components p ≠ []) (hn : ∀ name ∈ components p, IsPlain name)
    {entries : List (Name × FileTree)} (h : fs.root.seek (components p) = .ok (.dir entries)) :
    fs.list p = .ok (FileTree.namesOf entries) := by
  rw [list, check_eq_ok hfaults, FileTree.find_eq_seek hlinks hne hn, h]
  rfl

theorem pairwise_of_list (h : fs.list p = .ok listed) : listed.Pairwise (· < ·) := by
  obtain ⟨_, _, _, rfl⟩ := list_eq_ok_iff.1 h
  exact FileTree.pairwise_namesOf _

end FileSystem

end Dotfiles
