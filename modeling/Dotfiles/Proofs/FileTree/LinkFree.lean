import Dotfiles.Proofs.FileTree.Calls

/-!
File systems without links. A lookup does not depend there on whether links are followed, so
what is listed as a directory is one.
-/

namespace Dotfiles

namespace FileTree

mutual

/-- Whether no node of a tree is a link. -/
def hasNoLinks : FileTree → Bool
  | .file _ => true
  | .link _ => false
  | .dir entries => haveNoLinks entries

/-- Whether no node at or below the given entries is a link. -/
def haveNoLinks : List (Name × FileTree) → Bool
  | [] => true
  | (_, node) :: rest => hasNoLinks node && haveNoLinks rest

end

theorem hasNoLinks_of_entryOf {name : Name} {node : FileTree} {entries : List (Name × FileTree)}
    (h : haveNoLinks entries = true) (he : entryOf name entries = some node) :
    hasNoLinks node = true := by
  induction entries with
  | nil => cases he
  | cons e rest ih =>
    obtain ⟨other, tree⟩ := e
    rw [haveNoLinks, Bool.and_eq_true] at h
    rw [entryOf] at he
    split at he
    · cases he
      exact h.1
    · exact ih h.2 he

variable {root : FileTree}

theorem at?_ne_link (h : root.hasNoLinks = true) (location : Location) (destination : Path) :
    root.at? location ≠ some (.link destination) := by
  intro hat
  induction location generalizing root with
  | nil =>
    cases hat
    cases h
  | cons name rest ih =>
    rw [at?, Option.bind_eq_some_iff] at hat
    obtain ⟨child, hchild, hat⟩ := hat
    unfold child? at hchild
    split at hchild
    · exact ih (hasNoLinks_of_entryOf h hchild) hat
    · cases hchild

/-- Names are followed without regard to links. -/
theorem descend_eq_of_hasNoLinks (h : root.hasNoLinks = true) (follow follow' : Bool)
    (jump jump' : Location → List Name → Except Errno Location) (here : Location)
    (names : List Name) :
    descend root follow jump here names = descend root follow' jump' here names := by
  induction names generalizing here with
  | nil => rfl
  | cons name rest ih =>
    rw [descend, descend]
    split
    · rename_i entries hdir
      split
      · exact ih _
      · split
        · exact ih _
        · cases he : entryOf name entries with
          | none => rfl
          | some node =>
            cases node with
            | link destination =>
              refine absurd ?_ (at?_ne_link h (here ++ [name]) destination)
              rw [at?_append, hdir, Option.bind_some, at?, child?, he]
              rfl
            | file content => exact ih _
            | dir others => exact ih _
    · rfl

theorem find_eq_of_hasNoLinks (h : root.hasNoLinks = true) (follow follow' : Bool) (p : Path) :
    root.find follow p = root.find follow' p := by
  have hwalk : ∀ here names, walk root follow linkLimit here names =
      walk root follow' linkLimit here names :=
    descend_eq_of_hasNoLinks h _ _ _ _
  rw [find, find, locate, locate, hwalk]

end FileTree

namespace FileSystem

variable {fs : FileSystem} {p : Path}

theorem inspect_ne_link (h : fs.root.hasNoLinks = true) : fs.inspect p ≠ .ok .link := by
  intro hp
  obtain ⟨_, node, hfind, hkind⟩ := inspect_eq_ok_iff.1 hp
  obtain ⟨location, _, hat⟩ := FileTree.find_eq_ok_iff.1 hfind
  cases node with
  | link destination => exact FileTree.at?_ne_link h location destination hat
  | file content => cases hkind
  | dir entries => cases hkind

/-- What is listed is a directory. -/
theorem kind_of_list (h : fs.root.hasNoLinks = true) {listed : List Name} {kind : NodeKind}
    (hlist : fs.list p = .ok listed) (hkind : fs.inspect p = .ok kind) : kind = .dir := by
  obtain ⟨_, entries, hdir, _⟩ := list_eq_ok_iff.1 hlist
  obtain ⟨_, node, hfind, rfl⟩ := inspect_eq_ok_iff.1 hkind
  rw [FileTree.find_eq_of_hasNoLinks h false true, hdir] at hfind
  cases hfind
  rfl

end FileSystem

end Dotfiles
