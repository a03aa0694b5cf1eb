import Dotfiles.Proofs.FileTree.Seeking
import Mathlib.Data.List.Induction

/-!
Trees that agree outside of a place: they have nodes of the same kind at all places that are not
at or below it. What is looked up or listed elsewhere does not tell them apart, but for the one
name that the directory above the place holds for it.
-/

namespace Dotfiles.FileTree

open Dotfiles.Path

/-- Whether two trees have nodes of the same kind, or none, wherever it is neither at nor below a
place. -/
def AgreeOutside (hidden : Location) (root root' : FileTree) : Prop :=
  ∀ place, ¬ hidden <+: place → (root.at? place).map kind = (root'.at? place).map kind

variable {root root' : FileTree} {hidden place : Location}
  {entries entries' : List (Name × FileTree)}

theorem eq_file_of_kind {node : FileTree} {content : Content}
    (h : node.kind = (file content).kind) :
    ∃ content, node = .file content := by
  cases node with
  | file content => exact ⟨content, rfl⟩
  | link destination => cases h
  | dir entries => cases h

theorem eq_dir_of_kind {node : FileTree} (h : node.kind = (dir entries).kind) :
    ∃ entries, node = .dir entries := by
  cases node with
  | file content => cases h
  | link destination => cases h
  | dir entries => exact ⟨entries, rfl⟩

theorem agreeOutside_nil (root root' : FileTree) : AgreeOutside [] root root' :=
  fun _ hp => absurd List.nil_prefix hp

/-- Directories with agreeing nodes put under a name agree, too. -/
theorem AgreeOutside.setEntry (h : AgreeOutside hidden root root') (name : Name)
    (entries : List (Name × FileTree)) :
    AgreeOutside (name :: hidden) (.dir (setEntry name root entries))
      (.dir (setEntry name root' entries)) := by
  intro place hp
  cases place with
  | nil => rfl
  | cons other rest =>
    rw [at?, at?, child?, child?]
    by_cases he : other = name
    · subst he
      rw [entryOf_setEntry_self, entryOf_setEntry_self]
      exact h rest fun hprefix => hp (List.cons_prefix_cons.2 ⟨rfl, hprefix⟩)
    · rw [entryOf_setEntry_ne he, entryOf_setEntry_ne he]

/-- A lookup elsewhere finds the same kind of node, or fails in the same way. -/
theorem AgreeOutside.seek (h : AgreeOutside hidden root root') (hp : ¬ hidden <+: place) :
    kind <$> root.seek place = kind <$> root'.seek place := by
  induction place using List.reverseRecOn with
  | nil =>
    have hroot := h [] hp
    simp only [at?, Option.map_some, Option.some.injEq] at hroot
    exact congrArg Except.ok hroot
  | append_singleton above name ih =>
    have habove : ¬ hidden <+: above := fun hunder => hp (hunder.trans (List.prefix_append _ _))
    have hsame := ih habove
    rw [seek_append, seek_append]
    cases hs : root.seek above with
    | error errno =>
      rw [hs] at hsame
      cases hs' : root'.seek above with
      | error errno' =>
        rw [hs'] at hsame
        cases hsame
        rfl
      | ok node' =>
        rw [hs'] at hsame
        cases hsame
    | ok node =>
      rw [hs] at hsame
      cases hs' : root'.seek above with
      | error errno' =>
        rw [hs'] at hsame
        cases hsame
      | ok node' =>
        rw [hs'] at hsame
        have hchild := h (above ++ [name]) hp
        rw [at?_append, at?_append, seek_eq_ok_iff.1 hs, seek_eq_ok_iff.1 hs'] at hchild
        exact map_kind_seek_singleton (Except.ok.inj hsame) hchild

/-- A directory elsewhere holds the same names, the one of the hidden place apart. -/
theorem AgreeOutside.mem_namesOf_iff (h : AgreeOutside hidden root root')
    (hp : ¬ hidden <+: place) (hat : root.at? place = some (.dir entries))
    (hat' : root'.at? place = some (.dir entries')) {name : Name} (hn : place ++ [name] ≠ hidden) :
    name ∈ namesOf entries ↔ name ∈ namesOf entries' := by
  have hout : ¬ hidden <+: place ++ [name] := by
    rw [List.prefix_concat_iff]
    rintro (he | hprefix)
    · exact hn he.symm
    · exact hp hprefix
  have hchild := congrArg Option.isSome (h _ hout)
  rw [Option.isSome_map, Option.isSome_map, at?_concat hat, at?_concat hat'] at hchild
  rw [← isSome_entryOf_iff, ← isSome_entryOf_iff, hchild]

/-- A listing elsewhere shows the same, once the name of the hidden place is taken out. -/
theorem AgreeOutside.filter_namesOf (h : AgreeOutside hidden root root')
    (hp : ¬ hidden <+: place) (hat : root.at? place = some (.dir entries))
    (hat' : root'.at? place = some (.dir entries')) {keep : Name → Bool}
    (hkeep : ∀ name, place ++ [name] = hidden → keep name = false) :
    (namesOf entries).filter keep = (namesOf entries').filter keep := by
  have hsorted : ∀ entries, ((namesOf entries).filter keep).Pairwise (· < ·) :=
    fun entries => (pairwise_namesOf entries).sublist List.filter_sublist
  refine List.Perm.eq_of_pairwise (fun a b _ _ hab hba => absurd hab (lt_asymm hba))
    (hsorted entries) (hsorted entries') ?_
  refine (List.perm_ext_iff_of_nodup ((nodup_namesOf _).filter _) ((nodup_namesOf _).filter _)).2 ?_
  intro name
  rw [List.mem_filter, List.mem_filter]
  by_cases hk : keep name = true
  · have hn : place ++ [name] ≠ hidden := by
      intro he
      rw [hkeep name he] at hk
      cases hk
    rw [h.mem_namesOf_iff hp hat hat' hn]
  · simp [hk]

end Dotfiles.FileTree
