import Dotfiles.Proofs.FileTree.Leading

/-!
What the calls on a file system answer. Each of them finds a node of a kind of its own, or it fails:
for a defect of the path if that has one, and for the reason that the system gives otherwise. Where
no name has a defect itself, nothing is found on a path with one.
-/

namespace Dotfiles

open Dotfiles.Path

namespace Path

variable {p : Path}

theorem defect?_eq_none_iff :
    defect? p = none ↔ ∀ c ∈ p, Text.isUnencodable c = false ∧ c ≠ '\x00' := by
  simp only [defect?, List.any_eq_true, List.contains_iff_mem]
  split
  · rename_i h
    obtain ⟨c, hc, hbad⟩ := h
    simp only [reduceCtorEq, false_iff, not_forall]
    exact ⟨c, hc, by simp [hbad]⟩
  · rename_i hencoded
    simp only [not_exists, not_and, Bool.not_eq_true] at hencoded
    split
    · rename_i hnull
      simp only [reduceCtorEq, false_iff, not_forall]
      exact ⟨_, hnull, by simp⟩
    · rename_i hnull
      exact iff_of_true rfl fun c hc => ⟨hencoded c hc, fun he => hnull (he ▸ hc)⟩

/-- A defect of a path is one of its components. -/
theorem defect?_eq_none_of_components (h : ∀ name ∈ components p, defect? name = none) :
    defect? p = none := by
  rw [defect?_eq_none_iff]
  intro c hc
  rw [← ofSegments_segments p] at hc
  rcases Text.mem_join hc with rfl | ⟨part, hm, hc⟩
  · decide
  · have hne : part ≠ [] := List.ne_nil_of_mem hc
    exact defect?_eq_none_iff.1 (h part (List.mem_filter.2 ⟨hm, by simpa using hne⟩)) c hc

end Path

theorem CallFailure.of_eq_unusable_iff {p : Path} {errno : Errno} {defect : Path.Defect} :
    CallFailure.of p errno = .unusable defect ↔ p.defect? = some defect := by
  rw [CallFailure.of]
  cases p.defect? <;> simp

/-- Nothing is found on a path with a defect that no name of the tree has. -/
theorem FileTree.find_ne_ok_of_defect {root : FileTree} {follow : Bool} {p : Path}
    (hnames : ∀ name ∈ root.names, Path.defect? name = none) (h : p.defect? ≠ none)
    (node : FileTree) : root.find follow p ≠ .ok node := by
  intro hfind
  obtain ⟨here, hlocate, _⟩ := find_eq_ok_iff.1 hfind
  obtain ⟨links, _, hway⟩ := locate_eq_ok hlocate
  refine h (Path.defect?_eq_none_of_components fun name hm => ?_)
  rcases hway.mem_names name hm with rfl | rfl | hm
  · decide
  · decide
  · exact hnames name hm

namespace FileSystem

variable {α : Type} {fs : FileSystem} {p destination : Path} {kind : NodeKind} {listed : List Name}
  {content : Content} {found : Except Errno α} {failure : CallFailure} {defect : Path.Defect}

section Answers

theorem answer_eq_ok_iff {a : α} : answer p found = .ok a ↔ found = .ok a :=
  Except.mapError_eq_ok_iff

theorem answer_eq_error_iff : answer p found = .error failure ↔
    ∃ errno, found = .error errno ∧ CallFailure.of p errno = failure := by
  cases found <;> simp [answer, Except.mapError]

theorem check_eq_ok (h : fs.faults = []) (call : FileCall) (p : Path) :
    fs.check call p = .ok () := by
  rw [check, h]
  rfl

theorem check_bind_eq_ok_iff {call : FileCall} {next : Except Errno α} {a : α} :
    (fs.check call p >>= fun _ => next) = .ok a ↔ fs.check call p = .ok () ∧ next = .ok a := by
  cases fs.check call p <;> simp [bind, Except.bind]

theorem inspect_eq_ok_iff : fs.inspect p = .ok kind ↔
    fs.check .inspect p = .ok () ∧ ∃ node, fs.root.find false p = .ok node ∧ node.kind = kind := by
  rw [inspect, answer_eq_ok_iff, check_bind_eq_ok_iff, Except.bind_eq_ok_iff]
  simp [pure, Except.pure]

theorem readLink_eq_ok_iff : fs.readLink p = .ok destination ↔
    fs.check .readLink p = .ok () ∧ fs.root.find false p = .ok (.link destination) := by
  rw [readLink, answer_eq_ok_iff, check_bind_eq_ok_iff, Except.bind_eq_ok_iff]
  refine and_congr_right fun _ => ⟨?_, fun h => ⟨_, h, rfl⟩⟩
  rintro ⟨node, hfind, h⟩
  cases node <;> cases h
  exact hfind

theorem list_eq_ok_iff : fs.list p = .ok listed ↔
    fs.check .list p = .ok () ∧ ∃ entries, fs.root.find true p = .ok (.dir entries) ∧
      FileTree.namesOf entries = listed := by
  rw [list, answer_eq_ok_iff, check_bind_eq_ok_iff, Except.bind_eq_ok_iff]
  refine and_congr_right fun _ => ⟨?_, fun ⟨_, hfind, h⟩ => ⟨_, hfind, congrArg _ h⟩⟩
  rintro ⟨node, hfind, h⟩
  cases node <;> cases h
  exact ⟨_, hfind, rfl⟩

theorem read_eq_ok_iff : fs.read p = .ok content ↔
    fs.check .read p = .ok () ∧ fs.root.find true p = .ok (.file content) := by
  rw [read, answer_eq_ok_iff, check_bind_eq_ok_iff, Except.bind_eq_ok_iff]
  refine and_congr_right fun _ => ⟨?_, fun h => ⟨_, h, rfl⟩⟩
  rintro ⟨node, hfind, h⟩
  cases node <;> cases h
  exact hfind

end Answers

section Listings

/-- What a listing shows. -/
theorem list_eq_ok (h : fs.list p = .ok listed) :
    listed.Nodup ∧ ∀ name ∈ listed, name ∈ fs.root.names := by
  obtain ⟨_, entries, hfind, rfl⟩ := list_eq_ok_iff.1 h
  refine ⟨FileTree.nodup_namesOf entries, ?_⟩
  intro name hn
  apply FileTree.names_of_find hfind
  obtain ⟨entry, he, rfl⟩ := List.mem_map.1 (FileTree.mem_namesOf_iff.1 hn)
  exact (FileTree.mem_namesBelow_of_mem he).1

end Listings

section Defects

/-- A call that fails on a path with a defect fails for that. -/
theorem answer_eq_unusable_iff : answer p found = .error (.unusable defect) ↔
    p.defect? = some defect ∧ ∀ a, answer p found ≠ .ok a := by
  simp only [answer_eq_error_iff, CallFailure.of_eq_unusable_iff, ne_eq, answer_eq_ok_iff]
  cases found <;> simp

/-- In a file system whose names have no defect, every call on a path with one fails for that. -/
theorem eq_unusable_of_defect (hnames : ∀ name ∈ fs.root.names, Path.defect? name = none)
    (h : p.defect? = some defect) :
    fs.inspect p = .error (.unusable defect) ∧ fs.readLink p = .error (.unusable defect) ∧
      fs.list p = .error (.unusable defect) ∧ fs.read p = .error (.unusable defect) := by
  have hfind : ∀ follow node, fs.root.find follow p ≠ .ok node :=
    fun follow => FileTree.find_ne_ok_of_defect hnames (by simp [h])
  refine ⟨?_, ?_, ?_, ?_⟩ <;> refine answer_eq_unusable_iff.2 ⟨h, fun a ha => ?_⟩
  · obtain ⟨_, node, hnode, _⟩ := inspect_eq_ok_iff.1 ha
    exact hfind _ _ hnode
  · exact hfind _ _ (readLink_eq_ok_iff.1 ha).2
  · obtain ⟨_, entries, hdir, _⟩ := list_eq_ok_iff.1 ha
    exact hfind _ _ hdir
  · exact hfind _ _ (read_eq_ok_iff.1 ha).2

end Defects

end FileSystem

end Dotfiles
