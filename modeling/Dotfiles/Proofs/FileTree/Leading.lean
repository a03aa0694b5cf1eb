import Dotfiles.Proofs.FileTree.Names
import Mathlib.Order.Basic

/-!
Where names lead. A lookup follows names from location to location and links on its way; it is
described here as a relation, together with the number of links it crosses, so that the way
can be cut in two and the parts looked at on their own. The limit on links only decides whether
the way is gone to its end.
-/

namespace Dotfiles.FileTree

open Dotfiles.Path

/-- Names lead from a location to another one, across the given number of links. A link at the very
end is crossed only on request. -/
inductive Leads (root : FileTree) (follow : Bool) : Nat → Location → List Name → Location → Prop
  | done (here : Location) : Leads root follow 0 here [] here
  | dot {links : Nat} {here there : Location} {rest : List Name}
      {entries : List (Name × FileTree)} (hd : root.at? here = some (.dir entries))
      (h : Leads root follow links here rest there) :
      Leads root follow links here (['.'] :: rest) there
  | up {links : Nat} {here there : Location} {rest : List Name} {entries : List (Name × FileTree)}
      (hd : root.at? here = some (.dir entries))
      (h : Leads root follow links here.dropLast rest there) :
      Leads root follow links here (['.', '.'] :: rest) there
  | down {links : Nat} {here there : Location} {name : Name} {rest : List Name}
      {entries : List (Name × FileTree)} {node : FileTree}
      (hd : root.at? here = some (.dir entries)) (hdot : name ≠ ['.']) (hdots : name ≠ ['.', '.'])
      (he : entryOf name entries = some node) (hk : node.kind ≠ .link)
      (h : Leads root follow links (here ++ [name]) rest there) :
      Leads root follow links here (name :: rest) there
  | stop {here : Location} {name : Name} {entries : List (Name × FileTree)} {destination : Path}
      (hd : root.at? here = some (.dir entries)) (hdot : name ≠ ['.']) (hdots : name ≠ ['.', '.'])
      (he : entryOf name entries = some (.link destination)) (hf : follow = false) :
      Leads root follow 0 here [name] (here ++ [name])
  | jump {links : Nat} {here there : Location} {name : Name} {rest : List Name}
      {entries : List (Name × FileTree)} {destination : Path}
      (hd : root.at? here = some (.dir entries)) (hdot : name ≠ ['.']) (hdots : name ≠ ['.', '.'])
      (he : entryOf name entries = some (.link destination)) (hf : rest ≠ [] ∨ follow = true)
      (hne : destination ≠ [])
      (h : Leads root follow links (if isRooted destination then [] else here)
        (components destination ++ rest) there) :
      Leads root follow (links + 1) here (name :: rest) there

variable {root : FileTree} {follow : Bool} {links limit : Nat} {here there : Location}
  {names rest : List Name} {name : Name} {entries : List (Name × FileTree)}

section Walking

/-- What is done with a link that is to be crossed. -/
def cross (root : FileTree) (follow : Bool) : Nat → Location → List Name → Except Errno Location
  | 0 => fun _ _ => .error .linkLoop
  | limit + 1 => walk root follow limit

theorem walk_eq_descend (limit : Nat) :
    walk root follow limit = descend root follow (cross root follow limit) := by
  cases limit <;> rfl

/-- The way of a lookup is gone to its end, or given up at a link too many. -/
theorem Leads.walk_eq (h : Leads root follow links here names there) (limit : Nat) :
    walk root follow limit here names = if links ≤ limit then .ok there else .error .linkLoop := by
  induction h generalizing limit with
  | done here => rw [walk_eq_descend]; rfl
  | dot hd _ ih =>
    rw [← ih limit, walk_eq_descend, descend, hd]
    rfl
  | up hd _ ih =>
    rw [← ih limit, walk_eq_descend, descend, hd]
    rfl
  | @down links here there name rest entries node hd hdot hdots he hk _ ih =>
    rw [← ih limit, walk_eq_descend, descend, hd]
    simp only [if_neg hdot, if_neg hdots, he]
    cases node with
    | link destination => exact absurd rfl hk
    | file content => rfl
    | dir others => rfl
  | stop hd hdot hdots he hf =>
    rw [walk_eq_descend, descend, hd]
    simp [if_neg hdot, if_neg hdots, he, hf]
  | @jump links here there name rest entries destination hd hdot hdots he hf hne _ ih =>
    have hcross : ¬ (rest.isEmpty && !follow) = true := by
      rcases hf with hf | hf <;> simp [hf]
    rw [walk_eq_descend, descend, hd]
    simp only [if_neg hdot, if_neg hdots, he, if_neg hcross]
    rw [if_neg (by simpa using hne)]
    cases limit with
    | zero => rfl
    | succ limit =>
      rw [cross, ih limit]
      simp

/-- A way down is gone name by name, if it is known for what lies behind a link. -/
theorem exists_leads_of_descend
    (hcross : ∀ {here names}, cross root follow limit here names = .ok there →
      ∃ links < limit, Leads root follow links here names there)
    (h : descend root follow (cross root follow limit) here names = .ok there) :
    ∃ links ≤ limit, Leads root follow links here names there := by
  induction names generalizing here with
  | nil =>
    cases h
    exact ⟨0, Nat.zero_le _, .done _⟩
  | cons name rest ih =>
    rw [descend] at h
    split at h
    · rename_i entries hd
      by_cases hdot : name = ['.']
      · subst hdot
        obtain ⟨links, hle, hway⟩ := ih h
        exact ⟨links, hle, .dot hd hway⟩
      · rw [if_neg hdot] at h
        by_cases hdots : name = ['.', '.']
        · subst hdots
          obtain ⟨links, hle, hway⟩ := ih h
          exact ⟨links, hle, .up hd hway⟩
        · rw [if_neg hdots] at h
          split at h
          · cases h
          · rename_i destination he
            split at h
            · rename_i hlast
              simp only [Bool.and_eq_true, List.isEmpty_iff, Bool.not_eq_true'] at hlast
              obtain ⟨rfl, hf⟩ := hlast
              cases h
              exact ⟨0, Nat.zero_le _, .stop hd hdot hdots he hf⟩
            · rename_i hmore
              split at h
              · cases h
              · rename_i hne
                obtain ⟨links, hlt, hway⟩ := hcross h
                refine ⟨links + 1, hlt, .jump hd hdot hdots he ?_ (by simpa using hne) hway⟩
                by_contra hnot
                rw [not_or, not_not, Bool.not_eq_true] at hnot
                exact hmore (by simp [hnot])
          · rename_i node hlink he
            obtain ⟨links, hle, hway⟩ := ih h
            refine ⟨links, hle, .down hd hdot hdots he ?_ hway⟩
            cases node with
            | link destination => exact absurd rfl (hlink destination)
            | file content => simp [kind]
            | dir others => simp [kind]
    · cases h

/-- A lookup that succeeds has gone a way. -/
theorem exists_leads_of_walk (h : walk root follow limit here names = .ok there) :
    ∃ links ≤ limit, Leads root follow links here names there := by
  rw [walk_eq_descend] at h
  induction limit generalizing here names with
  | zero =>
    refine exists_leads_of_descend (fun hcross => ?_) h
    cases hcross
  | succ limit ih =>
    refine exists_leads_of_descend (fun hcross => ?_) h
    rw [cross, walk_eq_descend] at hcross
    obtain ⟨links, hle, hway⟩ := ih hcross
    exact ⟨links, Nat.lt_succ_of_le hle, hway⟩

theorem walk_eq_ok_iff : walk root follow limit here names = .ok there ↔
    ∃ links ≤ limit, Leads root follow links here names there := by
  refine ⟨exists_leads_of_walk, ?_⟩
  rintro ⟨links, hle, h⟩
  rw [h.walk_eq, if_pos hle]

/-- Names lead to one location at most, always across the same links. -/
theorem Leads.unique {links' : Nat} {there' : Location}
    (h : Leads root follow links here names there)
    (h' : Leads root follow links' here names there') : links = links' ∧ there = there' := by
  have hlinks : ∀ {links links' : Nat} {there there' : Location},
      Leads root follow links here names there → Leads root follow links' here names there' →
      links' ≤ links ∧ there = there' := by
    intro links links' there there' h h'
    have hway := h.walk_eq links
    rw [if_pos (Nat.le_refl links), h'.walk_eq] at hway
    split at hway
    · rename_i hle
      cases hway
      exact ⟨hle, rfl⟩
    · cases hway
  obtain ⟨hle, hthere⟩ := hlinks h h'
  exact ⟨Nat.le_antisymm (hlinks h' h).1 hle, hthere⟩

end Walking

section Parts

/-- Names can only be followed from a directory. -/
theorem Leads.exists_dir (h : Leads root follow links here (name :: rest) there) :
    ∃ entries, root.at? here = some (.dir entries) := by
  cases h <;> exact ⟨_, ‹_›⟩

theorem Leads.append {first : Nat} {a : List Name} {mid : Location}
    (h : Leads root true first here a mid) (hne : rest ≠ [])
    (h' : Leads root follow links mid rest there) :
    Leads root follow (first + links) here (a ++ rest) there := by
  induction h with
  | done here => rwa [Nat.zero_add]
  | dot hd _ ih => exact .dot hd (ih h')
  | up hd _ ih => exact .up hd (ih h')
  | down hd hdot hdots he hk _ ih => exact .down hd hdot hdots he hk (ih h')
  | stop hd hdot hdots he hf => cases hf
  | jump hd hdot hdots he hf hdest _ ih =>
    rw [Nat.add_right_comm]
    refine .jump hd hdot hdots he (.inl (by simp [hne])) hdest ?_
    have hway := ih h'
    rwa [List.append_assoc] at hway

/-- The way along names and further ones is the way along the first of them, all links crossed,
and then the way along the others. -/
theorem Leads.exists_mid {a : List Name} (h : Leads root follow links here (a ++ rest) there)
    (hne : rest ≠ []) : ∃ first second mid, links = first + second ∧
      Leads root true first here a mid ∧ Leads root follow second mid rest there := by
  have hnil : ∀ {links : Nat} {here there : Location}, Leads root follow links here rest there →
      ∃ first second mid, links = first + second ∧ Leads root true first here [] mid ∧
        Leads root follow second mid rest there :=
    fun h => ⟨0, _, _, (Nat.zero_add _).symm, .done _, h⟩
  -- behind a link the way goes on with the names of its destination in front of those of `a`
  generalize hnames : a ++ rest = names at h
  induction h generalizing a with
  | done here => simp [hne] at hnames
  | dot hd hway ih =>
    cases a with
    | nil =>
      obtain rfl : rest = _ := hnames
      exact hnil (.dot hd hway)
    | cons _ a =>
      cases hnames
      obtain ⟨first, second, mid, hsum, h, h'⟩ := ih rfl
      exact ⟨first, second, mid, hsum, .dot hd h, h'⟩
  | up hd hway ih =>
    cases a with
    | nil =>
      obtain rfl : rest = _ := hnames
      exact hnil (.up hd hway)
    | cons _ a =>
      cases hnames
      obtain ⟨first, second, mid, hsum, h, h'⟩ := ih rfl
      exact ⟨first, second, mid, hsum, .up hd h, h'⟩
  | down hd hdot hdots he hk hway ih =>
    cases a with
    | nil =>
      obtain rfl : rest = _ := hnames
      exact hnil (.down hd hdot hdots he hk hway)
    | cons _ a =>
      cases hnames
      obtain ⟨first, second, mid, hsum, h, h'⟩ := ih rfl
      exact ⟨first, second, mid, hsum, .down hd hdot hdots he hk h, h'⟩
  | stop hd hdot hdots he hf =>
    cases a with
    | nil =>
      obtain rfl : rest = _ := hnames
      exact hnil (.stop hd hdot hdots he hf)
    | cons _ a => simp [hne] at hnames
  | jump hd hdot hdots he hf hdest hway ih =>
    cases a with
    | nil =>
      obtain rfl : rest = _ := hnames
      exact hnil (.jump hd hdot hdots he hf hdest hway)
    | cons _ a =>
      cases hnames
      obtain ⟨first, second, mid, rfl, h, h'⟩ := ih (List.append_assoc _ _ _)
      exact ⟨first + 1, second, mid, Nat.add_right_comm _ _ _,
        .jump hd hdot hdots he (.inr rfl) hdest h, h'⟩

end Parts

section Lookups

/-- A way is made of names of the tree and of dots. -/
theorem Leads.mem_names (h : Leads root follow links here names there) :
    ∀ name ∈ names, name = ['.'] ∨ name = ['.', '.'] ∨ name ∈ root.names := by
  have hentry : ∀ {here : Location} {entries : List (Name × FileTree)} {name : Name}
      {node : FileTree}, root.at? here = some (.dir entries) → entryOf name entries = some node →
      name ∈ root.names :=
    fun hd he => names_at? hd _ (mem_namesBelow_of_mem (mem_of_entryOf he)).1
  induction h with
  | done here => simp
  | dot hd _ ih => exact List.forall_mem_cons.2 ⟨.inl rfl, ih⟩
  | up hd _ ih => exact List.forall_mem_cons.2 ⟨.inr (.inl rfl), ih⟩
  | down hd _ _ he _ _ ih => exact List.forall_mem_cons.2 ⟨.inr (.inr (hentry hd he)), ih⟩
  | stop hd _ _ he _ => simpa using .inr (.inr (hentry hd he))
  | jump hd _ _ he _ _ _ ih =>
    refine List.forall_mem_cons.2 ⟨.inr (.inr (hentry hd he)), fun name hm => ih name ?_⟩
    exact List.mem_append_right _ hm

theorem locate_eq_ok {p : Path} (h : root.locate follow p = .ok there) :
    ∃ links ≤ linkLimit, Leads root follow links [] (components p) there := by
  rw [locate] at h
  split at h
  · cases h
  · exact walk_eq_ok_iff.1 h

end Lookups

end Dotfiles.FileTree
