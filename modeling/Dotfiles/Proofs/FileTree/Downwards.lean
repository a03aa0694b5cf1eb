import Dotfiles.Proofs.FileTree.Leading
import Dotfiles.Proofs.FileTree.Seeking
import Dotfiles.Proofs.Path.Rootedness
import Dotfiles.Proofs.Profile.Confinement

/-!
Looking up what is joined. A name that is joined to the path of a directory is looked up right
below that directory, by whatever links the directory itself was found, as long as joining takes
nothing away: the path is made of ordinary names and does not begin with two dots at the root.
-/

namespace Dotfiles

open Dotfiles.Path

section Sources

/-- A path below which names are looked up where they are joined: of ordinary names only, and if
it begins at the root then with a name that does not begin with two dots. -/
inductive Path.IsDownward : Path → Prop
  | rooted {p : Path} (hr : isRooted p = true) (hne : components p ≠ [])
      (hn : ∀ name ∈ components p, IsOrdinary name) (hg : IsGrounded (components p)) : IsDownward p
  | relative {p : Path} (hp : IsOrdinaryPath p) : IsDownward p

variable {p root path : Path} {name : Name}

theorem Path.IsDownward.ordinary (h : IsDownward p) : ∀ name ∈ components p, IsOrdinary name := by
  cases h with
  | rooted _ _ hn _ => exact hn
  | relative hp =>
    obtain ⟨names, hn, rfl⟩ := hp
    rwa [components_ofSegments_ordinary hn]

/-- A name that is joined becomes the last component. -/
theorem Path.IsDownward.join_name (h : IsDownward p) (hp : ∀ name ∈ components p, IsPlain name)
    (hname : IsPlain name) :
    IsDownward (join [p, name]) ∧ components (join [p, name]) = components p ++ [name] := by
  have hlast : ∀ n ∈ [name], IsPlain n := by simpa using hname
  have hall := isPlain_append hp hlast
  cases h with
  | rooted hr hne hn hg =>
    have hsingle : ofSegments [name] = name := rfl
    have hjoin := join_root ⟨hr, hne, hp, hg⟩ hlast
    have hc := components_rooted hall
    rw [hsingle] at hjoin
    rw [hjoin]
    refine ⟨.rooted (isRooted_rooted _) (by simp [hc]) ?_ ?_, hc⟩
    · rw [hc]
      exact fun n hm => (hall n hm).isOrdinary
    · rw [hc]
      exact isGrounded_append hne hg
  | relative hordinary =>
    obtain ⟨names, hn, rfl⟩ := hordinary
    rw [components_ofSegments_ordinary hn] at hp hall ⊢
    rw [join_ofSegments_name hp hname]
    exact ⟨.relative ⟨_, fun n hm => (hall n hm).isOrdinary, rfl⟩, components_ofSegments_plain hall⟩

/-- Nothing is left of what stands in front of a part that takes the root. -/
theorem Path.join_pair_of_takesRoot (h : TakesRoot path) : join [p, path] = join [path] := by
  obtain ⟨rest, hclean⟩ := exists_clean_of_takesRoot h
  have happend : ∀ before, append before path = clean path := by
    intro before
    have hnil : path ≠ [] := by
      rintro rfl
      cases h.1
    simp [append, hnil, hclean, isRooted]
  simp only [join, List.foldl_cons, List.foldl_nil, happend]

/-- The paths of a profile lead downwards from a root of ordinary names. -/
theorem Path.isDownward_join (hr : isRooted root = true) (hne : components root ≠ [])
    (hn : ∀ name ∈ components root, IsOrdinary name) (hg : IsGrounded (components root))
    (hpath : IsOrdinaryPath path) : IsDownward (join [root, path]) := by
  obtain ⟨names, hnames, rfl⟩ := hpath
  by_cases hline : components root = [['.', '\n']]
  · have hfeed : ∀ name ∈ [['\n']], IsOrdinary name := by simpa using isOrdinary_lineFeed
    -- such a root is taken for the line feed alone
    have hroot : append [] root = append [] ['\n'] := by
      have hnil : root ≠ [] := by
        rintro rfl
        cases hr
      simp [append, hnil, clean_loneDotLine hr hline]
      rfl
    have hjoin : join [root, ofSegments names] = ofSegments (joined [['\n']] names) := by
      rw [← join_ofSegments_ordinary hfeed hnames]
      simp only [join, List.foldl_cons, hroot]
      rfl
    exact .relative ⟨_, forall_joined hfeed hnames, hjoin⟩
  · have hjoined := forall_joined hn hnames
    have hc := components_rooted_ordinary hjoined
    have hall := forall_mem_append_ordinary (forall_dropFinalDot hn) (forall_dropFinalDot hnames)
    rw [join_of_isRooted hr hne hn hg hline hnames]
    refine .rooted (isRooted_rooted _) ?_ ?_ ?_
    · rw [hc]
      have hsome : dropFinalDot (components root) ++ dropFinalDot names ≠ [] := by
        simp [dropFinalDot_ne_nil hn hne]
      exact cancel_ne_nil (forall_dropFinalDot hall) (dropFinalDot_ne_nil hall hsome)
    · rwa [hc]
    · rw [hc]
      have hstart := (hg.dropFinalDot hn).append (dropFinalDot_ne_nil hn hne) (dropFinalDot names)
      exact (hstart.dropFinalDot hall).cancel (forall_dropFinalDot hall)

end Sources

namespace FileTree

variable {root : FileTree} {follow : Bool} {links : Nat} {here there : Location}
  {names : List Name} {name : Name} {entries : List (Name × FileTree)} {p : Path}

section Ways

/-- A way that does not end at a link is the same if links at the end are followed. -/
theorem Leads.followed (h : Leads root false links here names there)
    (hd : root.at? there = some (.dir entries)) : Leads root true links here names there := by
  induction h with
  | done here => exact .done here
  | dot hd' _ ih => exact .dot hd' (ih hd)
  | up hd' _ ih => exact .up hd' (ih hd)
  | down hd' hdot hdots he hk _ ih => exact .down hd' hdot hdots he hk (ih hd)
  | stop hd' _ _ he _ =>
    rw [at?_concat hd', he] at hd
    cases hd
  | jump hd' hdot hdots he _ hne _ ih => exact .jump hd' hdot hdots he (.inr rfl) hne (ih hd)

/-- With one more name a way leads right below the place where it led. -/
theorem Leads.eq_concat {first : Nat} (h : Leads root true first [] names here)
    (h' : Leads root false links [] (names ++ [name]) there) (hdot : name ≠ ['.'])
    (hdots : name ≠ ['.', '.']) : there = here ++ [name] := by
  obtain ⟨_, _, mid, _, hmid, hlast⟩ := h'.exists_mid (by simp)
  obtain ⟨_, rfl⟩ := h.unique hmid
  cases hlast with
  | dot _ _ => exact absurd rfl hdot
  | up _ _ => exact absurd rfl hdots
  | down _ _ _ _ _ hdone =>
    cases hdone
    rfl
  | stop _ _ _ _ _ => rfl
  | jump _ _ _ _ hf _ _ =>
    rcases hf with hf | hf
    · exact absurd rfl hf
    · cases hf

theorem locate_followed (h : root.locate false p = .ok here)
    (hd : root.at? here = some (.dir entries)) : root.locate true p = .ok here := by
  obtain ⟨links, hle, hway⟩ := locate_eq_ok h
  rw [locate] at h ⊢
  split at h
  · cases h
  · rename_i hne
    rw [if_neg hne]
    exact walk_eq_ok_iff.2 ⟨links, hle, hway.followed hd⟩

end Ways

section Below

/-- The components of a path that is found are plain, if the names of the tree are. -/
theorem plain_of_locate (hplain : ∀ name ∈ root.names, IsPlain name) (hp : IsDownward p)
    (h : root.locate follow p = .ok here) : ∀ name ∈ components p, IsPlain name := by
  obtain ⟨_, _, hway⟩ := locate_eq_ok h
  intro name hname
  have hordinary := hp.ordinary name hname
  rcases hway.mem_names name hname with rfl | rfl | hm
  · exact absurd rfl hordinary.ne_dot
  · exact absurd rfl hordinary.ne_dots
  · exact hplain name hm

/-- What is joined to a directory is found right below it, if at all. -/
theorem locate_join_name (hplain : ∀ name ∈ root.names, IsPlain name) (hp : IsDownward p)
    (h : root.locate true p = .ok here) (hd : root.at? here = some (.dir entries))
    (hname : name ∈ namesOf entries) : IsDownward (join [p, name]) ∧
      ∀ there, root.locate false (join [p, name]) = .ok there → there = here ++ [name] := by
  have hlisted : name ∈ root.names := by
    obtain ⟨e, he, rfl⟩ := List.mem_map.1 (mem_namesOf_iff.1 hname)
    exact names_at? hd _ (mem_namesBelow_of_mem he).1
  have hlast := hplain name hlisted
  obtain ⟨hdown, hc⟩ := hp.join_name (plain_of_locate hplain hp h) hlast
  refine ⟨hdown, fun there hthere => ?_⟩
  obtain ⟨_, _, hway⟩ := locate_eq_ok h
  obtain ⟨_, _, hway'⟩ := locate_eq_ok hthere
  rw [hc] at hway'
  exact hway.eq_concat hway' hlast.ne_dot hlast.ne_dots

end Below

section Destinations

mutual

/-- The destinations of all links in a tree. -/
def destinations : FileTree → List Path
  | .file _ => []
  | .link destination => [destination]
  | .dir entries => destinationsIn entries

/-- The destinations of all links at and below the given entries. -/
def destinationsIn : List (Name × FileTree) → List Path
  | [] => []
  | (_, node) :: rest => destinations node ++ destinationsIn rest

end

theorem mem_destinationsIn_of_entryOf {node : FileTree} {destination : Path}
    (h : entryOf name entries = some node) (hm : destination ∈ node.destinations) :
    destination ∈ destinationsIn entries := by
  induction entries with
  | nil => cases h
  | cons e rest ih =>
    rw [destinationsIn, List.mem_append]
    rw [entryOf] at h
    split at h
    · cases h
      exact .inl hm
    · exact .inr (ih h)

theorem mem_destinations_of_at? {destination : Path}
    (h : root.at? here = some (.link destination)) : destination ∈ root.destinations := by
  induction here generalizing root with
  | nil =>
    cases h
    simp [destinations]
  | cons name rest ih =>
    rw [at?, Option.bind_eq_some_iff] at h
    obtain ⟨child, hchild, h⟩ := h
    cases root with
    | dir entries => exact mem_destinationsIn_of_entryOf hchild (ih h)
    | file _ => cases hchild
    | link _ => cases hchild

end Destinations

end FileTree

namespace FileSystem

variable {fs : FileSystem} {p : Path} {listed : List Name}

/-- No link has a directory one hop away. -/
def NoLinkToDir (fs : FileSystem) : Prop :=
  ∀ link destination, fs.inspect link = .ok .link → fs.readLink link = .ok destination →
    fs.inspect (join [parent link, destination]) ≠ .ok .dir

/-- It is enough to look at the destinations themselves if all of them begin at the root. -/
theorem noLinkToDir_of_takesRoot (h : ∀ destination ∈ fs.root.destinations,
    TakesRoot destination ∧ fs.inspect (join [destination]) ≠ .ok .dir) : fs.NoLinkToDir := by
  intro link destination _ hread
  obtain ⟨_, _, hat⟩ := FileTree.find_eq_ok_iff.1 (readLink_eq_ok_iff.1 hread).2
  obtain ⟨hroot, hdir⟩ := h _ (FileTree.mem_destinations_of_at? hat)
  rwa [join_pair_of_takesRoot hroot]

theorem exists_dir_of_inspect (h : fs.inspect p = .ok .dir) : ∃ here entries,
    fs.root.locate false p = .ok here ∧ fs.root.at? here = some (.dir entries) := by
  obtain ⟨_, node, hfind, hkind⟩ := inspect_eq_ok_iff.1 h
  obtain ⟨here, hlocate, hat⟩ := FileTree.find_eq_ok_iff.1 hfind
  cases node with
  | dir entries => exact ⟨here, entries, hlocate, hat⟩
  | file _ => cases hkind
  | link _ => cases hkind

theorem exists_dir_of_list (h : fs.list p = .ok listed) : ∃ here entries,
    fs.root.locate true p = .ok here ∧ fs.root.at? here = some (.dir entries) ∧
      listed = FileTree.namesOf entries := by
  obtain ⟨_, entries, hfind, rfl⟩ := list_eq_ok_iff.1 h
  obtain ⟨here, hlocate, hat⟩ := FileTree.find_eq_ok_iff.1 hfind
  exact ⟨here, entries, hlocate, hat, rfl⟩

end FileSystem

end Dotfiles
