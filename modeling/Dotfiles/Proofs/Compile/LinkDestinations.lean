import Dotfiles.Proofs.Compile.Walk
import Dotfiles.Proofs.FileTree.Leading
import Dotfiles.Proofs.FileTree.Seeking
import Dotfiles.Proofs.Path.Climbing

/-!
What a link points to. The destination of a link is joined to the path of its directory by names
alone, where a lookup would go from directory to directory. Both come to the same place as long as
two dots never lead out of anything but a directory: not out of a link to one, which they would
leave for the directory above its destination.
-/

namespace Dotfiles

open Dotfiles.Path

namespace FileTree

variable {root : FileTree} {links first : Nat} {here there mid : Location}
  {place names rest : List Name} {name : Name} {entries : List (Name × FileTree)}

section Climbing

/-- Whether names lead to a directory without a link at their end. -/
def LeadsToDir (root : FileTree) (names : List Name) : Prop :=
  ∃ links here entries, Leads root false links [] names here ∧ root.at? here = some (.dir entries)

/-- The last name is that of a node where it leads to, whatever the node is. -/
theorem Leads.of_plain_last (hn : IsPlain name) (h : Leads root false links here [name] there) :
    links = 0 ∧ there = here ++ [name] := by
  cases h with
  | dot => exact absurd rfl hn.ne_dot
  | up => exact absurd rfl hn.ne_dots
  | down _ _ _ _ _ h =>
    cases h
    exact ⟨rfl, rfl⟩
  | stop => exact ⟨rfl, rfl⟩
  | jump _ _ _ _ hf => simp at hf

/-- A way that does not end at a link crosses all links. -/
theorem Leads.follow (h : Leads root false links here names there)
    (hk : ∀ destination, root.at? there ≠ some (.link destination)) :
    Leads root true links here names there := by
  induction h with
  | done here => exact .done here
  | dot hd _ ih => exact .dot hd (ih hk)
  | up hd _ ih => exact .up hd (ih hk)
  | down hd hdot hdots he hnode _ ih => exact .down hd hdot hdots he hnode (ih hk)
  | stop hd _ _ he _ => exact absurd ((at?_concat hd _).trans he) (hk _)
  | jump hd hdot hdots he _ hne _ ih => exact .jump hd hdot hdots he (.inr rfl) hne (ih hk)

/-- The way along further names goes on where the first ones have led to. -/
theorem leads_append_iff {a : List Name} (h : Leads root true first here a mid)
    (hend : rest ≠ [] ∨ Leads root false first here a mid) :
    Leads root false links here (a ++ rest) there ↔
      ∃ second, links = first + second ∧ Leads root false second mid rest there := by
  constructor
  · intro hway
    by_cases hne : rest = []
    · subst hne
      rw [List.append_nil] at hway
      obtain ⟨rfl, rfl⟩ := hway.unique (hend.resolve_left (by simp))
      exact ⟨0, rfl, .done _⟩
    · obtain ⟨first', second, mid', rfl, h', hway⟩ := hway.exists_mid hne
      obtain ⟨rfl, rfl⟩ := h.unique h'
      exact ⟨second, rfl, hway⟩
  · rintro ⟨second, rfl, hway⟩
    by_cases hne : rest = []
    · subst hne
      cases hway
      rw [List.append_nil]
      exact hend.resolve_left (by simp)
    · exact h.append hne hway

/-- A single dot with something behind it changes nothing. -/
theorem leads_dot_iff (hne : rest ≠ []) :
    Leads root false links here (place ++ ['.'] :: rest) there ↔
      Leads root false links here (place ++ rest) there := by
  constructor
  · intro h
    obtain ⟨first, second, mid, rfl, hplace, hway⟩ := h.exists_mid (by simp)
    cases hway with
    | dot _ hway => exact hplace.append hne hway
    | down _ hdot => exact absurd rfl hdot
    | stop _ hdot => exact absurd rfl hdot
    | jump _ hdot => exact absurd rfl hdot
  · intro h
    obtain ⟨first, second, mid, rfl, hplace, hway⟩ := h.exists_mid hne
    obtain ⟨next, more, rfl⟩ := List.exists_cons_of_ne_nil hne
    obtain ⟨entries, hd⟩ := hway.exists_dir
    exact hplace.append (by simp) (.dot hd hway)

/-- Two dots behind the name of a directory lead back. -/
theorem leads_back_iff (hn : IsPlain name) (hdir : LeadsToDir root (place ++ [name]))
    (hend : rest ≠ [] ∨ LeadsToDir root place) :
    Leads root false links [] (place ++ name :: ['.', '.'] :: rest) there ↔
      Leads root false links [] (place ++ rest) there := by
  obtain ⟨_, here, entries, hway, hat⟩ := hdir
  obtain ⟨first, second, mid, rfl, h, hlast⟩ := hway.exists_mid (by simp)
  obtain ⟨rfl, rfl⟩ := hlast.of_plain_last hn
  obtain ⟨above, hd⟩ := hlast.exists_dir
  have hentry := (at?_concat hd name).symm.trans hat
  have hend' : rest ≠ [] ∨ Leads root false first [] place mid := by
    refine hend.imp_right ?_
    rintro ⟨links, there, entries, hplace, hthere⟩
    have hfollow := hplace.follow fun destination => by simp [hthere]
    obtain ⟨rfl, rfl⟩ := h.unique hfollow
    exact hplace
  have hback : ∀ second, Leads root false second mid (name :: ['.', '.'] :: rest) there ↔
      Leads root false second mid rest there := by
    intro second
    constructor
    · intro hway
      cases hway with
      | dot => exact absurd rfl hn.ne_dot
      | up => exact absurd rfl hn.ne_dots
      | down _ _ _ _ _ hway =>
        cases hway with
        | up _ hway => rwa [List.dropLast_concat] at hway
        | down _ _ hdots => exact absurd rfl hdots
        | stop _ _ hdots => exact absurd rfl hdots
        | jump _ _ hdots => exact absurd rfl hdots
      | jump hd' _ _ he =>
        cases hd.symm.trans hd'
        cases hentry.symm.trans he
    · intro hway
      refine .down hd hn.ne_dot hn.ne_dots hentry (by simp [kind]) (.up hat ?_)
      rwa [List.dropLast_concat]
  rw [leads_append_iff h (.inl (by simp)), leads_append_iff h hend']
  simp only [hback]

/-- Two dots at the root lead nowhere. -/
theorem leads_root_iff (hroot : root.at? [] = some (.dir entries)) :
    Leads root false links [] (['.', '.'] :: rest) there ↔
      Leads root false links [] rest there := by
  constructor
  · intro h
    cases h with
    | up _ h => exact h
    | down _ _ hdots => exact absurd rfl hdots
    | stop _ _ hdots => exact absurd rfl hdots
    | jump _ _ hdots => exact absurd rfl hdots
  · exact .up hroot

/-- Whether a directory is at a place, and not a link to one. -/
def holdsDir (root : FileTree) (place : List Name) : Bool :=
  match root.find false (rooted place) with
  | .ok (.dir _) => true
  | _ => false

/-- Whether steps from a place lead upwards out of directories only, and into one at their end. -/
def climbsSafely (root : FileTree) : List Name → List Name → Bool
  | _, [] => true
  | place, name :: rest =>
    if name = ['.'] then climbsSafely root place rest
    else if name = ['.', '.'] then
      root.holdsDir place && (!rest.isEmpty || root.holdsDir place.dropLast) &&
        climbsSafely root place.dropLast rest
    else climbsSafely root (place ++ [name]) rest

theorem locate_rooted_eq_ok_iff (hn : ∀ n ∈ place, IsPlain n) :
    root.locate false (rooted place) = .ok there ↔
      ∃ links ≤ linkLimit, Leads root false links [] place there := by
  rw [locate, if_neg (by simp [rooted]), components_rooted hn, walk_eq_ok_iff]

theorem leadsToDir_of_holdsDir (hn : ∀ n ∈ place, IsPlain n) (h : root.holdsDir place = true) :
    LeadsToDir root place := by
  unfold holdsDir at h
  split at h
  · rename_i entries hfind
    obtain ⟨here, hlocate, hat⟩ := find_eq_ok_iff.1 hfind
    obtain ⟨links, _, hway⟩ := (locate_rooted_eq_ok_iff hn).1 hlocate
    exact ⟨links, here, entries, hway, hat⟩
  · cases h

/-- Safe steps lead where their names lead from the place by themselves. -/
theorem leads_ledFrom_iff (hroot : root.at? [] = some (.dir entries))
    (hplace : ∀ n ∈ place, IsPlain n) (hs : ∀ name ∈ names, name = ['.'] ∨ IsStep name)
    (he : EndsPlainly names) (hsafe : root.climbsSafely place names = true) :
    Leads root false links [] (place ++ names) there ↔
      Leads root false links [] (ledFrom place names) there := by
  induction names generalizing place with
  | nil => rw [List.append_nil, ledFrom_nil]
  | cons name rest ih =>
    obtain ⟨hname, hrest⟩ := List.forall_mem_cons.1 hs
    rw [climbsSafely] at hsafe
    rcases hname with rfl | rfl | hplain
    · have hne : rest ≠ [] := by
        rintro rfl
        exact (he ['.'] rfl).1 rfl
      rw [if_pos rfl] at hsafe
      rw [leads_dot_iff hne, ledFrom_dot]
      exact ih hplace hrest he.of_cons hsafe
    · rw [if_neg (by simp), if_pos rfl] at hsafe
      simp only [Bool.and_eq_true, Bool.or_eq_true, Bool.not_eq_true'] at hsafe
      obtain ⟨⟨hdir, hend⟩, hsafe⟩ := hsafe
      have habove : ∀ n ∈ place.dropLast, IsPlain n :=
        fun n hm => hplace n (List.dropLast_subset _ hm)
      rw [ledFrom_dots, ← ih habove hrest he.of_cons hsafe]
      rcases List.eq_nil_or_concat place with rfl | ⟨above, last, rfl⟩
      · -- the system stays at the root, and so do the names
        exact leads_root_iff hroot
      · rw [List.concat_eq_append] at *
        rw [List.dropLast_concat] at *
        rw [List.append_assoc]
        refine leads_back_iff (hplace last (by simp)) (leadsToDir_of_holdsDir hplace hdir)
          (hend.imp ?_ (leadsToDir_of_holdsDir habove))
        rintro h rfl
        cases h
    · rw [if_neg hplain.ne_dot, if_neg hplain.ne_dots] at hsafe
      rw [ledFrom_plain place hplain, ← ih (isPlain_append hplace (by simpa using hplain)) hrest
        he.of_cons hsafe, List.append_assoc]
      rfl

end Climbing

section Destinations

/-- Where a link leads by itself that a directory holds. Its destination is followed from there,
and a link at the end of it is not. As in every lookup only the names count: a slash behind the
last one neither asks for a directory nor makes a link be followed. -/
def destinationOf (root : FileTree) (dir : Location) (destination : Path) :
    Except Errno Location :=
  root.walk false linkLimit (startOf dir destination) (components destination)

/-- Whether the destination of a link in a directory can be joined to the path of the directory.
No dot is at its end, no dots begin a name right below the root, and it climbs safely. Joining drops
a slash at its end, which a lookup passes over. -/
structure CanBeJoined (root : FileTree) (place : List Name) (destination : Path) : Prop where
  steps : ∀ name ∈ components destination, name = ['.'] ∨ IsStep name
  notDot : (components destination).getLast? ≠ some ['.']
  grounded : IsGroundedAlong (startOf place destination) (components destination)
  climbs : root.climbsSafely (startOf place destination) (components destination) = true

variable {p destination : Path}

theorem CanBeJoined.endsPlainly (h : CanBeJoined root place destination) :
    EndsPlainly (components destination) := by
  intro last hlast
  have hdot : last ≠ ['.'] := by
    rintro rfl
    exact h.notDot hlast
  have hstep := (h.steps last (List.mem_of_getLast? hlast)).resolve_left hdot
  exact ⟨hdot, fun hline => hstep.not_dotLine (.inl hline)⟩

/-- The path of a link leads from the root to the directory that holds the link. -/
theorem exists_leads_of_link (hp : IsPlainRoot p) (h : root.locate false p = .ok here) :
    (∃ entries, root.at? [] = some (.dir entries)) ∧
      ∃ links, Leads root true links [] (components p).dropLast here.dropLast := by
  have hne : p ≠ [] := by
    rintro rfl
    exact hp.ne_nil rfl
  rw [locate, if_neg (by simpa using hne)] at h
  obtain ⟨_, _, hway⟩ := walk_eq_ok_iff.1 h
  obtain ⟨first, rest, hfirst⟩ := List.exists_cons_of_ne_nil hp.ne_nil
  refine ⟨(hfirst ▸ hway).exists_dir, ?_⟩
  obtain ⟨place, last, hcomponents⟩ :=
    (List.eq_nil_or_concat (components p)).resolve_left hp.ne_nil
  rw [List.concat_eq_append] at hcomponents
  rw [hcomponents] at hway ⊢
  obtain ⟨links, _, mid, _, hplace, hlast⟩ := hway.exists_mid (by simp)
  obtain ⟨_, rfl⟩ := hlast.of_plain_last (hp.plain last (by simp [hcomponents]))
  rw [List.dropLast_concat, List.dropLast_concat]
  exact ⟨links, hplace⟩

/-- The way along a destination from the root goes through the directory that holds the link. -/
theorem leads_destination_iff (hne : destination ≠ [])
    (hway : Leads root true first [] place mid) :
    ∃ crossed, ∀ {links : Nat} {there : Location},
      Leads root false links [] (startOf place destination ++ components destination) there ↔
        ∃ more, links = crossed + more ∧
          Leads root false more (startOf mid destination) (components destination) there := by
  unfold startOf
  cases hr : isRooted destination with
  | true => exact ⟨0, leads_append_iff (.done []) (.inr (.done []))⟩
  | false => exact ⟨first, leads_append_iff hway (.inl (squeeze_segments hr hne).2)⟩

/-- A destination that is joined to the path of the directory is found where the link leads. -/
theorem locate_join_iff (hp : IsPlainRoot p) (hhere : root.locate false p = .ok here)
    (hne : destination ≠ []) (hx : CanBeJoined root (components p).dropLast destination)
    (hloop : root.locate false (join [parent p, destination]) ≠ .error .linkLoop) :
    root.locate false (join [parent p, destination]) = .ok there ↔
      root.destinationOf here.dropLast destination = .ok there := by
  obtain ⟨⟨entries, hroot⟩, links, hway⟩ := exists_leads_of_link hp hhere
  obtain ⟨crossed, hthrough⟩ := leads_destination_iff hne hway
  have hplain : ∀ n ∈ (components p).dropLast, IsPlain n :=
    fun n hm => hp.plain n (List.dropLast_subset _ hm)
  have hstart := isPlain_startOf hplain destination
  have hparent : parent p = rooted (components p).dropLast := if_pos hp.isRooted
  have hled : ∀ {links : Nat} {there : Location},
      Leads root false links []
          (ledFrom (startOf (components p).dropLast destination) (components destination)) there ↔
        ∃ more, links = crossed + more ∧ Leads root false more
          (startOf here.dropLast destination) (components destination) there :=
    (leads_ledFrom_iff hroot hstart hx.steps hx.endsPlainly hx.climbs).symm.trans hthrough
  rw [hparent, join_steps hplain hp.grounded.dropLast hne hx.steps hx.endsPlainly hx.grounded]
    at hloop ⊢
  have hplaces := isPlain_ledFrom hstart hx.steps
  rw [locate_rooted_eq_ok_iff hplaces, destinationOf, walk_eq_ok_iff]
  constructor
  · rintro ⟨links, hle, h⟩
    obtain ⟨more, rfl, hmore⟩ := hled.1 h
    exact ⟨more, by omega, hmore⟩
  · rintro ⟨more, hle, h⟩
    have hall := hled.2 ⟨more, rfl, h⟩
    refine ⟨crossed + more, ?_, hall⟩
    -- a link too many on the way from the root is what the last hypothesis is about
    by_contra hover
    rw [locate, if_neg (by simp [rooted]), components_rooted hplaces, hall.walk_eq, if_neg hover]
      at hloop
    exact hloop rfl

end Destinations

end FileTree

namespace FileSystem

variable {fs : FileSystem} {p destination : Path}

theorem inspect_eq_ok_iff_located (hfaults : fs.faults = []) {kind : NodeKind} :
    fs.inspect p = .ok kind ↔ ∃ here node, fs.root.locate false p = .ok here ∧
      fs.root.at? here = some node ∧ node.kind = kind := by
  rw [inspect_eq_ok_iff, and_iff_right (check_eq_ok hfaults _ _)]
  constructor
  · rintro ⟨node, hfind, hkind⟩
    obtain ⟨here, hlocate, hat⟩ := FileTree.find_eq_ok_iff.1 hfind
    exact ⟨here, node, hlocate, hat, hkind⟩
  · rintro ⟨here, node, hlocate, hat, hkind⟩
    exact ⟨node, FileTree.find_eq_ok_iff.2 ⟨here, hlocate, hat⟩, hkind⟩

/-- What can be read as a link is one. -/
theorem inspect_of_readLink (hfaults : fs.faults = []) (h : fs.readLink p = .ok destination) :
    fs.inspect p = .ok .link :=
  inspect_eq_ok_iff.2 ⟨check_eq_ok hfaults _ _, _, (readLink_eq_ok_iff.1 h).2, rfl⟩

end FileSystem

namespace Expansion

variable {fs : FileSystem} {p destination leaf : Path} {kind : NodeKind}

theorem oneHop_of_readLink (hfaults : fs.faults = []) (h : fs.readLink p = .ok destination) :
    (oneHop fs p).outcome = .ok (leaf, kind) ↔
      leaf = join [parent p, destination] ∧ fs.inspect leaf = .ok kind := by
  have hlink := FileSystem.inspect_of_readLink hfaults h
  rw [oneHop_eq_ok_iff]
  constructor
  · intro hs
    cases hs with
    | self hk hne =>
      cases hlink.symm.trans hk
      exact absurd rfl hne
    | hop _ hd hk =>
      cases h.symm.trans hd
      exact ⟨rfl, hk⟩
  · rintro ⟨rfl, hk⟩
    exact .hop hlink h hk

/-- A link is replaced by a path that names the node it leads to: a lookup of the path goes where
the system goes from the directory that holds the link, and fails if the system does. -/
theorem oneHop_link_iff {here : Location} (hfaults : fs.faults = []) (hp : IsPlainRoot p)
    (hhere : fs.root.locate false p = .ok here) (hl : fs.readLink p = .ok destination)
    (hne : destination ≠ [])
    (hx : fs.root.CanBeJoined (components p).dropLast destination)
    (hloop : fs.root.locate false (join [parent p, destination]) ≠ .error .linkLoop) :
    (∀ there, fs.root.locate false (join [parent p, destination]) = .ok there ↔
      fs.root.destinationOf here.dropLast destination = .ok there) ∧
    ∀ leaf kind, (oneHop fs p).outcome = .ok (leaf, kind) ↔
      leaf = join [parent p, destination] ∧ ∃ there node,
        fs.root.destinationOf here.dropLast destination = .ok there ∧
        fs.root.at? there = some node ∧ node.kind = kind := by
  have hjoin : ∀ there, fs.root.locate false (join [parent p, destination]) = .ok there ↔
      fs.root.destinationOf here.dropLast destination = .ok there :=
    fun _ => FileTree.locate_join_iff hp hhere hne hx hloop
  refine ⟨hjoin, fun leaf kind => ?_⟩
  rw [oneHop_of_readLink hfaults hl]
  refine and_congr_right ?_
  rintro rfl
  simp only [FileSystem.inspect_eq_ok_iff_located hfaults, hjoin]

/-- A directory that is linked to from above, and a link in it whose destination climbs. -/
def linkedTree (destination : Text) : FileSystem :=
  ⟨.dir [("s".toList, .dir [("f".toList, .file (.bytes [])), ("d".toList, .link "real/sub".toList),
    ("real".toList, .dir [("f".toList, .file (.bytes [])), ("sub".toList, .dir [
      ("own".toList, .dir []), ("f".toList, .file (.bytes [])),
      ("l".toList, .link destination)])])])], []⟩

/-- Out of a directory that is no link the destination may climb, on either way to the link. -/
theorem oneHop_link_iff_own :
    (oneHop (linkedTree "own/../f".toList) "/s/d/l".toList).outcome =
      .ok ("/s/d/f".toList, .file) := by
  have hp : IsPlainRoot "/s/d/l".toList := ⟨rfl, by decide, by decide, by decide⟩
  have hhere : (linkedTree "own/../f".toList).root.locate false "/s/d/l".toList =
      .ok ["s".toList, "real".toList, "sub".toList, "l".toList] := by decide +kernel
  have hl : (linkedTree "own/../f".toList).readLink "/s/d/l".toList =
      .ok "own/../f".toList := by decide +kernel
  have hx : (linkedTree "own/../f".toList).root.CanBeJoined ["s".toList, "d".toList]
      "own/../f".toList := ⟨by decide, by decide, by decide, by decide +kernel⟩
  have hmain := oneHop_link_iff rfl hp hhere hl (by decide) hx (by decide +kernel)
  exact (hmain.2 _ _).2 ⟨by decide +kernel, ["s".toList, "real".toList, "sub".toList, "f".toList],
    .file (.bytes []), by decide +kernel, rfl, rfl⟩

/-- Out of a directory that is a link the destination climbs to another place by its names than
from the directory itself: the path that is recorded names another file. -/
theorem oneHop_climbs_from_link : ∃ here recorded meant,
    (linkedTree "../f".toList).root.locate false "/s/d/l".toList = .ok here ∧
    (oneHop (linkedTree "../f".toList) "/s/d/l".toList).outcome = .ok ("/s/f".toList, .file) ∧
    (linkedTree "../f".toList).root.locate false "/s/f".toList = .ok recorded ∧
    (linkedTree "../f".toList).root.destinationOf here.dropLast "../f".toList = .ok meant ∧
    recorded ≠ meant := by
  refine ⟨["s".toList, "real".toList, "sub".toList, "l".toList], ["s".toList, "f".toList],
    ["s".toList, "real".toList, "f".toList], by decide +kernel, ?_, by decide +kernel,
    by decide +kernel, by decide⟩
  have hl : (linkedTree "../f".toList).readLink "/s/d/l".toList = .ok "../f".toList := by
    decide +kernel
  exact (oneHop_of_readLink rfl hl).2 ⟨by decide +kernel, by decide +kernel⟩

end Expansion

end Dotfiles
