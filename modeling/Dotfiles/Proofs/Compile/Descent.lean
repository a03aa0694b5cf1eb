import Dotfiles.Proofs.Compile.BadIgnoreLists
import Dotfiles.Proofs.Compile.WithoutLinks
import Dotfiles.Proofs.FileTree.Downwards
import Mathlib.Data.List.Nodup

/-!
Where no link stands for a directory, the walk of an entry goes down the tree: what is visited for a
name of a directory is right below it. So a walk goes no deeper than the tree is high, and it lists
no directory twice.
-/

namespace Dotfiles

open Dotfiles.Path

/-- The directory that an event is a listing of. -/
def Event.listed? : Event → Option Path
  | .fileCall .list p => some p
  | _ => none

/-- The directories that a computation comes to list. -/
def Traced.listed {α : Type} (x : Traced α) : List Path := x.events.filterMap Event.listed?

theorem Traced.listed_bind {α β : Type} (x : Traced α) (f : α → Traced β) :
    (x >>= f).listed = x.listed ++
      match x.outcome with
      | .ok a => (f a).listed
      | .error _ => [] := by
  cases hx : x.outcome with
  | ok a => rw [listed, events_bind_of_ok hx, List.filterMap_append]; rfl
  | error e => rw [listed, events_bind_of_error hx, List.append_nil]; rfl

theorem Traced.listed_bind_eq_nil {α β : Type} {x : Traced α} {f : α → Traced β}
    (h : x.listed = []) (hf : ∀ a, (f a).listed = []) : (x >>= f).listed = [] := by
  rw [listed_bind, h]
  cases x.outcome with
  | ok a => exact hf a
  | error e => rfl

theorem Traced.bind_congr_ok {α β : Type} {x : Traced α} {f g : α → Traced β}
    (h : ∀ a, x.outcome = .ok a → f a = g a) : x >>= f = x >>= g := by
  show (match x.outcome with
    | .ok a => (⟨x.events ++ (f a).events, (f a).outcome⟩ : Traced β)
    | .error e => ⟨x.events, .error e⟩) = _
  cases hx : x.outcome with
  | error e => simp only [bind, hx]
  | ok a => simp only [bind, hx, h a hx]

namespace Expansion

open FileTree

variable {fs : FileSystem} {entry : Entry} {depth : Nat} {target source dir : Path}
  {table : Table}

section Levels

theorem visitNames_congr {visit visit' : Path → Path → Table → Traced Table} {matcher : Matcher}
    {names : List Name} (h : ∀ name ∈ names, matcher.isMatch name = false → ∀ target table,
      visit target (join [source, name]) table = visit' target (join [source, name]) table) :
    visitNames visit matcher target source names table =
      visitNames visit' matcher target source names table := by
  induction names generalizing table with
  | nil => rfl
  | cons name rest ih =>
    have hrest : ∀ table, visitNames visit matcher target source rest table =
        visitNames visit' matcher target source rest table :=
      fun _ => ih fun n hm => h n (List.mem_cons_of_mem _ hm)
    rw [visitNames, visitNames]
    cases hi : matcher.isMatch name with
    | true => simp only [if_true, hrest]
    | false =>
      simp only [Bool.false_eq_true, if_false]
      refine Traced.bind_congr_ok fun nextTarget _ => Traced.bind_congr_ok fun nextSource hs => ?_
      cases hs
      rw [h name (by simp) hi]
      exact Traced.bind_congr_ok fun table _ => hrest table

/-- Where an expansion ends, more levels change nothing. -/
theorem EndsWithin.visit_eq {levels : Nat} (h : EndsWithin fs entry levels source)
    (hle : levels ≤ depth) (target : Path) (table : Table) :
    visit fs entry depth target source table = visit fs entry levels target source table := by
  induction levels generalizing depth target source table with
  | zero => exact h.elim
  | succ levels ih =>
    obtain ⟨depth, rfl⟩ := Nat.exists_eq_add_of_le' hle
    rw [← Nat.add_assoc] at *
    rw [visit, visit]
    cases table.holds target with
    | true => rfl
    | false =>
      simp only [Bool.false_eq_true, if_false]
      refine Traced.bind_congr_ok fun found hhop => ?_
      obtain ⟨leaf, kind⟩ := found
      have hs := oneHop_eq_ok_iff.1 hhop
      simp only
      split
      · rename_i hx
        refine Traced.bind_congr_ok fun matcher hm => Traced.bind_congr_ok fun listed hl => ?_
        refine visitNames_congr fun name hname hi _ _ => ih ?_ (Nat.le_add_left _ _) _ _
        exact h leaf matcher listed name hs hx (matcherOf_eq_ok_iff.1 hm)
          (outcome_call_eq_ok_iff.1 hl) hname hi
      · rfl
      · rfl

end Levels

section Listings

theorem listed_oneHop : (oneHop fs source).listed = [] := by
  refine Traced.listed_bind_eq_nil rfl fun kind => ?_
  cases kind with
  | file => rfl
  | dir => rfl
  | link =>
    refine Traced.listed_bind_eq_nil rfl fun destination => ?_
    refine Traced.listed_bind_eq_nil rfl fun resolved => ?_
    refine Traced.listed_bind_eq_nil rfl fun _ => ?_
    refine Traced.listed_bind_eq_nil rfl fun second => ?_
    cases second <;> rfl

theorem listed_matcherOf : (matcherOf entry).listed = [] := by
  unfold matcherOf
  cases entry.ignore.compile with
  | ok matcher => cases entry.ignore.isEmpty <;> rfl
  | error failure => cases failure <;> cases entry.ignore.isEmpty <;> rfl

/-- A visit lists nothing, or the directory that stands for its source and then what the visits
of the names in it list. -/
theorem listed_visit_succ (fs : FileSystem) (entry : Entry) (depth : Nat) (target source : Path)
    (table : Table) :
    (visit fs entry (depth + 1) target source table).listed = [] ∨
      ∃ above, Stands fs source above .dir ∧
        ((visit fs entry (depth + 1) target source table).listed = [above] ∨
          ∃ matcher names, fs.list above = .ok names ∧
            (visit fs entry (depth + 1) target source table).listed = above ::
              (visitNames (visit fs entry depth) matcher target above names table).listed) := by
  rw [visit]
  cases table.holds target with
  | true => exact .inl rfl
  | false =>
    simp only [Bool.false_eq_true, if_false]
    rw [Traced.listed_bind, listed_oneHop, List.nil_append]
    cases hhop : (oneHop fs source).outcome with
    | error e => exact .inl rfl
    | ok found =>
      obtain ⟨above, kind⟩ := found
      have hs := oneHop_eq_ok_iff.1 hhop
      simp only
      split
      · rw [Traced.listed_bind, listed_matcherOf, List.nil_append]
        cases (matcherOf entry).outcome with
        | error e => exact .inl rfl
        | ok matcher =>
          refine .inr ⟨above, hs, ?_⟩
          simp only [Traced.listed_bind, Traced.outcome_call]
          cases hl : fs.list above with
          | error errno => exact .inl rfl
          | ok names => exact .inr ⟨matcher, names, rfl, rfl⟩
      · split <;> exact .inl rfl
      · exact .inl rfl

/-- Directories that are listed: none of them twice, each of them found where it may be. -/
structure ListsOnce (root : FileTree) (Here : Location → Prop) (listed : List Path) : Prop where
  nodup : (listed.map (root.locate true)).Nodup
  isDir : ∀ p ∈ listed, ∃ here entries, root.locate true p = .ok here ∧
    root.at? here = some (.dir entries) ∧ Here here

variable {root : FileTree} {Here There : Location → Prop} {listed others : List Path}

theorem ListsOnce.nil : ListsOnce root Here [] := ⟨List.nodup_nil, by simp⟩

theorem ListsOnce.imp (h : ListsOnce root Here listed) (hi : ∀ here, Here here → There here) :
    ListsOnce root There listed := by
  refine ⟨h.nodup, fun p hp => ?_⟩
  obtain ⟨here, entries, hlocate, hd, hhere⟩ := h.isDir p hp
  exact ⟨here, entries, hlocate, hd, hi here hhere⟩

theorem ListsOnce.append (h : ListsOnce root Here listed) (h' : ListsOnce root There others)
    (hapart : ∀ here, Here here → ¬ There here) :
    ListsOnce root (fun here => Here here ∨ There here) (listed ++ others) := by
  constructor
  · rw [List.map_append]
    refine List.Nodup.append h.nodup h'.nodup fun place hp hp' => ?_
    obtain ⟨p, hm, rfl⟩ := List.mem_map.1 hp
    obtain ⟨q, hm', hq⟩ := List.mem_map.1 hp'
    obtain ⟨here, _, hlocate, _, hhere⟩ := h.isDir p hm
    obtain ⟨there, _, hlocate', _, hthere⟩ := h'.isDir q hm'
    rw [hlocate, hlocate', Except.ok.injEq] at hq
    exact hapart here hhere (hq ▸ hthere)
  · intro p hp
    rcases List.mem_append.1 hp with hp | hp
    · exact (h.imp fun _ => .inl).isDir p hp
    · exact (h'.imp fun _ => .inr).isDir p hp

/-- Visits that each list what is below the name they are for, none of it twice, list nothing twice
together. -/
theorem listsOnce_visitNames {visit : Path → Path → Table → Traced Table} {matcher : Matcher}
    {names : List Name} {here : Location} (hnodup : names.Nodup)
    (h : ∀ name ∈ names, ∀ target table, ListsOnce root (fun there => here ++ [name] <+: there)
      (visit target (join [source, name]) table).listed) :
    ListsOnce root (fun there => ∃ name ∈ names, here ++ [name] <+: there)
      (visitNames visit matcher target source names table).listed := by
  induction names generalizing table with
  | nil => exact .nil
  | cons name rest ih =>
    obtain ⟨hname, hnodup⟩ := List.nodup_cons.1 hnodup
    have hrest : ∀ table, ListsOnce root (fun there => ∃ n ∈ rest, here ++ [n] <+: there)
        (visitNames visit matcher target source rest table).listed :=
      fun _ => ih hnodup fun n hm => h n (List.mem_cons_of_mem _ hm)
    have himp : ∀ there, (∃ n ∈ rest, here ++ [n] <+: there) →
        ∃ n ∈ name :: rest, here ++ [n] <+: there :=
      fun there ⟨n, hm, hp⟩ => ⟨n, List.mem_cons_of_mem _ hm, hp⟩
    rw [visitNames]
    cases matcher.isMatch name with
    | true => exact (hrest table).imp himp
    | false =>
      show ListsOnce root _ (visit (join [target, name]) (join [source, name]) table >>=
        fun table => visitNames visit matcher target source rest table).listed
      rw [Traced.listed_bind]
      have hfirst := h name (by simp) (join [target, name]) table
      cases (visit (join [target, name]) (join [source, name]) table).outcome with
      | error e =>
        rw [List.append_nil]
        exact hfirst.imp fun there hp => ⟨name, by simp, hp⟩
      | ok next =>
        -- below two names of one directory nothing is the same
        refine (hfirst.append (hrest next) ?_).imp ?_
        · rintro there hp ⟨n, hm, hp'⟩
          have hsame := List.prefix_of_prefix_length_le hp hp' (by simp)
          obtain rfl : name = n := by simpa using hsame.eq_of_length (by simp)
          exact hname hm
        · rintro there (hp | hp)
          · exact ⟨name, by simp, hp⟩
          · exact himp there hp

end Listings

section Trees

variable {here : Location} {entries : List (Name × FileTree)}

/-- Where no link stands for a directory, only a directory does. -/
theorem Stands.eq_of_noLinkToDir {above : Path} (hs : Stands fs source above .dir)
    (hlinks : fs.NoLinkToDir) : above = source ∧ fs.inspect source = .ok .dir := by
  cases hs with
  | self hk _ => exact ⟨rfl, hk⟩
  | hop hl hd hk => exact absurd hk (hlinks _ _ hl hd)

/-- The directory that stands for a source is found at the same place by both kinds of lookup, and
what is listed there is joined to it and found right below. -/
theorem Stands.exists_dir {above : Path} (hs : Stands fs source above .dir)
    (hplain : ∀ name ∈ fs.root.names, IsPlain name) (hlinks : fs.NoLinkToDir)
    (hsource : IsDownward source) : above = source ∧ ∃ here entries,
      fs.root.locate false source = .ok here ∧ fs.root.locate true source = .ok here ∧
      fs.root.at? here = some (.dir entries) ∧
      (∀ listed, fs.list source = .ok listed → listed = namesOf entries) ∧
      ∀ name ∈ namesOf entries, IsDownward (join [source, name]) ∧ ∀ there,
        fs.root.locate false (join [source, name]) = .ok there → there = here ++ [name] := by
  obtain ⟨rfl, hinspect⟩ := hs.eq_of_noLinkToDir hlinks
  obtain ⟨here, entries, hlocate, hd⟩ := FileSystem.exists_dir_of_inspect hinspect
  have hfollowed := locate_followed hlocate hd
  refine ⟨rfl, here, entries, hlocate, hfollowed, hd, fun listed hl => ?_, fun name hname => ?_⟩
  · obtain ⟨there, entries', hlocate', hd', rfl⟩ := FileSystem.exists_dir_of_list hl
    cases hfollowed.symm.trans hlocate'
    cases hd.symm.trans hd'
    rfl
  · exact locate_join_name hplain hsource hfollowed hd hname

/-- An expansion ends within as many levels as there are at its source. -/
theorem endsWithin_of_noLinkToDir (hplain : ∀ name ∈ fs.root.names, IsPlain name)
    (hlinks : fs.NoLinkToDir) (hsource : IsDownward source) (hpos : 0 < depth)
    (hd : ∀ here, fs.root.locate false source = .ok here → Suffices fs.root here depth) :
    EndsWithin fs entry depth source := by
  induction depth generalizing source with
  | zero => exact absurd hpos (Nat.lt_irrefl 0)
  | succ depth ih =>
    intro above matcher listed name hs _ _ hl hname _
    obtain ⟨rfl, here, entries, hlocate, _, hdir, hlisted, hbelow⟩ :=
      hs.exists_dir hplain hlinks hsource
    obtain rfl := hlisted listed hl
    obtain ⟨hdown, hthere⟩ := hbelow name hname
    have hsuffices := (hd here hlocate).below hdir hname
    exact ih hdown hsuffices.pos fun there h => hthere there h ▸ hsuffices

/-- A walk lists each directory once at most, and only directories at and below its source. -/
theorem listsOnce_visit (entry : Entry) (depth : Nat) (hplain : ∀ name ∈ fs.root.names, IsPlain name)
    (hlinks : fs.NoLinkToDir) (hsource : IsDownward source) (target : Path) (table : Table) :
    ListsOnce fs.root (fun there => ∃ here, fs.root.locate false source = .ok here ∧ here <+: there)
      (visit fs entry depth target source table).listed := by
  induction depth generalizing target source table with
  | zero => exact .nil
  | succ depth ih =>
    rcases listed_visit_succ fs entry depth target source table with hnone | ⟨above, hs, hlisted⟩
    · rw [hnone]
      exact .nil
    · obtain ⟨rfl, here, entries, hlocate, hfollowed, hdir, hnames, hbelow⟩ :=
        hs.exists_dir hplain hlinks hsource
      have hself : ListsOnce fs.root (· = here) [above] :=
        ⟨List.nodup_singleton _, by simpa using ⟨hfollowed, entries, hdir⟩⟩
      rcases hlisted with hlisted | ⟨matcher, names, hl, hlisted⟩
      · rw [hlisted]
        refine hself.imp ?_
        rintro _ rfl
        exact ⟨_, hlocate, List.prefix_refl _⟩
      · obtain rfl := hnames names hl
        have hrest : ListsOnce fs.root
            (fun there => ∃ name ∈ namesOf entries, here ++ [name] <+: there)
            (visitNames (visit fs entry depth) matcher target above (namesOf entries)
              table).listed :=
          listsOnce_visitNames (nodup_namesOf entries) fun name hname target table => by
            obtain ⟨hdown, hthere⟩ := hbelow name hname
            refine (ih hdown target table).imp ?_
            rintro there ⟨place, hplace, hp⟩
            exact hthere place hplace ▸ hp
        rw [hlisted]
        refine (hself.append hrest ?_).imp ?_
        · rintro _ rfl ⟨name, _, hp⟩
          exact absurd hp.length_le (by simp)
        · rintro there (rfl | ⟨name, _, hp⟩)
          · exact ⟨_, hlocate, List.prefix_refl _⟩
          · exact ⟨here, hlocate, (List.prefix_append _ _).trans hp⟩

end Trees

/-- Where no link has a directory one hop away, the expansion of an entry from any source that
leads downwards ends: it needs no more levels than the tree has, and it lists no directory twice.
The sources of a profile lead downwards from a root of ordinary names. -/
theorem visit_within_height (fs : FileSystem) (hplain : ∀ name ∈ fs.root.names, IsPlain name)
    (hlinks : fs.NoLinkToDir) :
    (∀ root path, isRooted root = true → components root ≠ [] →
      (∀ name ∈ components root, IsOrdinary name) → IsGrounded (components root) →
      IsOrdinaryPath path → IsDownward (join [root, path])) ∧
    ∀ entry target source table depth, IsDownward source → fs.root.height + 1 ≤ depth →
      visit fs entry depth target source table =
          visit fs entry (fs.root.height + 1) target source table ∧
        (visit fs entry depth target source table).outcome ≠ .error .tooDeep ∧
        ((visit fs entry depth target source table).listed.map (fs.root.locate true)).Nodup ∧
        ∀ p ∈ (visit fs entry depth target source table).listed, ∃ here entries,
          fs.root.locate true p = .ok here ∧ fs.root.at? here = some (.dir entries) := by
  refine ⟨fun root path hr hne hn hg hpath => isDownward_join hr hne hn hg hpath, ?_⟩
  intro entry target source table depth hsource hdepth
  have hends : EndsWithin fs entry (fs.root.height + 1) source := by
    refine endsWithin_of_noLinkToDir hplain hlinks hsource (Nat.succ_pos _) fun here _ => ?_
    exact ⟨Nat.succ_pos _, fun node hnode => Nat.lt_succ_of_le (height_at?_le hnode)⟩
  have hvisit := hends.visit_eq hdepth target table
  have hlists := listsOnce_visit entry depth hplain hlinks hsource target table
  refine ⟨hvisit, ?_, hlists.nodup, fun p hp => ?_⟩
  · rw [hvisit]
    exact hends.visit_ne_tooDeep
  · obtain ⟨here, entries, hlocate, hd, _⟩ := hlists.isDir p hp
    exact ⟨here, entries, hlocate, hd⟩

/-- A directory that holds another one and a link to a file. -/
def linkedFiles : FileSystem where
  root := .dir [("f".toList, .file (.bytes [])), ("s".toList, .dir [
    ("d".toList, .dir [("g".toList, .file (.bytes []))]), ("l".toList, .link "/f".toList)])]
  faults := []

theorem visit_within_height_linkedFiles :
    let walk := visit linkedFiles ⟨"t".toList, [], .copy, false, ⟨[]⟩⟩ (depthLimit linkedFiles)
      "/t".toList (join ["/s".toList, []]) []
    walk.outcome ≠ .error .tooDeep ∧ (walk.listed.map (linkedFiles.root.locate true)).Nodup := by
  have h := visit_within_height linkedFiles (by decide)
    (FileSystem.noLinkToDir_of_takesRoot (by decide +kernel))
  have hsource := h.1 "/s".toList [] rfl (by decide) (by decide) (by decide) ⟨[], by simp, rfl⟩
  obtain ⟨_, hends, honce, _⟩ := h.2 ⟨"t".toList, [], .copy, false, ⟨[]⟩⟩ "/t".toList _ []
    (depthLimit linkedFiles) hsource (by simp [depthLimit])
  exact ⟨hends, honce⟩

end Expansion

end Dotfiles
