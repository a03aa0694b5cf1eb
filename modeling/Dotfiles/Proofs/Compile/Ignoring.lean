import Dotfiles.Proofs.Compile.Precedence
import Dotfiles.Proofs.Glob.Matching
import Dotfiles.Proofs.Profile.RootGlobs

/-!
Compiling with further globs at the root of a profile. They hold for every entry, so a walk
stops at the same leaves as before, apart from those that one of the names leads to that are
ignored now. An entry whose turn comes later passes such a name on its way to the same target
too, as it starts further up; so nothing comes into the place of what is left out.
-/

namespace Dotfiles.Expansion

open Dotfiles.Path

/-- Whether none of the names is matched. -/
def avoids (matcher : Matcher) (names : List Name) : Bool :=
  names.all fun name => !matcher.isMatch name

/-- Whether two tables hold the same targets from a place down, apart from those that a matched
name leads to. -/
def AgreeBelow (matcher : Matcher) (place : List Name) (table table' : Table) : Prop :=
  ∀ names, (∀ n ∈ names, IsPlain n) → avoids matcher names = true →
    table'.holds (rooted (place ++ names)) = table.holds (rooted (place ++ names))

/-- A run extends every table that agrees with the first one by what the second one has beyond
it, apart from the leaves that a matched name leads to. -/
def Tracks (matcher : Matcher) (entry : Entry) (place : List Name) (before after : Table)
    (run : Table → Except Error Table) : Prop :=
  ∃ leaves, (∀ d ∈ leaves, ∀ n ∈ d.1, IsPlain n) ∧ after = before ++ actionsAt entry place leaves ∧
    ∀ table, AgreeBelow matcher place before table →
      run table = .ok (table ++ actionsAt entry place (leaves.filter fun d => avoids matcher d.1))

variable {fs : FileSystem} {entry entry' : Entry} {matcher : Matcher} {place : List Name}
  {name : Name} {before between after : Table} {run next : Table → Except Error Table}

section Agreement

variable {table table' : Table}

theorem AgreeBelow.below (h : AgreeBelow matcher place table table') (hname : IsPlain name)
    (hfree : matcher.isMatch name = false) : AgreeBelow matcher (place ++ [name]) table table' := by
  intro names hnames havoids
  have hall : avoids matcher (name :: names) = true := by
    rw [avoids, List.all_cons, hfree]
    exact havoids
  have hsame := h (name :: names) (List.forall_mem_cons.2 ⟨hname, hnames⟩) hall
  rwa [List.append_assoc]

theorem AgreeBelow.here (h : AgreeBelow matcher place table table') :
    table'.holds (rooted place) = table.holds (rooted place) := by
  have hsame := h [] (by simp) rfl
  rwa [List.append_nil] at hsame

/-- Leaves that a matched name leads to make no difference. -/
theorem AgreeBelow.append (h : AgreeBelow matcher place table table')
    (hplace : ∀ n ∈ place, IsPlain n) {leaves : List (List Name × Path)}
    (hleaves : ∀ d ∈ leaves, ∀ n ∈ d.1, IsPlain n) :
    AgreeBelow matcher place (table ++ actionsAt entry place leaves)
      (table' ++ actionsAt entry place (leaves.filter fun d => avoids matcher d.1)) := by
  intro names hnames havoids
  have hadded : (actionsAt entry place (leaves.filter fun d => avoids matcher d.1)).holds
        (rooted (place ++ names)) =
      (actionsAt entry place leaves).holds (rooted (place ++ names)) := by
    rw [Bool.eq_iff_iff, holds_actionsAt_iff, holds_actionsAt_iff]
    constructor
    · rintro ⟨d, hd, he⟩
      exact ⟨d, List.mem_of_mem_filter hd, he⟩
    · rintro ⟨d, hd, he⟩
      have hsame := (rooted_inj (isPlain_append hplace (hleaves d hd))
        (isPlain_append hplace hnames)).1 he
      rw [List.append_cancel_left_eq] at hsame
      exact ⟨d, List.mem_filter.2 ⟨hd, hsame ▸ havoids⟩, he⟩
  rw [holds_append, holds_append, h names hnames havoids, hadded]

end Agreement

section Tracking

theorem Tracks.skip (h : ∀ table, AgreeBelow matcher place before table → run table = .ok table) :
    Tracks matcher entry place before before run := by
  refine ⟨[], by simp, by simp [actionsAt], ?_⟩
  intro table hagree
  rw [h table hagree]
  simp [actionsAt]

theorem Tracks.mono (h : Tracks matcher entry place before after run)
    (himp : ∀ table result, AgreeBelow matcher place before table → run table = .ok result →
      next table = .ok result) :
    Tracks matcher entry place before after next := by
  obtain ⟨leaves, hleaves, rfl, hrun⟩ := h
  exact ⟨leaves, hleaves, rfl, fun table hagree => himp table _ hagree (hrun table hagree)⟩

theorem Tracks.bind (hplace : ∀ n ∈ place, IsPlain n)
    (hfirst : Tracks matcher entry place before between run)
    (hsecond : Tracks matcher entry place between after next) :
    Tracks matcher entry place before after fun table => run table >>= next := by
  obtain ⟨first, hplain, rfl, hrun⟩ := hfirst
  obtain ⟨second, hplain', rfl, hnext⟩ := hsecond
  refine ⟨first ++ second, ?_, by simp [actionsAt], ?_⟩
  · intro d hd
    exact (List.mem_append.1 hd).elim (hplain d) (hplain' d)
  · intro table hagree
    show run table >>= next = _
    rw [hrun table hagree, Except.ok_bind, hnext _ (hagree.append hplace hplain)]
    simp [actionsAt]

theorem actionsAt_below (leaves : List (List Name × Path)) :
    actionsAt entry (place ++ [name]) leaves =
      actionsAt entry place (leaves.map fun d => (name :: d.1, d.2)) := by
  simp [actionsAt, Function.comp_def]

theorem isPlain_below {leaves : List (List Name × Path)} (hname : IsPlain name)
    (hleaves : ∀ d ∈ leaves, ∀ n ∈ d.1, IsPlain n) :
    ∀ d ∈ leaves.map fun d => (name :: d.1, d.2), ∀ n ∈ d.1, IsPlain n := by
  intro d hd
  obtain ⟨leaf, hleaf, rfl⟩ := List.mem_map.1 hd
  exact List.forall_mem_cons.2 ⟨hname, hleaves leaf hleaf⟩

/-- What is done below a name that is not matched. -/
theorem Tracks.below (hname : IsPlain name) (hfree : matcher.isMatch name = false)
    (h : Tracks matcher entry (place ++ [name]) before after run) :
    Tracks matcher entry place before after run := by
  obtain ⟨leaves, hleaves, rfl, hrun⟩ := h
  refine ⟨_, isPlain_below hname hleaves, by rw [actionsAt_below], ?_⟩
  intro table hagree
  rw [hrun table (hagree.below hname hfree), actionsAt_below, List.filter_map]
  simp [avoids, hfree, Function.comp_def]

/-- What is done below a matched name is left out. -/
theorem Tracks.ignored (hname : IsPlain name) (hmatch : matcher.isMatch name = true)
    (h : Tracks matcher entry (place ++ [name]) before after run) :
    Tracks matcher entry place before after .ok := by
  obtain ⟨leaves, hleaves, rfl, _⟩ := h
  refine ⟨_, isPlain_below hname hleaves, by rw [actionsAt_below], ?_⟩
  intro table _
  rw [List.filter_map]
  simp [avoids, hmatch, Function.comp_def, actionsAt]

end Tracking

section Walking

variable {m m' : Matcher} {source : Path}

theorem tracks_visitNames {visit visit' : Path → Path → Table → Traced Table}
    (hm : ∀ name, m'.isMatch name = (m.isMatch name || matcher.isMatch name))
    (hvisit : ∀ {place : List Name} {source : Path} {before after : Table}, place ≠ [] →
      (∀ n ∈ place, IsPlain n) → IsGrounded place →
      (visit (rooted place) source before).outcome = .ok after →
      Tracks matcher entry place before after fun table =>
        (visit' (rooted place) source table).outcome)
    (hne : place ≠ []) (hplace : ∀ n ∈ place, IsPlain n) (hg : IsGrounded place)
    {listed : List Name} (hlisted : ∀ n ∈ listed, IsPlain n)
    (h : (visitNames visit m (rooted place) source listed before).outcome = .ok after) :
    Tracks matcher entry place before after fun table =>
      (visitNames visit' m' (rooted place) source listed table).outcome := by
  induction listed generalizing before with
  | nil =>
    cases h
    exact .skip fun _ _ => rfl
  | cons name others ih =>
    have hname : IsPlain name := hlisted name List.mem_cons_self
    have hothers : ∀ n ∈ others, IsPlain n := fun n hn => hlisted n (List.mem_cons_of_mem _ hn)
    have hjoin : join [rooted place, name] = rooted (place ++ [name]) :=
      join_rooted hne hplace hg hname
    rcases visitNames_cons_eq_ok_iff.1 h with ⟨hmatch, h⟩ | ⟨hmatch, between, hv, h⟩
    · refine (ih hothers h).mono ?_
      intro table result _ hrun
      exact visitNames_cons_eq_ok_iff.2 (.inl ⟨by rw [hm, hmatch]; rfl, hrun⟩)
    · rw [hjoin] at hv
      have hbelow := hvisit (by simp) (isPlain_append hplace (by simpa using hname))
        (isGrounded_append hne hg) hv
      cases hnew : matcher.isMatch name with
      | true =>
        refine ((hbelow.ignored hname hnew).bind hplace (ih hothers h)).mono ?_
        intro table result _ hrun
        exact visitNames_cons_eq_ok_iff.2 (.inl ⟨by rw [hm, hnew, Bool.or_true], hrun⟩)
      | false =>
        refine ((hbelow.below hname hnew).bind hplace (ih hothers h)).mono ?_
        intro table result _ hrun
        obtain ⟨next, hnext, hrun⟩ := Except.bind_eq_ok_iff.1 hrun
        rw [← hjoin] at hnext
        exact visitNames_cons_eq_ok_iff.2 (.inr ⟨by rw [hm, hmatch, hnew]; rfl, next, hnext, hrun⟩)

theorem tracks_record {leaf : Path} (hfree : before.holds (rooted place) = false)
    (h : ∀ table, table.holds (rooted place) = false →
      run table = .ok (table ++ [(rooted place, ⟨leaf, entry.method⟩)])) :
    Tracks matcher entry place before (before ++ [(rooted place, ⟨leaf, entry.method⟩)]) run := by
  refine ⟨[([], leaf)], by simp, by simp [actionsAt], ?_⟩
  intro table hagree
  rw [h table (hagree.here.trans hfree), List.filter_cons_of_pos rfl, List.filter_nil]
  simp [actionsAt]

/-- A walk with further globs does what the walk without them does, apart from the leaves that
one of the names leads to that the further globs match. -/
theorem tracks_visit (hfs : ∀ name ∈ fs.root.names, IsPlain name) {globs : List Text}
    (hglobs : (GlobList.mk globs).compile = .ok matcher) (he : entry.Inserts globs entry')
    (depth : Nat) (hne : place ≠ []) (hplace : ∀ n ∈ place, IsPlain n) (hg : IsGrounded place)
    (h : (visit fs entry depth (rooted place) source before).outcome = .ok after) :
    Tracks matcher entry place before after fun table =>
      (visit fs entry' depth (rooted place) source table).outcome := by
  obtain ⟨ignore, ⟨first, last, hold, rfl⟩, rfl⟩ := he
  induction depth generalizing place source before after with
  | zero => cases h
  | succ depth ih =>
    rcases visit_succ_eq_ok_iff.1 h with ⟨hheld, rfl⟩ | ⟨hfree, leaf, kind, hs, hstep⟩
    · refine .skip fun table hagree => visit_succ_eq_ok_iff.2 (.inl ⟨?_, rfl⟩)
      exact hagree.here.trans hheld
    · rcases hstep with ⟨hstop, hmethod, rfl⟩ | ⟨rfl, hx, m, listed, hm, hl, h⟩
      · refine tracks_record hfree fun table hclear => visit_succ_eq_ok_iff.2 (.inr ?_)
        exact ⟨hclear, leaf, kind, hs, .inl ⟨hstop, hmethod, rfl⟩⟩
      · rw [hold] at hm
        obtain ⟨m', hm', hmatch⟩ := GlobList.compile_insert hm hglobs
        have hlisted : ∀ n ∈ listed, IsPlain n :=
          fun n hn => hfs n ((FileSystem.list_eq_ok hl).2 n hn)
        refine (tracks_visitNames hmatch ih hne hplace hg hlisted h).mono ?_
        intro table result hagree hrun
        refine visit_succ_eq_ok_iff.2 (.inr ⟨hagree.here.trans hfree, leaf, .dir, hs, .inr ?_⟩)
        exact ⟨rfl, hx, m', listed, hm', hl, hrun⟩

end Walking

end Dotfiles.Expansion

namespace Dotfiles.Compilation

open Dotfiles.Path Expansion

/-- Whether a matched name leads to a target from the target of one of the entries. -/
def IsPassedBy (matcher : Matcher) (settings : Settings) (entries : List Entry) (target : Path) :
    Prop :=
  ∃ entry ∈ entries, ∃ names, (∀ n ∈ names, IsPlain n) ∧ avoids matcher names = false ∧
    target = rooted (place settings entry ++ names)

/-- Whether a table is another one without some targets that a matched name leads to. -/
structure IsThinned (matcher : Matcher) (settings : Settings) (entries : List Entry)
    (table table' : Table) : Prop where
  sublist : table'.Sublist table
  passed : ∀ target, table.holds target = true → table'.holds target = false →
    IsPassedBy matcher settings entries target

variable {w : World} {settings : Settings} {entry : Entry} {entries entries' later : List Entry}
  {matcher : Matcher} {globs : List Text} {table table' before before' after : Table}

theorem holds_of_sublist (h : table'.Sublist table) {target : Path}
    (ht : table'.holds target = true) : table.holds target = true :=
  holds_iff_mem.2 ((h.map Prod.fst).subset (holds_iff_mem.1 ht))

/-- What the later entries have left out is passed over by this one as well: its target is above
theirs, so it goes on by the same matched name. -/
theorem IsThinned.agreeBelow (hroot : IsPlainRoot settings.target)
    (hsorted : IsSorted (entry :: later)) (h : IsThinned matcher settings later before before') :
    AgreeBelow matcher (place settings entry) before before' := by
  intro names hnames havoids
  have hplace := place_plain hroot (hsorted.plain entry List.mem_cons_self)
  rw [Bool.eq_iff_iff]
  constructor
  · exact holds_of_sublist h.sublist
  · intro hold
    by_contra hnew
    obtain ⟨e, he, more, hmore, hpassed, htarget⟩ := h.passed _ hold (by simpa using hnew)
    have hlater : IsPlainPath e.target := hsorted.plain e (List.mem_cons_of_mem _ he)
    have hsame := (rooted_inj (isPlain_append hplace hnames)
      (isPlain_append (place_plain hroot hlater) hmore)).1 htarget
    have habove : place settings e ++ more <+: place settings entry ++ names :=
      ⟨[], by rw [List.append_nil, hsame]⟩
    obtain ⟨between, _, hbelow⟩ := hsorted.exists_between he habove
    -- the matched name is one of those that this entry avoids
    have hmatched : avoids matcher more = true := by
      rw [avoids, List.all_eq_true] at havoids ⊢
      exact fun n hn => havoids n (hbelow.subset (List.mem_append_right _ hn))
    rw [hmatched] at hpassed
    cases hpassed

theorem IsThinned.step (h : IsThinned matcher settings later before before')
    {leaves : List (List Name × Path)} (hleaves : ∀ d ∈ leaves, ∀ n ∈ d.1, IsPlain n) :
    IsThinned matcher settings (entry :: later)
      (before ++ actionsAt entry (place settings entry) leaves)
      (before' ++ actionsAt entry (place settings entry)
        (leaves.filter fun d => avoids matcher d.1)) where
  sublist := h.sublist.append (List.filter_sublist.map _)
  passed := by
    intro target hold hnew
    rw [holds_append, Bool.or_eq_false_iff] at hnew
    rw [holds_append, Bool.or_eq_true] at hold
    rcases hold with hold | hold
    · obtain ⟨e, he, hpassed⟩ := h.passed target hold hnew.1
      exact ⟨e, List.mem_cons_of_mem _ he, hpassed⟩
    · obtain ⟨d, hd, rfl⟩ := holds_actionsAt_iff.1 hold
      refine ⟨entry, List.mem_cons_self, d.1, hleaves d hd, ?_, rfl⟩
      rw [Bool.eq_false_iff]
      intro havoids
      have hkept : d ∈ leaves.filter fun d => avoids matcher d.1 := List.mem_filter.2 ⟨hd, havoids⟩
      rw [holds_actionsAt_iff.2 ⟨d, hkept, rfl⟩] at hnew
      cases hnew.2

/-- The turns of entries with further globs succeed if the turns without them do, and leave out
only targets that a matched name leads to. -/
theorem recordedBy_thinned (hfs : ∀ name ∈ w.files.root.names, IsPlain name)
    (hroot : IsPlainRoot settings.target) (hsorted : IsSorted entries)
    (hglobs : (GlobList.mk globs).compile = .ok matcher)
    (hentries : List.Forall₂ (Entry.Inserts globs) entries entries')
    (h : recordedBy w settings entries = .ok table) :
    ∃ table', recordedBy w settings entries' = .ok table' ∧
      IsThinned matcher settings entries table table' := by
  induction hentries generalizing table with
  | nil =>
    cases h
    exact ⟨[], rfl, List.Sublist.refl _, fun _ ht => absurd ht Bool.false_ne_true⟩
  | @cons entry entry' later later' he _ ih =>
    obtain ⟨before, hb, hadd⟩ := recordedBy_cons_eq_ok.1 h
    obtain ⟨before', hb', hthinned⟩ := ih hsorted.tail hb
    obtain ⟨hlinks, hwalk⟩ := addEntry_eq_ok_iff.1 hadd
    have hplain := hsorted.plain entry List.mem_cons_self
    rw [join_target hroot hplain] at hwalk
    obtain ⟨leaves, hleaves, rfl, hrun⟩ := tracks_visit hfs hglobs he _ (place_ne_nil hroot)
      (place_plain hroot hplain) (place_isGrounded hroot) hwalk
    have hnew := hrun before' (hthinned.agreeBelow hroot hsorted)
    rw [← join_target hroot hplain] at hnew
    obtain ⟨ignore, _, rfl⟩ := he
    refine ⟨_, recordedBy_cons_eq_ok.2 ⟨before', hb', addEntry_eq_ok_iff.2 ⟨hlinks, hnew⟩⟩, ?_⟩
    exact hthinned.step hleaves

/-- What is left of a table of distinct targets is told by their targets. -/
theorem eq_filter_of_sublist (h : table'.Sublist table) (hdistinct : HasDistinctTargets table) :
    table' = table.filter fun x => table'.holds x.1 := by
  induction h with
  | slnil => rfl
  | @cons table' table x hsub ih =>
    obtain ⟨hnew, hrest⟩ := List.nodup_cons.1 hdistinct
    have hgone : ¬ Table.holds table' x.1 = true := fun hheld =>
      hnew (holds_iff_mem.1 (holds_of_sublist hsub hheld))
    rw [List.filter_cons, if_neg hgone]
    exact ih hrest
  | @cons_cons table' table x _ ih =>
    obtain ⟨hnew, hrest⟩ := List.nodup_cons.1 hdistinct
    have hhere : Table.holds (x :: table') x.1 = true := holds_iff_mem.2 List.mem_cons_self
    have hlater : table.filter (fun y => Table.holds (x :: table') y.1) =
        table.filter fun y => Table.holds table' y.1 := by
      apply List.filter_congr
      intro y hy
      have hother : x.1 ≠ y.1 := fun he => hnew (he ▸ List.mem_map_of_mem hy)
      simp [Table.holds, hother]
    rw [List.filter_cons, if_pos hhere, hlater, ← ih hrest]

end Dotfiles.Compilation

namespace Dotfiles.Profile

open Dotfiles.Path Compilation Value

variable {w : World} {settings : Settings} {drives : Bool} {fields : Fields} {globs : List Text}
  {matcher : Matcher} {profile : Profile} {compilation : Compilation}

theorem rel_entries {profile' : Profile}
    (h : profile.declarations.Inserts globs profile'.declarations) :
    profile.entries.outcome.Rel (List.Forall₂ (Entry.Inserts globs)) profile'.entries.outcome :=
  ProfileTree.rel_resolve h.byComponent

/-- Globs that are added at the root only take targets away. The profile still compiles, to the
same actions in the same order for all targets that are kept, and a target goes only if one of
its components is matched. -/
theorem compile_appendGlobs (hkeys : fields.HasDistinctKeys)
    (hread : (Profile.read drives (.map fields)).outcome = .ok profile)
    (hfree : Declaration.IsFreeOfDotLines (.map fields))
    (hfs : ∀ name ∈ w.files.root.names, IsPlain name) (hroot : IsPlainRoot settings.target)
    (h : (profile.compile w settings).outcome = .ok compilation)
    (hglobs : (GlobList.mk globs).compile = .ok matcher) :
    ∃ profile' compilation',
      (Profile.read drives (.map (Declaration.appendGlobs globs fields))).outcome = .ok profile' ∧
      (profile'.compile w settings).outcome = .ok compilation' ∧
      compilation'.diagnostics = compilation.diagnostics ∧
      ∃ kept : Path → Bool, compilation'.table = compilation.table.filter (fun x => kept x.1) ∧
        ∀ x ∈ compilation.table, kept x.1 = false →
          ∃ name ∈ components x.1, matcher.isMatch name = true := by
  obtain ⟨profile', hread', hinserts, hdiagnostics⟩ := read_appendGlobs hkeys globs hread
  obtain ⟨entries, he, hrecorded, hd⟩ := compile_eq_ok_iff.1 h
  have hsorted := isSorted_entries (Profile.isPlainTree hread hfree) he
  obtain ⟨entries', he', hentries⟩ : ∃ entries', profile'.entries.outcome = .ok entries' ∧
      List.Forall₂ (Entry.Inserts globs) entries entries' := by
    have hrel := rel_entries hinserts
    rw [he] at hrel
    generalize profile'.entries.outcome = outcome at hrel ⊢
    cases hrel with
    | ok hentries => exact ⟨_, rfl, hentries⟩
  obtain ⟨table', htable', hthinned⟩ :=
    recordedBy_thinned hfs hroot hsorted hglobs hentries hrecorded
  refine ⟨profile', ⟨table', profile'.diagnostics⟩, hread', ?_, ?_, table'.holds, ?_, ?_⟩
  · exact compile_eq_ok_iff.2 ⟨entries', he', htable', rfl⟩
  · rw [hd, ← hdiagnostics]
  · exact eq_filter_of_sublist hthinned.sublist (hasDistinctTargets_recordedBy hrecorded)
  · intro x hx hgone
    obtain ⟨e, hm, names, hnames, hpassed, htarget⟩ := hthinned.passed x.1 (holds_of_mem hx) hgone
    obtain ⟨name, hname, hmatch⟩ := List.all_eq_false.1 hpassed
    refine ⟨name, ?_, by simpa using hmatch⟩
    rw [htarget, components_rooted
      (isPlain_append (place_plain hroot (hsorted.plain e hm)) hnames)]
    exact List.mem_append_right _ hname

/-- A directory and a file that are copied. -/
def dirAndFile : Fields :=
  [(.text "a".toList, .text "s".toList), (.text "b".toList, .text "g".toList)]

/-- The directory, with a cache in it, and the file. -/
def cacheWorld : World where
  files := ⟨.dir [("x".toList, .dir [
    ("s".toList, .dir [("cache".toList, .dir [("f".toList, .file (.bytes []))])]),
    ("g".toList, .file (.bytes []))])], []⟩
  environment := []
  users := []
  uid := 0
  platform := .posix

/-- What is recorded while the cache is not ignored. -/
def cacheTable : Table :=
  [("/t/b".toList, ⟨"/x/g".toList, .copy⟩), ("/t/a/cache/f".toList, ⟨"/x/s/cache/f".toList, .copy⟩)]

/-- A glob for the cache can only take targets out of the table, and the file is none of them. -/
theorem compile_appendGlobs_cache :
    ∃ profile compilation profile' compilation',
      (Profile.read false (.map dirAndFile)).outcome = .ok profile ∧
      (profile.compile cacheWorld ⟨"/x".toList, "/t".toList, 0⟩).outcome = .ok compilation ∧
      compilation.table = cacheTable ∧
      (Profile.read false (.map (Declaration.appendGlobs ["cache".toList] dirAndFile))).outcome =
        .ok profile' ∧
      (profile'.compile cacheWorld ⟨"/x".toList, "/t".toList, 0⟩).outcome = .ok compilation' ∧
      (∃ kept : Path → Bool, compilation'.table = cacheTable.filter fun x => kept x.1) ∧
      ("/t/b".toList, ⟨"/x/g".toList, .copy⟩) ∈ compilation'.table := by
  obtain ⟨profile, hread, hentries⟩ : ∃ profile,
      (Profile.read false (.map dirAndFile)).outcome = .ok profile ∧
      profile.entries.outcome = .ok [⟨"a".toList, "s".toList, .copy, false, ⟨[]⟩⟩,
        ⟨"b".toList, "g".toList, .copy, false, ⟨[]⟩⟩] :=
    ⟨_, rfl, entries_of_perm rfl (List.Perm.refl _) (by decide +kernel)⟩
  have hrecorded : recordedBy cacheWorld ⟨"/x".toList, "/t".toList, 0⟩
      [⟨"a".toList, "s".toList, .copy, false, ⟨[]⟩⟩,
        ⟨"b".toList, "g".toList, .copy, false, ⟨[]⟩⟩] = .ok cacheTable := by
    decide +kernel
  have hcompile : (profile.compile cacheWorld ⟨"/x".toList, "/t".toList, 0⟩).outcome =
      .ok ⟨cacheTable, profile.diagnostics⟩ :=
    compile_eq_ok_iff.2 ⟨_, hentries, hrecorded, rfl⟩
  obtain ⟨matcher, hglobs, hfile⟩ : ∃ matcher,
      (GlobList.mk ["cache".toList]).compile = .ok matcher ∧
      ∀ name ∈ components "/t/b".toList, matcher.isMatch name = false :=
    ⟨_, rfl, by decide +kernel⟩
  obtain ⟨profile', compilation', hread', hcompile', _, kept, htable, hgone⟩ :=
    compile_appendGlobs (by decide +kernel) hread (by decide +kernel) (by decide +kernel)
      ⟨rfl, by decide, by decide, by decide⟩ hcompile hglobs
  refine ⟨profile, _, profile', compilation', hread, hcompile, rfl, hread', hcompile',
    ⟨kept, htable⟩, ?_⟩
  rw [htable]
  refine List.mem_filter.2 ⟨List.mem_cons_self, ?_⟩
  by_contra hkept
  obtain ⟨name, hname, hmatch⟩ := hgone _ List.mem_cons_self (by simpa using hkept)
  rw [hfile name hname] at hmatch
  cases hmatch

end Dotfiles.Profile
