import Dotfiles.Compile.Basic
import Dotfiles.Proofs.Compile.Walk
import Dotfiles.Proofs.Profile.Inheritance

/-!
Precedence in the compiled table. The entries take their turns from the last one to the
first, and each of them adds the leaves that it reaches, apart from those at or below a
target that an entry after it has added. So what is declared deeper down is never replaced,
and everything in the table was added in one of the turns.
-/

namespace Dotfiles.Compilation

open Dotfiles.Path Expansion ProfileTree

/-- The walk of an entry stops at a target with a source. It starts at the entry's own
target and source below the two roots, and takes every name on both sides. -/
def ReachesLeaf (w : World) (settings : Settings) (entry : Entry) (target source : Path) : Prop :=
  ∃ names, Reaches w.files entry (join [settings.source, entry.source]) names source ∧
    target = names.foldl (fun above name => join [above, name])
      (join [settings.target, entry.target])

/-- The table after the turns of the given entries, the last one taking its turn first. -/
def turns (w : World) (settings : Settings) (entries : List Entry) (before : Table) :
    Except Error Table :=
  (addEntries w settings entries.reverse before).outcome

/-- What the given entries record, the last one taking its turn first. -/
def recordedBy (w : World) (settings : Settings) (entries : List Entry) : Except Error Table :=
  (addEntries w settings entries.reverse []).outcome

/-- The table holds neither the target nor a path above it. -/
def IsUnshadowed (table : Table) (target : Path) : Prop :=
  ∀ held, table.holds held = true → ¬ components held <+: components target

/-- What an entry adds to a table in its turn: the leaves that it reaches, unless the table
holds their target or a path above it. -/
structure Adds (w : World) (settings : Settings) (entry : Entry) (before : Table)
    (target : Path) (action : Action) : Prop where
  method : action.method = entry.method
  reaches : ReachesLeaf w settings entry target action.source
  unshadowed : IsUnshadowed before target

/-- Entries that a plain profile resolves to: targets are plain paths in increasing order. -/
structure IsSorted (entries : List Entry) : Prop where
  plain : ∀ e ∈ entries, IsPlainPath e.target
  increasing : entries.Pairwise fun a b => components a.target < components b.target

variable {w : World} {settings : Settings} {entry : Entry} {entries : List Entry}

section Targets

/-- The components of an entry's target below a root. -/
def place (settings : Settings) (entry : Entry) : List Name :=
  components settings.target ++ components entry.target

theorem place_plain (hroot : IsPlainRoot settings.target) (he : IsPlainPath entry.target) :
    ∀ name ∈ place settings entry, IsPlain name :=
  isPlain_append hroot.plain he.plain

theorem place_ne_nil (hroot : IsPlainRoot settings.target) : place settings entry ≠ [] := by
  simp [place, hroot.ne_nil]

theorem place_isGrounded (hroot : IsPlainRoot settings.target) :
    IsGrounded (place settings entry) :=
  isGrounded_append hroot.ne_nil hroot.grounded

theorem join_target (hroot : IsPlainRoot settings.target) (he : IsPlainPath entry.target) :
    join [settings.target, entry.target] = rooted (place settings entry) :=
  hroot.join_plainPath he

theorem foldl_join {start : List Name} (hne : start ≠ []) (hs : ∀ n ∈ start, IsPlain n)
    (hg : IsGrounded start) {names : List Name} (hn : ∀ n ∈ names, IsPlain n) :
    names.foldl (fun above name => join [above, name]) (rooted start) =
      rooted (start ++ names) := by
  induction names generalizing start with
  | nil => rw [List.foldl_nil, List.append_nil]
  | cons name rest ih =>
    have hname : IsPlain name := hn name List.mem_cons_self
    rw [List.foldl_cons, join_rooted hne hs hg hname, ih (by simp)
      (isPlain_append hs (by simpa using hname)) (isGrounded_append hne hg)
      fun n hm => hn n (List.mem_cons_of_mem _ hm)]
    rw [List.append_assoc]
    rfl

/-- On plain names, the target of a leaf is the entry's place continued by the names of the
walk. -/
theorem reachesLeaf_iff (hfs : ∀ name ∈ w.files.root.names, IsPlain name)
    (hroot : IsPlainRoot settings.target) (he : IsPlainPath entry.target)
    {target source : Path} :
    ReachesLeaf w settings entry target source ↔
      ∃ names, Reaches w.files entry (join [settings.source, entry.source]) names source ∧
        target = rooted (place settings entry ++ names) := by
  have hjoin : ∀ {names}, Reaches w.files entry (join [settings.source, entry.source]) names
      source → names.foldl (fun above name => join [above, name])
        (join [settings.target, entry.target]) = rooted (place settings entry ++ names) := by
    intro names hr
    rw [join_target hroot he]
    exact foldl_join (place_ne_nil hroot) (place_plain hroot he) (place_isGrounded hroot)
      (hr.plain hfs)
  constructor
  · rintro ⟨names, hr, rfl⟩
    exact ⟨names, hr, hjoin hr⟩
  · rintro ⟨names, hr, rfl⟩
    exact ⟨names, hr, (hjoin hr).symm⟩

end Targets

section Turns

variable {table before after : Table} {target : Path} {later : List Entry}

theorem IsSorted.sublist {kept : List Entry} (h : IsSorted entries) (hk : kept.Sublist entries) :
    IsSorted kept :=
  ⟨fun e he => h.plain e (hk.subset he), h.increasing.sublist hk⟩

theorem IsSorted.tail (h : IsSorted (entry :: later)) : IsSorted later :=
  h.sublist (List.sublist_cons_self _ _)

/-- The turn of an entry is a walk from its target and source below the two roots. -/
theorem addEntry_eq_ok_iff : (addEntry w settings before entry).outcome = .ok after ↔
    (entry.method = .link → w.platform.links = true) ∧
      (visit w.files entry (depthLimit w.files) (join [settings.target, entry.target])
        (join [settings.source, entry.source]) before).outcome = .ok after := by
  unfold addEntry
  constructor
  · intro h
    split at h
    · obtain ⟨_, hfail, _⟩ := Traced.outcome_bind_eq_ok_iff.1 h
      cases hfail
    · rename_i hlinks
      obtain ⟨_, _, h⟩ := Traced.outcome_bind_eq_ok_iff.1 h
      obtain ⟨target, ht, h⟩ := Traced.outcome_bind_eq_ok_iff.1 h
      obtain ⟨source, hs, h⟩ := Traced.outcome_bind_eq_ok_iff.1 h
      cases ht
      cases hs
      exact ⟨by simpa using hlinks, h⟩
  · rintro ⟨hlinks, h⟩
    rw [if_neg (by simpa using hlinks)]
    exact h

theorem addEntry_eq_ok (hfs : ∀ name ∈ w.files.root.names, IsPlain name)
    (hroot : IsPlainRoot settings.target) (he : IsPlainPath entry.target)
    (h : (addEntry w settings before entry).outcome = .ok after) :
    Extends w.files entry (place settings entry) (join [settings.source, entry.source])
      before after := by
  have hwalk := (addEntry_eq_ok_iff.1 h).2
  rw [join_target hroot he] at hwalk
  exact visit_eq_ok hfs _ (place_ne_nil hroot) (place_plain hroot he) (place_isGrounded hroot)
    hwalk

theorem addEntries_append (first second : List Entry) :
    (addEntries w settings (first ++ second) before).outcome = .ok after ↔
      ∃ between, (addEntries w settings first before).outcome = .ok between ∧
        (addEntries w settings second between).outcome = .ok after := by
  induction first generalizing before with
  | nil =>
    constructor
    · intro h
      exact ⟨before, rfl, h⟩
    · rintro ⟨between, hb, h⟩
      cases hb
      exact h
  | cons e rest ih =>
    rw [List.cons_append, addEntries, addEntries, Traced.outcome_bind_eq_ok_iff]
    constructor
    · rintro ⟨next, hnext, h⟩
      obtain ⟨between, hb, h⟩ := ih.1 h
      exact ⟨between, Traced.outcome_bind_eq_ok_iff.2 ⟨next, hnext, hb⟩, h⟩
    · rintro ⟨between, hb, h⟩
      obtain ⟨next, hnext, hb⟩ := Traced.outcome_bind_eq_ok_iff.1 hb
      exact ⟨next, hnext, ih.2 ⟨between, hb, h⟩⟩

theorem turns_append_eq_ok_iff {first second : List Entry} :
    turns w settings (first ++ second) before = .ok after ↔
      ∃ between, turns w settings second before = .ok between ∧
        turns w settings first between = .ok after := by
  unfold turns
  rw [List.reverse_append, addEntries_append]

theorem turns_cons_eq_ok_iff : turns w settings (entry :: later) before = .ok after ↔
    ∃ between, turns w settings later before = .ok between ∧
      (addEntry w settings between entry).outcome = .ok after := by
  have hsingle : ∀ between, turns w settings [entry] between = .ok after ↔
      (addEntry w settings between entry).outcome = .ok after := by
    intro between
    rw [turns, List.reverse_singleton, addEntries, Traced.outcome_bind_eq_ok_iff]
    constructor
    · rintro ⟨next, hnext, h⟩
      cases h
      exact hnext
    · intro h
      exact ⟨after, h, rfl⟩
  rw [← List.singleton_append, turns_append_eq_ok_iff]
  simp only [hsingle]

theorem recordedBy_cons_eq_ok :
    recordedBy w settings (entry :: later) = .ok after ↔
      ∃ before, recordedBy w settings later = .ok before ∧
        (addEntry w settings before entry).outcome = .ok after :=
  turns_cons_eq_ok_iff

/-- What is recorded lies at or below the place of one of the entries. -/
theorem holds_recordedBy (hfs : ∀ name ∈ w.files.root.names, IsPlain name)
    (hroot : IsPlainRoot settings.target) (hplain : ∀ e ∈ entries, IsPlainPath e.target)
    (h : recordedBy w settings entries = .ok table) (ht : table.holds target = true) :
    ∃ e ∈ entries, ∃ names, (∀ n ∈ names, IsPlain n) ∧
      target = rooted (place settings e ++ names) := by
  induction entries generalizing table with
  | nil =>
    cases h
    cases ht
  | cons entry later ih =>
    obtain ⟨before, hb, hadd⟩ := recordedBy_cons_eq_ok.1 h
    obtain ⟨leaves, rfl, hiff⟩ := addEntry_eq_ok hfs hroot (hplain entry (by simp)) hadd
    rw [holds_append, Bool.or_eq_true] at ht
    rcases ht with ht | ht
    · obtain ⟨e, he, hnames⟩ := ih (fun e he => hplain e (List.mem_cons_of_mem _ he)) hb ht
      exact ⟨e, List.mem_cons_of_mem _ he, hnames⟩
    · obtain ⟨d, hd, rfl⟩ := holds_actionsAt_iff.1 ht
      exact ⟨entry, List.mem_cons_self, d.1, ((hiff d.1 d.2).1 hd).1.plain hfs, rfl⟩

/-- Where what lies at the place of a later entry is above a leaf of this one, the later place
is below this one: both are above the leaf, and this one comes first in the order. -/
theorem IsSorted.exists_between (hsorted : IsSorted (entry :: later)) {e : Entry} (he : e ∈ later)
    {names more : List Name} (h : place settings e ++ more <+: place settings entry ++ names) :
    ∃ between, place settings e = place settings entry ++ between ∧ between ++ more <+: names := by
  have hlt : components entry.target < components e.target :=
    (List.pairwise_cons.1 hsorted.increasing).1 e he
  rw [place, place, List.append_assoc, List.append_assoc, List.prefix_append_right_inj] at h
  obtain ⟨between, hbetween⟩ : components entry.target <+: components e.target :=
    isPrefix_of_lt (List.prefix_append _ _) ((List.prefix_append _ _).trans h) hlt
  rw [← hbetween, List.append_assoc, List.prefix_append_right_inj] at h
  exact ⟨between, by simp [place, ← hbetween], h⟩

/-- What the later entries have recorded above a leaf lies on the way of the walk to it. -/
theorem isFree_iff_isUnshadowed (hfs : ∀ name ∈ w.files.root.names, IsPlain name)
    (hroot : IsPlainRoot settings.target) (hsorted : IsSorted (entry :: later))
    (hb : recordedBy w settings later = .ok before) {names : List Name}
    (hn : ∀ n ∈ names, IsPlain n) :
    IsFree before (place settings entry) names ↔
      IsUnshadowed before (rooted (place settings entry ++ names)) := by
  have hentry := hsorted.plain entry List.mem_cons_self
  have hlater : ∀ e ∈ later, IsPlainPath e.target :=
    fun e he => hsorted.plain e (List.mem_cons_of_mem _ he)
  have hplace := place_plain hroot hentry
  have hleaf : components (rooted (place settings entry ++ names)) =
      place settings entry ++ names := components_rooted (isPlain_append hplace hn)
  constructor
  · intro hfree held hheld habove
    obtain ⟨e, he, more, hmore, rfl⟩ := holds_recordedBy hfs hroot hlater hb hheld
    have hheldplain := isPlain_append (place_plain hroot (hlater e he)) hmore
    rw [hleaf, components_rooted hheldplain] at habove
    obtain ⟨between, hsame, hbelow⟩ := hsorted.exists_between he habove
    have hblocked := hfree (between ++ more) hbelow
    rw [← List.append_assoc, ← hsame, hheld] at hblocked
    cases hblocked
  · intro hunshadowed above ha
    have habove : ∀ n ∈ above, IsPlain n := fun n hm => hn n (ha.subset hm)
    rw [Bool.eq_false_iff]
    intro hheld
    apply hunshadowed _ hheld
    rw [hleaf, components_rooted (isPlain_append hplace habove)]
    exact (List.prefix_append_right_inj _).2 ha

/-- The turn of an entry, after those of all entries behind it. -/
theorem recordedBy_cons (hfs : ∀ name ∈ w.files.root.names, IsPlain name)
    (hroot : IsPlainRoot settings.target) (hsorted : IsSorted (entry :: later))
    (h : recordedBy w settings (entry :: later) = .ok after) :
    ∃ before added, recordedBy w settings later = .ok before ∧ after = before ++ added ∧
      ∀ target action, (target, action) ∈ added ↔
        Adds w settings entry before target action := by
  obtain ⟨before, hb, hadd⟩ := recordedBy_cons_eq_ok.1 h
  have hentry := hsorted.plain entry List.mem_cons_self
  obtain ⟨leaves, rfl, hiff⟩ := addEntry_eq_ok hfs hroot hentry hadd
  refine ⟨before, _, hb, rfl, ?_⟩
  intro target action
  rw [actionsAt, List.mem_map]
  constructor
  · rintro ⟨⟨names, leaf⟩, hm, he⟩
    cases he
    obtain ⟨hr, hfree⟩ := (hiff names leaf).1 hm
    refine ⟨rfl, (reachesLeaf_iff hfs hroot hentry).2 ⟨names, hr, rfl⟩, ?_⟩
    exact (isFree_iff_isUnshadowed hfs hroot hsorted hb (hr.plain hfs)).1 hfree
  · rintro ⟨hmethod, hreaches, hunshadowed⟩
    obtain ⟨names, hr, rfl⟩ := (reachesLeaf_iff hfs hroot hentry).1 hreaches
    have hfree := (isFree_iff_isUnshadowed hfs hroot hsorted hb (hr.plain hfs)).2 hunshadowed
    refine ⟨(names, action.source), (hiff _ _).2 ⟨hr, hfree⟩, ?_⟩
    rw [← hmethod]

end Turns

section Runs

variable {table : Table} {target : Path} {action : Action}

/-- An action is added in the turn of an entry, given all entries. -/
def AddedInTurn (w : World) (settings : Settings) (entries : List Entry) (entry : Entry)
    (target : Path) (action : Action) : Prop :=
  ∃ earlier later before, entries = earlier ++ entry :: later ∧
    recordedBy w settings later = .ok before ∧ Adds w settings entry before target action

/-- Everything in the table has been added in the turn of an entry, and what is added in a
turn stays in the table. -/
theorem mem_recordedBy_iff (hfs : ∀ name ∈ w.files.root.names, IsPlain name)
    (hroot : IsPlainRoot settings.target) (hsorted : IsSorted entries)
    (h : recordedBy w settings entries = .ok table) :
    (target, action) ∈ table ↔
      ∃ entry, AddedInTurn w settings entries entry target action := by
  induction entries generalizing table with
  | nil =>
    cases h
    constructor
    · intro hm
      cases hm
    · rintro ⟨_, earlier, later, _, he, _⟩
      exact absurd he (by simp)
  | cons first rest ih =>
    obtain ⟨before, added, hb, rfl, hadded⟩ := recordedBy_cons hfs hroot hsorted h
    rw [List.mem_append, ih hsorted.tail hb, hadded]
    constructor
    · rintro (⟨entry, earlier, later, held, rfl, hl, ha⟩ | ha)
      · exact ⟨entry, first :: earlier, later, held, rfl, hl, ha⟩
      · exact ⟨first, [], rest, before, rfl, hb, ha⟩
    · rintro ⟨entry, earlier, later, held, he, hl, ha⟩
      cases earlier with
      | nil =>
        cases he
        rw [hb] at hl
        cases hl
        exact .inr ha
      | cons other more =>
        cases he
        exact .inl ⟨entry, more, later, held, rfl, hl, ha⟩

/-- An entry reaches a target with one source at most. -/
theorem ReachesLeaf.unique (hfs : ∀ name ∈ w.files.root.names, IsPlain name)
    (hroot : IsPlainRoot settings.target) (he : IsPlainPath entry.target) {a b : Path}
    (ha : ReachesLeaf w settings entry target a) (hb : ReachesLeaf w settings entry target b) :
    a = b := by
  obtain ⟨names, hr, rfl⟩ := (reachesLeaf_iff hfs hroot he).1 ha
  obtain ⟨others, hr', hsame⟩ := (reachesLeaf_iff hfs hroot he).1 hb
  have hplace := place_plain hroot he
  have hnames := (rooted_inj (isPlain_append hplace (hr.plain hfs))
    (isPlain_append hplace (hr'.plain hfs))).1 hsame
  rw [List.append_cancel_left_eq] at hnames
  subst hnames
  exact hr.unique hr'

theorem holds_of_mem (h : (target, action) ∈ table) : table.holds target = true := by
  rw [Table.holds, List.any_eq_true]
  exact ⟨(target, action), h, by simp⟩

/-- In a run that succeeds, the last entries have taken their turns first. -/
theorem recordedBy_append {earlier later : List Entry}
    (h : recordedBy w settings (earlier ++ later) = .ok table) :
    ∃ before, recordedBy w settings later = .ok before := by
  obtain ⟨before, hb, _⟩ := turns_append_eq_ok_iff.1 h
  exact ⟨before, hb⟩

theorem IsSorted.append {earlier later : List Entry} (h : IsSorted (earlier ++ later)) :
    IsSorted later :=
  h.sublist (List.sublist_append_right _ _)

/-- No target is recorded twice. -/
theorem recordedBy_functional (hfs : ∀ name ∈ w.files.root.names, IsPlain name)
    (hroot : IsPlainRoot settings.target) (hsorted : IsSorted entries)
    (h : recordedBy w settings entries = .ok table) {other : Action}
    (ha : (target, action) ∈ table) (hb : (target, other) ∈ table) : action = other := by
  induction entries generalizing table with
  | nil =>
    cases h
    cases ha
  | cons first rest ih =>
    obtain ⟨before, added, hrest, rfl, hadded⟩ := recordedBy_cons hfs hroot hsorted h
    -- a turn adds nothing to a target that was recorded before it
    have hclear : ∀ {a b : Action}, (target, a) ∈ before → (target, b) ∈ added → False := by
      intro a b hm hm'
      have hunshadowed := ((hadded target b).1 hm').unshadowed
      exact hunshadowed target (holds_of_mem hm) (List.prefix_refl _)
    rcases List.mem_append.1 ha with ha | ha
    · rcases List.mem_append.1 hb with hb | hb
      · exact ih hsorted.tail hrest ha hb
      · exact (hclear ha hb).elim
    · rcases List.mem_append.1 hb with hb | hb
      · exact (hclear hb ha).elim
      · have hleft := (hadded target action).1 ha
        have hright := (hadded target other).1 hb
        have hsource := hleft.reaches.unique hfs hroot
          (hsorted.plain first List.mem_cons_self) hright.reaches
        have hmethod := hleft.method.trans hright.method.symm
        cases action
        cases other
        simp_all

theorem hasDistinctTargets_recordedBy (h : recordedBy w settings entries = .ok table) :
    HasDistinctTargets table := by
  induction entries generalizing table with
  | nil =>
    cases h
    exact List.nodup_nil
  | cons entry later ih =>
    obtain ⟨before, hb, hadd⟩ := recordedBy_cons_eq_ok.1 h
    exact hasDistinctTargets_visit (addEntry_eq_ok_iff.1 hadd).2 (ih hb)

/-- Where no target stands twice, a lookup finds exactly what the table lists. -/
theorem action?_eq_some_iff
    (hf : ∀ {a b}, (target, a) ∈ table → (target, b) ∈ table → a = b) :
    table.action? target = some action ↔ (target, action) ∈ table := by
  have hmem : ∀ {a}, table.action? target = some a → (target, a) ∈ table := by
    intro a ha
    obtain ⟨first, second, rfl, _⟩ := List.lookup_eq_some_iff.1 ha
    simp
  constructor
  · exact hmem
  · intro hm
    have hsome : (table.action? target).isSome = true := by
      rw [Table.action?, List.lookup_isSome_iff]
      exact ⟨(target, action), hm, by simp⟩
    obtain ⟨found, hfound⟩ := Option.isSome_iff_exists.1 hsome
    rw [hfound, hf (hmem hfound) hm]

end Runs

end Dotfiles.Compilation

namespace Dotfiles.Profile

open Dotfiles.Path Compilation

variable {w : World} {settings : Settings} {drives : Bool} {document : Value}
  {profile : Profile} {entries : List Entry} {compilation : Compilation}

theorem isSorted_entries (ht : ProfileTree.IsPlainTree profile.declarations.byComponent)
    (h : profile.entries.outcome = .ok entries) : IsSorted entries := by
  refine ⟨?_, pairwise_entries h ht⟩
  intro e he
  have hlaw := (mem_entries_iff h ht _ e).1 ⟨he, rfl⟩
  have hsome := ((ProfileTree.isSome_inherited?_iff _).1 (by rw [hlaw]; rfl)).1
  rw [ProfileTree.target_of_inherited? hlaw]
  exact isPlainPath_ofSegments (ht.keyed.of_isSome _ hsome)

/-- A compilation is the turns of all entries. -/
theorem compile_eq_ok_iff : (profile.compile w settings).outcome = .ok compilation ↔
    ∃ entries, profile.entries.outcome = .ok entries ∧
      recordedBy w settings entries = .ok compilation.table ∧
      compilation.diagnostics = profile.diagnostics := by
  unfold Profile.compile
  constructor
  · intro h
    obtain ⟨_, _, h⟩ := Traced.outcome_bind_eq_ok_iff.1 h
    obtain ⟨_, _, h⟩ := Traced.outcome_bind_eq_ok_iff.1 h
    obtain ⟨entries, he, h⟩ := Traced.outcome_bind_eq_ok_iff.1 h
    obtain ⟨_, _, h⟩ := Traced.outcome_bind_eq_ok_iff.1 h
    obtain ⟨table, ht, h⟩ := Traced.outcome_bind_eq_ok_iff.1 h
    obtain ⟨_, _, h⟩ := Traced.outcome_bind_eq_ok_iff.1 h
    cases h
    exact ⟨entries, he, ht, rfl⟩
  · rintro ⟨entries, he, ht, hd⟩
    refine Traced.outcome_bind_eq_ok_iff.2 ⟨(), rfl, ?_⟩
    refine Traced.outcome_bind_eq_ok_iff.2 ⟨(), rfl, ?_⟩
    refine Traced.outcome_bind_eq_ok_iff.2 ⟨entries, he, ?_⟩
    refine Traced.outcome_bind_eq_ok_iff.2 ⟨(), rfl, ?_⟩
    refine Traced.outcome_bind_eq_ok_iff.2 ⟨compilation.table, ht, ?_⟩
    refine Traced.outcome_bind_eq_ok_iff.2 ⟨(), rfl, ?_⟩
    rw [← hd]
    rfl

/-- Precedence and completeness. In its turn, each entry adds exactly the leaves that it
reaches whose target is neither recorded by an entry behind it nor below a target that is;
and the compiled table maps a target to an action if and only if one of the entries adds
it. -/
theorem compile_precedence (hread : (Profile.read drives document).outcome = .ok profile)
    (hfree : Declaration.IsFreeOfDotLines document)
    (hfs : ∀ name ∈ w.files.root.names, IsPlain name) (hroot : IsPlainRoot settings.target)
    (h : (profile.compile w settings).outcome = .ok compilation) :
    ∃ entries, profile.entries.outcome = .ok entries ∧
      recordedBy w settings entries = .ok compilation.table ∧
      (∀ earlier entry later, entries = earlier ++ entry :: later →
        ∃ before added, recordedBy w settings later = .ok before ∧
          recordedBy w settings (entry :: later) = .ok (before ++ added) ∧
          ∀ target action, (target, action) ∈ added ↔
            Adds w settings entry before target action) ∧
      ∀ target action, compilation.table.action? target = some action ↔
        ∃ entry, AddedInTurn w settings entries entry target action := by
  have ht := Profile.isPlainTree hread hfree
  obtain ⟨entries, he, hrecorded, _⟩ := compile_eq_ok_iff.1 h
  have hsorted := isSorted_entries ht he
  refine ⟨entries, he, hrecorded, ?_, ?_⟩
  · rintro earlier entry later rfl
    obtain ⟨after, hafter⟩ := recordedBy_append hrecorded
    obtain ⟨before, added, hb, rfl, hadded⟩ := recordedBy_cons hfs hroot hsorted.append hafter
    exact ⟨before, added, hb, hafter, hadded⟩
  · intro target action
    rw [action?_eq_some_iff (recordedBy_functional hfs hroot hsorted hrecorded),
      mem_recordedBy_iff hfs hroot hsorted hrecorded]

/-- A copied directory, whose file is declared apart. -/
def overlay : Value :=
  .map [(.text "a".toList, .map [(.text "~source".toList, .scalar (.text "s".toList)),
    (.text "b".toList, .scalar (.text "g".toList))])]

/-- The file of the directory, and the one that is declared apart. -/
def overlayWorld : World where
  files := ⟨.dir [("x".toList, .dir [
    ("s".toList, .dir [("b".toList, .file (.bytes []))]),
    ("g".toList, .file (.bytes []))])], []⟩
  environment := []
  users := []
  uid := 0
  platform := .posix

/-- The file that is declared apart is added in the turn of its own entry. -/
theorem compile_precedence_overlay :
    ∃ profile compilation entries entry,
      (Profile.read false overlay).outcome = .ok profile ∧
      (profile.compile overlayWorld ⟨"/x".toList, "/t".toList, 0⟩).outcome = .ok compilation ∧
      profile.entries.outcome = .ok entries ∧
      AddedInTurn overlayWorld ⟨"/x".toList, "/t".toList, 0⟩ entries entry "/t/a/b".toList
        ⟨"/x/g".toList, .copy⟩ := by
  obtain ⟨profile, hread, hentries⟩ : ∃ profile,
      (Profile.read false overlay).outcome = .ok profile ∧
      profile.entries.outcome = .ok [⟨"a".toList, "s".toList, .copy, false, ⟨[]⟩⟩,
        ⟨"a/b".toList, "g".toList, .copy, false, ⟨[]⟩⟩] :=
    ⟨_, rfl, entries_of_perm rfl (List.Perm.swap _ _ _) (by decide +kernel)⟩
  have hrecorded : recordedBy overlayWorld ⟨"/x".toList, "/t".toList, 0⟩
      [⟨"a".toList, "s".toList, .copy, false, ⟨[]⟩⟩,
        ⟨"a/b".toList, "g".toList, .copy, false, ⟨[]⟩⟩] =
      .ok [("/t/a/b".toList, ⟨"/x/g".toList, .copy⟩)] := by
    decide +kernel
  have hcompile : (profile.compile overlayWorld ⟨"/x".toList, "/t".toList, 0⟩).outcome =
      .ok ⟨[("/t/a/b".toList, ⟨"/x/g".toList, .copy⟩)], profile.diagnostics⟩ :=
    compile_eq_ok_iff.2 ⟨_, hentries, hrecorded, rfl⟩
  obtain ⟨entries, he, _, _, hiff⟩ := compile_precedence hread (by decide +kernel)
    (by decide +kernel) ⟨rfl, by decide, by decide, by decide⟩ hcompile
  obtain ⟨entry, hadded⟩ := (hiff "/t/a/b".toList ⟨"/x/g".toList, .copy⟩).1 rfl
  exact ⟨profile, _, entries, entry, hread, hcompile, he, hadded⟩

end Dotfiles.Profile
