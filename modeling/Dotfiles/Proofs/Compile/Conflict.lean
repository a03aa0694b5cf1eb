import Dotfiles.Proofs.Compile.Precedence
import Mathlib.Data.List.Nodup

/-!
Path conflicts in the compiled table. The turns protect one direction only: nothing is
recorded below a target that is recorded already, but an entry whose own target lies above
others can still be recorded as a file after them. The table is free of conflicts exactly if
every such pair of leaves is ruled out by an entry behind both.
-/

namespace Dotfiles.Compilation

open Dotfiles.Path Expansion

/-- One target is a proper ancestor of another one. -/
def IsAbove (target below : Path) : Prop :=
  components target <+: components below ∧ components target ≠ components below

instance (target below : Path) : Decidable (IsAbove target below) :=
  inferInstanceAs (Decidable (_ ∧ _))

/-- No target of the table is a proper ancestor of another one. -/
def IsConflictFree (table : Table) : Prop :=
  ∀ target below, table.holds target = true → table.holds below = true → ¬ IsAbove target below

/-- The first entry takes its turn after the second one. -/
def Precedes (first second : Entry) : Prop := components first.target < components second.target

variable {w : World} {settings : Settings} {entry first second : Entry} {entries : List Entry}
  {table : Table} {target below : Path} {action other : Action}

section Leaves

/-- A walk does not go on from one of its leaves. -/
theorem eq_of_reaches_isPrefix {fs : FileSystem} {source a b : Path} {names others : List Name}
    (ha : Reaches fs entry source names a) (hb : Reaches fs entry source others b)
    (h : names <+: others) : names = others := by
  induction ha generalizing others with
  | stop hs hk =>
    cases hb with
    | stop _ _ => rfl
    | enter hs' hx _ _ _ _ _ =>
      obtain ⟨_, rfl⟩ := hs.unique hs'
      exact absurd ⟨rfl, hx⟩ hk
  | enter hs _ _ _ _ _ _ ih =>
    cases hb with
    | stop _ _ => exact absurd (List.prefix_nil.1 h) (by simp)
    | enter hs' _ _ _ _ _ hr' =>
      obtain ⟨rfl, _⟩ := hs.unique hs'
      obtain ⟨rfl, hrest⟩ := List.cons_prefix_cons.1 h
      rw [ih hr' hrest]

/-- No leaf of an entry lies above another one. -/
theorem not_isAbove_of_reachesLeaf (hfs : ∀ name ∈ w.files.root.names, IsPlain name)
    (hroot : IsPlainRoot settings.target) (he : IsPlainPath entry.target) {a b : Path}
    (ha : ReachesLeaf w settings entry target a) (hb : ReachesLeaf w settings entry below b) :
    ¬ IsAbove target below := by
  rintro ⟨habove, hne⟩
  obtain ⟨names, hr, rfl⟩ := (reachesLeaf_iff hfs hroot he).1 ha
  obtain ⟨others, hr', rfl⟩ := (reachesLeaf_iff hfs hroot he).1 hb
  have hplace := place_plain hroot he
  rw [components_rooted (isPlain_append hplace (hr.plain hfs)),
    components_rooted (isPlain_append hplace (hr'.plain hfs)),
    List.prefix_append_right_inj] at habove
  rw [eq_of_reaches_isPrefix hr hr' habove] at hne
  exact hne rfl

end Leaves

section Order

theorem AddedInTurn.mem (h : AddedInTurn w settings entries entry target action) :
    entry ∈ entries := by
  obtain ⟨earlier, later, _, rfl, _⟩ := h
  simp

theorem AddedInTurn.reaches (h : AddedInTurn w settings entries entry target action) :
    ReachesLeaf w settings entry target action.source := by
  obtain ⟨_, _, _, _, _, hadds⟩ := h
  exact hadds.reaches

theorem IsSorted.precedes {earlier later : List Entry}
    (h : IsSorted (earlier ++ entry :: later)) (he : second ∈ later) : Precedes entry second :=
  (List.pairwise_cons.1 h.append.increasing).1 second he

/-- What is added by an entry that takes its turn before another one is in the table when the
other one comes to its turn. -/
theorem AddedInTurn.of_precedes {earlier later : List Entry}
    (hsorted : IsSorted (earlier ++ entry :: later)) (hp : Precedes entry second)
    (h : AddedInTurn w settings (earlier ++ entry :: later) second target action) :
    AddedInTurn w settings later second target action := by
  obtain ⟨front, back, before, he, hb, hadds⟩ := h
  rcases List.append_eq_append_iff.1 he with ⟨between, rfl, hsplit⟩ | ⟨between, rfl, hsplit⟩
  · cases between with
    | nil =>
      cases hsplit
      exact absurd hp (lt_irrefl _)
    | cons next more =>
      cases hsplit
      exact ⟨more, back, before, rfl, hb, hadds⟩
  · cases between with
    | nil =>
      cases hsplit
      exact absurd hp (lt_irrefl _)
    | cons next more =>
      cases hsplit
      rw [he] at hsorted
      have hback : Precedes second entry := hsorted.precedes (by simp)
      exact absurd hback (lt_asymm hp)

theorem AddedInTurn.append (earlier : List Entry) {later : List Entry}
    (h : AddedInTurn w settings later entry target action) :
    AddedInTurn w settings (earlier ++ later) entry target action := by
  obtain ⟨front, back, before, rfl, hb, hadds⟩ := h
  exact ⟨earlier ++ front, back, before, (List.append_assoc _ _ _).symm, hb, hadds⟩

theorem holds_recordedBy_iff (hfs : ∀ name ∈ w.files.root.names, IsPlain name)
    (hroot : IsPlainRoot settings.target) (hsorted : IsSorted entries)
    (h : recordedBy w settings entries = .ok table) :
    table.holds target = true ↔
      ∃ entry action, AddedInTurn w settings entries entry target action := by
  constructor
  · intro ht
    rw [Table.holds, List.any_eq_true] at ht
    obtain ⟨⟨held, action⟩, hm, he⟩ := ht
    rw [decide_eq_true_eq] at he
    subst he
    obtain ⟨entry, hadded⟩ := (mem_recordedBy_iff hfs hroot hsorted h).1 hm
    exact ⟨entry, action, hadded⟩
  · rintro ⟨entry, action, hadded⟩
    exact holds_of_mem ((mem_recordedBy_iff hfs hroot hsorted h).2 ⟨entry, hadded⟩)

/-- An entry adds a leaf that it reaches, unless an entry behind it has added a target at or
above it. -/
theorem added_or_shadowed (hfs : ∀ name ∈ w.files.root.names, IsPlain name)
    (hroot : IsPlainRoot settings.target) (hsorted : IsSorted entries)
    (h : recordedBy w settings entries = .ok table) (he : entry ∈ entries) {source : Path}
    (hr : ReachesLeaf w settings entry target source) :
    AddedInTurn w settings entries entry target ⟨source, entry.method⟩ ∨
      ∃ behind held added, Precedes entry behind ∧
        AddedInTurn w settings entries behind held added ∧
        components held <+: components target := by
  obtain ⟨earlier, later, rfl⟩ := List.append_of_mem he
  obtain ⟨after, hafter⟩ := recordedBy_append h
  obtain ⟨before, hb, _⟩ := recordedBy_cons_eq_ok.1 hafter
  rcases Classical.em (IsUnshadowed before target) with hclear | hshadow
  · exact .inl ⟨earlier, later, before, rfl, hb, rfl, hr, hclear⟩
  · right
    unfold IsUnshadowed at hshadow
    push Not at hshadow
    obtain ⟨held, hheld, habove⟩ := hshadow
    obtain ⟨behind, added, hadded⟩ :=
      (holds_recordedBy_iff hfs hroot hsorted.append.tail hb).1 hheld
    have hlift : AddedInTurn w settings (entry :: later) behind held added :=
      hadded.append [entry]
    exact ⟨behind, held, added, hsorted.precedes hadded.mem, hlift.append earlier, habove⟩

/-- Nothing is added at or below a target that an entry behind has added. -/
theorem not_isPrefix_of_added (hfs : ∀ name ∈ w.files.root.names, IsPlain name)
    (hroot : IsPlainRoot settings.target) (hsorted : IsSorted entries)
    (ha : AddedInTurn w settings entries first target action)
    (hb : AddedInTurn w settings entries second below other) (hp : Precedes first second) :
    ¬ components below <+: components target := by
  obtain ⟨earlier, later, before, rfl, hbefore, hadds⟩ := ha
  have hlater := hb.of_precedes hsorted hp
  apply hadds.unshadowed
  exact (holds_recordedBy_iff hfs hroot hsorted.append.tail hbefore).2 ⟨second, other, hlater⟩

end Order

section Conflicts

/-- Wherever an entry reaches a leaf above one of an entry behind it, a third entry, behind
both, reaches a leaf at or above the first one. -/
def OverlapsShadowed (w : World) (settings : Settings) (entries : List Entry) : Prop :=
  ∀ first ∈ entries, ∀ second ∈ entries, Precedes first second →
    ∀ target below a b, ReachesLeaf w settings first target a →
      ReachesLeaf w settings second below b → IsAbove target below →
      ∃ third ∈ entries, Precedes second third ∧
        ∃ held c, ReachesLeaf w settings third held c ∧ components held <+: components target

/-- Of two entries, one takes its turn after the other, or they are the same. -/
theorem IsSorted.precedes_or (h : IsSorted entries) (hf : first ∈ entries)
    (hs : second ∈ entries) : Precedes first second ∨ first = second ∨ Precedes second first := by
  rcases lt_trichotomy (components first.target) (components second.target) with hlt | heq | hgt
  · exact .inl hlt
  · have hnodup : (entries.map fun e => components e.target).Nodup := by
      rw [List.Nodup, List.pairwise_map]
      exact h.increasing.imp fun hlt => ne_of_lt hlt
    exact .inr (.inl (List.inj_on_of_nodup_map hnodup hf hs heq))
  · exact .inr (.inr hgt)

theorem IsAbove.of_isPrefix {held : Path} (h : IsAbove target below)
    (hle : components held <+: components target) : IsAbove held below := by
  refine ⟨hle.trans h.1, ?_⟩
  intro he
  rw [he] at hle
  exact h.2 (h.1.eq_of_length_le hle.length_le)

variable (hfs : ∀ name ∈ w.files.root.names, IsPlain name) (hroot : IsPlainRoot settings.target)
  (hsorted : IsSorted entries) (h : recordedBy w settings entries = .ok table)

include hfs hroot hsorted h

/-- A table without conflicts has every overlap shadowed. Something at or above the upper leaf
is in the table, so what keeps the lower leaf out of it must be above both. -/
theorem overlapsShadowed_of_isConflictFree (hfree : IsConflictFree table) :
    OverlapsShadowed w settings entries := by
  intro first hf second hs _ target below a b hra hrb habove
  have hholds : ∀ {e t x}, AddedInTurn w settings entries e t x → table.holds t = true :=
    fun hadded => (holds_recordedBy_iff hfs hroot hsorted h).2 ⟨_, _, hadded⟩
  -- whatever is added at or above the upper leaf would be in conflict with the lower one
  have hdecide : ∀ {e t x}, AddedInTurn w settings entries e t x →
      components t <+: components target → ∃ third ∈ entries, Precedes second third ∧
        ∃ held c, ReachesLeaf w settings third held c ∧
          components held <+: components target := by
    intro e t x hadded hle
    have hconflict := habove.of_isPrefix hle
    rcases added_or_shadowed hfs hroot hsorted h hs hrb with hlow | hlow
    · exact absurd hconflict (hfree t below (hholds hadded) (hholds hlow))
    · obtain ⟨third, held, y, hp', hadded', hbelow⟩ := hlow
      refine ⟨third, hadded'.mem, hp', held, _, hadded'.reaches, ?_⟩
      rcases List.prefix_or_prefix_of_prefix hbelow hconflict.1 with hup | hdown
      · exact hup.trans hle
      · rcases Classical.em (components t = components held) with he | hne
        · rwa [← he]
        · exact absurd ⟨hdown, hne⟩ (hfree t held (hholds hadded) (hholds hadded'))
  rcases added_or_shadowed hfs hroot hsorted h hf hra with hup | hup
  · exact hdecide hup (List.prefix_refl _)
  · obtain ⟨behind, held, x, _, hadded, hle⟩ := hup
    exact hdecide hadded hle

/-- Where every overlap is shadowed, the table has no conflict. -/
theorem isConflictFree_of_overlapsShadowed (hshadowed : OverlapsShadowed w settings entries) :
    IsConflictFree table := by
  intro target below ht hb habove
  obtain ⟨first, x, hfirst⟩ := (holds_recordedBy_iff hfs hroot hsorted h).1 ht
  obtain ⟨second, y, hsecond⟩ := (holds_recordedBy_iff hfs hroot hsorted h).1 hb
  rcases hsorted.precedes_or hfirst.mem hsecond.mem with hlt | rfl | hgt
  · obtain ⟨third, hthird, hp, held, c, hreaches, hle⟩ := hshadowed first hfirst.mem second
      hsecond.mem hlt target below _ _ hfirst.reaches hsecond.reaches habove
    have hfar : Precedes first third := lt_trans hlt hp
    rcases added_or_shadowed hfs hroot hsorted h hthird hreaches with hadded | hadded
    · exact not_isPrefix_of_added hfs hroot hsorted hfirst hadded hfar hle
    · obtain ⟨behind, other, z, hp', hadded', hle'⟩ := hadded
      exact not_isPrefix_of_added hfs hroot hsorted hfirst hadded' (lt_trans hfar hp')
        (hle'.trans hle)
  · exact not_isAbove_of_reachesLeaf hfs hroot (hsorted.plain _ hfirst.mem) hfirst.reaches
      hsecond.reaches habove
  · exact not_isPrefix_of_added hfs hroot hsorted hsecond hfirst hgt habove.1

end Conflicts

end Dotfiles.Compilation

namespace Dotfiles.Profile

open Dotfiles.Path Compilation

variable {w : World} {settings : Settings} {drives : Bool} {document : Value}
  {profile : Profile} {compilation : Compilation}

/-- The compiled table is free of path conflicts exactly if every overlap between the leaves of
two entries is shadowed by a third entry. -/
theorem compile_isConflictFree_iff (hread : (Profile.read drives document).outcome = .ok profile)
    (hfree : Declaration.IsFreeOfDotLines document)
    (hfs : ∀ name ∈ w.files.root.names, IsPlain name) (hroot : IsPlainRoot settings.target)
    (h : (profile.compile w settings).outcome = .ok compilation) :
    ∃ entries, profile.entries.outcome = .ok entries ∧
      (IsConflictFree compilation.table ↔ OverlapsShadowed w settings entries) := by
  obtain ⟨entries, he, hrecorded, _⟩ := compile_eq_ok_iff.1 h
  have hsorted := isSorted_entries (Profile.isPlainTree hread hfree) he
  refine ⟨entries, he, ?_⟩
  constructor
  · exact overlapsShadowed_of_isConflictFree hfs hroot hsorted hrecorded
  · exact isConflictFree_of_overlapsShadowed hfs hroot hsorted hrecorded

/-- A file is declared for a target, and another one for a target below it. -/
def fileAbove : Value :=
  .map [(.text "a".toList, .map [(.text "~source".toList, .scalar (.text "f".toList)),
    (.text "b".toList, .scalar (.text "g".toList))])]

/-- The two files. -/
def twoFiles : World where
  files := ⟨.dir [("s".toList, .dir [("f".toList, .file (.bytes [])),
    ("g".toList, .file (.bytes []))])], []⟩
  environment := []
  users := []
  uid := 0
  platform := .posix

/-- The roots of the two files. -/
def twoRoots : Settings := ⟨"/s".toList, "/t".toList, 0⟩

/-- Both files are recorded, one of them below the other. -/
def fileAboveTable : Table :=
  [("/t/a/b".toList, ⟨"/s/g".toList, .copy⟩), ("/t/a".toList, ⟨"/s/f".toList, .copy⟩)]

theorem compile_fileAbove :
    ∃ profile compilation, (Profile.read false fileAbove).outcome = .ok profile ∧
      (profile.compile twoFiles twoRoots).outcome = .ok compilation ∧
      compilation.table = fileAboveTable := by
  obtain ⟨profile, hread, hentries⟩ : ∃ profile,
      (Profile.read false fileAbove).outcome = .ok profile ∧
      profile.entries.outcome = .ok [⟨"a".toList, "f".toList, .copy, false, ⟨[]⟩⟩,
        ⟨"a/b".toList, "g".toList, .copy, false, ⟨[]⟩⟩] :=
    ⟨_, rfl, entries_of_perm rfl (List.Perm.swap _ _ _) (by decide +kernel)⟩
  refine ⟨profile, ⟨fileAboveTable, profile.diagnostics⟩, hread, ?_, rfl⟩
  exact compile_eq_ok_iff.2 ⟨_, hentries, rfl, rfl⟩

theorem not_isConflictFree_fileAboveTable : ¬ IsConflictFree fileAboveTable := by
  intro hfree
  exact hfree "/t/a".toList "/t/a/b".toList rfl rfl (by decide)

/-- A target that is to be a file can be needed as a directory as well. -/
theorem compile_not_isConflictFree :
    ∃ profile compilation, (Profile.read false fileAbove).outcome = .ok profile ∧
      (profile.compile twoFiles twoRoots).outcome = .ok compilation ∧
      ¬ IsConflictFree compilation.table := by
  obtain ⟨profile, compilation, hread, hcompile, htable⟩ := compile_fileAbove
  refine ⟨profile, compilation, hread, hcompile, ?_⟩
  rw [htable]
  exact not_isConflictFree_fileAboveTable

/-- No third entry shadows the overlap of the two files. -/
theorem compile_isConflictFree_iff_fileAbove :
    ∃ profile entries, (Profile.read false fileAbove).outcome = .ok profile ∧
      profile.entries.outcome = .ok entries ∧
      ¬ OverlapsShadowed twoFiles twoRoots entries := by
  obtain ⟨profile, compilation, hread, hcompile, htable⟩ := compile_fileAbove
  obtain ⟨entries, he, hiff⟩ := compile_isConflictFree_iff hread (by decide +kernel)
    (by decide +kernel) ⟨rfl, by decide, by decide, by decide⟩ hcompile
  refine ⟨profile, entries, hread, he, ?_⟩
  rw [← hiff, htable]
  exact not_isConflictFree_fileAboveTable

end Dotfiles.Profile
