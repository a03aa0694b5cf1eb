import Dotfiles.Proofs.Compile.Listing
import Dotfiles.Proofs.Glob.Matching
import Dotfiles.Proofs.Profile.Resolving

/-!
Ignore lists that do not compile. They make a compilation fail where a directory is to be listed
for an entry that has one, and only there. The failure is a report of the entry's target and of
all its globs, unless a range in a class ends before it begins: that passes through unreported. So
does a file call with a path that cannot be handed to the system.
-/

namespace Dotfiles

open Dotfiles.Path

namespace Expansion

/-- The expansion of an entry from a source ends within the given number of levels. -/
def EndsWithin (fs : FileSystem) (entry : Entry) : Nat → Path → Prop
  | 0, _ => False
  | depth + 1, source => ∀ dir matcher listed name, Stands fs source dir .dir →
      isExpanded entry = true → entry.ignore.compile = .ok matcher → fs.list dir = .ok listed →
      name ∈ listed → matcher.isMatch name = false → EndsWithin fs entry depth (join [dir, name])

variable {fs : FileSystem} {entry : Entry} {depth : Nat} {target source : Path} {before : Table}

theorem FailsAt.ne_tooDeep {e : Error} (h : FailsAt fs entry source e) : e ≠ .tooDeep := by
  cases h with
  | @call c p failure _ => cases failure <;> simp [Error.ofCall]
  | template _ _ _ => simp
  | @ignore dir failure _ _ _ => cases failure <;> simp [ignoreError]

/-- A walk is cut off only where the expansion goes on. -/
theorem EndsWithin.visit_ne_tooDeep (h : EndsWithin fs entry depth source) :
    (visit fs entry depth target source before).outcome ≠ .error .tooDeep := by
  induction depth generalizing target source before with
  | zero => exact h.elim
  | succ depth ih =>
    intro hdeep
    obtain ⟨_, hfails | ⟨dir, matcher, listed, hs, hx, hm, hl, hnames⟩⟩ := visit_succ_eq_error hdeep
    · exact hfails.ne_tooDeep rfl
    · obtain ⟨first, name, rest, between, rfl, _, hi, hv⟩ := visitNames_eq_error_iff.1 hnames
      exact ih (h dir matcher _ name hs hx hm hl (by simp) hi) hv

/-- What is the failure of a call comes from one. -/
theorem FailsAt.of_call {call : FileCall} {p : Path} {failure : CallFailure}
    (h : FailsAt fs entry source (.ofCall call p failure)) :
    CallFails fs entry source call p failure := by
  generalize he : Error.ofCall call p failure = e at h
  cases h with
  | @call c q other h =>
    cases failure <;> cases other <;> cases he <;> exact h
  | template _ _ _ => cases failure <;> cases he
  | @ignore dir other _ _ _ => cases failure <;> cases other <;> cases he

/-- A call that fails for a defect of its path is one on a path that has it. -/
theorem CallFails.defect?_eq {call : FileCall} {p : Path} {defect : Path.Defect}
    (h : CallFails fs entry source call p (.unusable defect)) : p.defect? = some defect := by
  cases h with
  | inspect h | readLink _ h | destination _ _ h | list _ _ _ h =>
    exact (FileSystem.answer_eq_unusable_iff.1 h).1

end Expansion

namespace Compilation

open Expansion

variable {w : World} {settings : Settings} {entry : Entry} {entries : List Entry}
  {dir found : Path} {failure : Glob.Failure} {e : Error}

/-- An error is reported as one of an entry's ignore list, with the entry's target and all its
globs. -/
def ReportsGlobs (entry : Entry) (e : Error) : Prop :=
  ∃ report, e.report? = some report ∧ report.kind = .badIgnoreList ∧
    report.path = some (shown entry.target) ∧ report.globs = some entry.ignore.globs

theorem reportsGlobs_ignoreError_iff :
    ReportsGlobs entry (ignoreError entry failure) ↔ failure ≠ .reversedRange := by
  cases failure with
  | malformed defect glob => simp [ReportsGlobs, ignoreError, Error.report?, Report.badIgnoreList]
  | reversedRange => simp [ReportsGlobs, ignoreError, Error.report?]

theorem listsInTurn_iff : ListsInTurn w settings entries entry dir ↔
    ∃ found, LooksInTurn w settings entries entry found ∧ Stands w.files found dir .dir ∧
      isExpanded entry = true := by
  constructor
  · rintro ⟨earlier, later, before, he, hb, hlinks, found, hlooks, hdir⟩
    exact ⟨found, ⟨earlier, later, before, he, hb, hlinks, hlooks⟩, hdir⟩
  · rintro ⟨found, ⟨earlier, later, before, he, hb, hlinks, hlooks⟩, hdir⟩
    exact ⟨earlier, later, before, he, hb, hlinks, found, hlooks, hdir⟩

/-- The turn in which something fails is the last one. -/
theorem LooksInTurn.recordedBy_eq_error (h : LooksInTurn w settings entries entry found)
    (hfails : FailsAt w.files entry found e) : recordedBy w settings entries = .error e := by
  obtain ⟨earlier, later, before, rfl, hb, hlinks, hlooks⟩ := h
  refine recordedBy_eq_error_iff.2 ⟨earlier, entry, later, before, rfl, hb, ?_⟩
  rw [outcome_addEntry, if_neg (by simpa using hlinks)]
  exact hlooks.visit_eq_error hfails

theorem ListsInTurn.recordedBy_eq_error (h : ListsInTurn w settings entries entry dir)
    (hc : entry.ignore.compile = .error failure) :
    recordedBy w settings entries = .error (ignoreError entry failure) := by
  obtain ⟨found, hlooks, hs, hx⟩ := listsInTurn_iff.1 h
  exact hlooks.recordedBy_eq_error (.ignore hs hx hc)

/-- How the turns of all entries fail. -/
theorem recordedBy_eq_error (h : recordedBy w settings entries = .error e) :
    (∃ entry found, LooksInTurn w settings entries entry found ∧ FailsAt w.files entry found e) ∨
      (∃ source, e = .linksUnsupported source) ∨
      (e = .tooDeep ∧ ∃ entry ∈ entries, ¬ EndsWithin w.files entry (depthLimit w.files)
        (join [settings.source, entry.source])) := by
  obtain ⟨earlier, entry, later, before, rfl, hb, h⟩ := recordedBy_eq_error_iff.1 h
  rw [outcome_addEntry] at h
  split at h
  · cases h
    exact .inr (.inl ⟨_, rfl⟩)
  · rename_i hlinks
    rcases visit_eq_error h with rfl | ⟨found, hlooks, hfails⟩
    · exact .inr (.inr ⟨rfl, entry, by simp, fun hends => hends.visit_ne_tooDeep h⟩)
    · refine .inl ⟨entry, found, ⟨earlier, later, before, rfl, hb, ?_, hlooks⟩, hfails⟩
      simpa using hlinks

end Compilation

namespace Profile

open Compilation Expansion

variable {w : World} {settings : Settings} {profile : Profile} {entries : List Entry}
  {entry : Entry} {found : Path} {e : Error}

theorem compile_eq_error_iff : (profile.compile w settings).outcome = .error e ↔
    profile.entries.outcome = .error e ∨
      ∃ entries, profile.entries.outcome = .ok entries ∧
        recordedBy w settings entries = .error e := by
  rw [outcome_compile]
  cases profile.entries.outcome with
  | error e' => simp [bind, Except.bind]
  | ok entries =>
    rw [Except.ok_bind]
    cases hr : recordedBy w settings entries <;> simp [hr, Functor.map, Except.map]

/-- Where no name of the tree has a defect, a compilation ends at a source that has one. -/
theorem compile_eq_unusable {defect : Path.Defect}
    (hnames : ∀ name ∈ w.files.root.names, Path.defect? name = none)
    (he : profile.entries.outcome = .ok entries)
    (h : LooksInTurn w settings entries entry found) (hdefect : found.defect? = some defect) :
    (profile.compile w settings).outcome = .error (.unusablePath .inspect found defect) := by
  have hcall : CallFails w.files entry found .inspect found (.unusable defect) :=
    .inspect (FileSystem.eq_unusable_of_defect hnames hdefect).1
  exact compile_eq_error_iff.2 (.inr ⟨entries, he, h.recordedBy_eq_error (.call hcall)⟩)

/-- How a compilation fails. -/
theorem compile_eq_error (h : (profile.compile w settings).outcome = .error e) :
    (∃ entries entry found, profile.entries.outcome = .ok entries ∧
        LooksInTurn w settings entries entry found ∧ FailsAt w.files entry found e) ∨
      (∃ place, e = .unexpectedChildren place) ∨ (∃ source, e = .linksUnsupported source) ∨
      (e = .tooDeep ∧ ∃ entries, profile.entries.outcome = .ok entries ∧ ∃ entry ∈ entries,
        ¬ EndsWithin w.files entry (depthLimit w.files)
          (join [settings.source, entry.source])) := by
  rcases compile_eq_error_iff.1 h with h | ⟨entries, he, h⟩
  · exact .inr (.inl (entries_eq_error h))
  · rcases recordedBy_eq_error h with ⟨entry, found, hlooks, hfails⟩ | hlinks | ⟨rfl, hends⟩
    · exact .inl ⟨entries, entry, found, he, hlooks, hfails⟩
    · exact .inr (.inr (.inl hlinks))
    · exact .inr (.inr (.inr ⟨rfl, entries, he, hends⟩))

/-- Where a directory is to be listed for an entry with a glob that does not compile, the
compilation fails, and the entry's target and all its globs are reported unless what is wrong with
the list is a reversed range. A failure of that kind comes from such an entry always. A compilation
fails with a file call just where an entry comes to make one that fails. And whatever goes wrong
is reported but for a reversed range, unless a path cannot be handed to the system or the expansion
of some entry does not end. -/
theorem compile_ignoreError (w : World) (settings : Settings) (profile : Profile) :
    (∀ entries entry dir glob, profile.entries.outcome = .ok entries →
      ListsInTurn w settings entries entry dir → glob ∈ entry.ignore.globs →
      (GlobList.mk [glob]).compile.isOk = false →
      ∃ failure, entry.ignore.compile = .error failure ∧
        (profile.compile w settings).outcome = .error (ignoreError entry failure) ∧
        (ReportsGlobs entry (ignoreError entry failure) ↔ failure ≠ .reversedRange)) ∧
    (∀ e, (profile.compile w settings).outcome = .error e →
      (∃ report, e.report? = some report ∧ report.kind = .badIgnoreList) ∨ e = .reversedRange →
      ∃ entries entry dir failure, profile.entries.outcome = .ok entries ∧
        ListsInTurn w settings entries entry dir ∧ entry.ignore.compile = .error failure ∧
        e = ignoreError entry failure) ∧
    (∀ call p failure, (profile.compile w settings).outcome = .error (.ofCall call p failure) ↔
      ∃ entries entry found, profile.entries.outcome = .ok entries ∧
        LooksInTurn w settings entries entry found ∧
        CallFails w.files entry found call p failure) ∧
    ∀ e, (profile.compile w settings).outcome = .error e → e.report? = none →
      e = .reversedRange ∨
        (∃ call p defect, e = .unusablePath call p defect ∧ p.defect? = some defect) ∨
        (e = .tooDeep ∧ ∃ entries, profile.entries.outcome = .ok entries ∧ ∃ entry ∈ entries,
          ¬ EndsWithin w.files entry (depthLimit w.files)
            (join [settings.source, entry.source])) := by
  refine ⟨?_, ?_, ?_, ?_⟩
  · intro entries entry dir glob he hlists hglob hbad
    cases hc : entry.ignore.compile with
    | ok matcher =>
      have hall := (GlobList.isOk_compile_iff _).1 (Except.isOk_iff.2 ⟨matcher, hc⟩)
      rw [hall glob hglob] at hbad
      cases hbad
    | error failure =>
      exact ⟨failure, rfl,
        compile_eq_error_iff.2 (.inr ⟨entries, he, hlists.recordedBy_eq_error hc⟩),
        reportsGlobs_ignoreError_iff⟩
  · intro e h hkind
    rcases compile_eq_error h with ⟨entries, entry, found, he, hlooks, hfails⟩ | hother
    · cases hfails with
      | ignore hs hx hc =>
        exact ⟨entries, entry, _, _, he, listsInTurn_iff.2 ⟨found, hlooks, hs, hx⟩, hc, rfl⟩
      | @call c p failure _ =>
        cases failure <;> simp [Error.ofCall, Error.report?, Report.file] at hkind
      | template _ _ _ => simp [Error.report?, Report.templateIsDirectory, Report.about] at hkind
    · rcases hother with ⟨_, rfl⟩ | ⟨_, rfl⟩ | ⟨rfl, _⟩ <;>
        simp [Error.report?, Report.unexpectedChildren, Report.linksUnsupported, Report.about]
          at hkind
  · intro call p failure
    constructor
    · intro h
      rcases compile_eq_error h with ⟨entries, entry, found, he, hlooks, hfails⟩ | hother
      · exact ⟨entries, entry, found, he, hlooks, hfails.of_call⟩
      · cases failure <;> simp [Error.ofCall] at hother
    · rintro ⟨entries, entry, found, he, hlooks, hcall⟩
      exact compile_eq_error_iff.2 (.inr ⟨entries, he, hlooks.recordedBy_eq_error (.call hcall)⟩)
  · intro e h hnone
    rcases compile_eq_error h with ⟨_, _, _, _, _, hfails⟩ | ⟨_, rfl⟩ | ⟨_, rfl⟩ | hdeep
    · cases hfails with
      | @call c p failure hcall =>
        cases failure with
        | refused errno => cases hnone
        | unusable defect => exact .inr (.inl ⟨c, p, defect, rfl, hcall.defect?_eq⟩)
      | template _ _ _ => cases hnone
      | @ignore dir failure _ _ _ =>
        cases failure with
        | malformed defect glob => cases hnone
        | reversedRange => exact .inl rfl
    · cases hnone
    · cases hnone
    · exact .inr (.inr hdeep)

/-- A directory with a list of a single glob. -/
def globbed (glob : Text) : Value :=
  .map [(.text "a".toList, .map [(.text "~source".toList, .scalar (.text "s".toList)),
    (.text "~ignore".toList, .list [.scalar (.text glob)])])]

/-- The directory, with a file in it. -/
def globbedWorld : World where
  files := ⟨.dir [("x".toList, .dir [("s".toList, .dir [("f".toList, .file (.bytes []))])])], []⟩
  environment := []
  users := []
  uid := 0
  platform := .posix

theorem listsInTurn_globbed (ignore : GlobList) :
    ListsInTurn globbedWorld ⟨"/x".toList, "/t".toList, 0⟩
      [⟨"a".toList, "s".toList, .copy, false, ignore⟩]
      ⟨"a".toList, "s".toList, .copy, false, ignore⟩ "/x/s".toList := by
  have hjoin : join ["/x".toList, "s".toList] = "/x/s".toList := by decide +kernel
  have hs : Stands globbedWorld.files "/x/s".toList "/x/s".toList .dir :=
    .self (by decide +kernel) (by simp)
  refine ⟨[], [], [], rfl, rfl, by simp, ComesTo.stop rfl ?_ rfl⟩
  show Stands _ (join ["/x".toList, "s".toList]) _ _
  rw [hjoin]
  exact hs

/-- A class without its end is reported, with the target and the globs of the entry. -/
theorem compile_ignoreError_unclosedClass : ∃ profile e,
    (Profile.read false (globbed "[z".toList)).outcome = .ok profile ∧
    (profile.compile globbedWorld ⟨"/x".toList, "/t".toList, 0⟩).outcome = .error e ∧
    ReportsGlobs ⟨"a".toList, "s".toList, .copy, false, ⟨["[z".toList]⟩⟩ e := by
  obtain ⟨profile, hread, hentries⟩ : ∃ profile,
      (Profile.read false (globbed "[z".toList)).outcome = .ok profile ∧
      profile.entries.outcome = .ok [⟨"a".toList, "s".toList, .copy, false, ⟨["[z".toList]⟩⟩] :=
    ⟨_, rfl, entries_of_perm rfl (List.Perm.refl _) (by decide +kernel)⟩
  obtain ⟨failure, hc, hcompile, hreports⟩ :=
    (compile_ignoreError globbedWorld ⟨"/x".toList, "/t".toList, 0⟩ profile).1 _ _ _ "[z".toList
      hentries (listsInTurn_globbed _) (by simp) (by decide +kernel)
  refine ⟨profile, _, hread, hcompile, hreports.2 ?_⟩
  rintro rfl
  exact absurd hc (by decide +kernel)

/-- A reversed range passes through unreported. -/
theorem compile_reversedRange : ∃ profile entries entry dir,
    (Profile.read false (globbed "[z-a]".toList)).outcome = .ok profile ∧
    profile.entries.outcome = .ok entries ∧
    ListsInTurn globbedWorld ⟨"/x".toList, "/t".toList, 0⟩ entries entry dir ∧
    "[z-a]".toList ∈ entry.ignore.globs ∧
    (GlobList.mk ["[z-a]".toList]).compile.isOk = false ∧
    (profile.compile globbedWorld ⟨"/x".toList, "/t".toList, 0⟩).outcome = .error .reversedRange ∧
    Error.reversedRange.report? = none := by
  obtain ⟨profile, hread, hentries⟩ : ∃ profile,
      (Profile.read false (globbed "[z-a]".toList)).outcome = .ok profile ∧
      profile.entries.outcome = .ok [⟨"a".toList, "s".toList, .copy, false, ⟨["[z-a]".toList]⟩⟩] :=
    ⟨_, rfl, entries_of_perm rfl (List.Perm.refl _) (by decide +kernel)⟩
  have hfails : (GlobList.mk ["[z-a]".toList]).compile = .error .reversedRange := by decide +kernel
  have hlists := listsInTurn_globbed ⟨["[z-a]".toList]⟩
  refine ⟨profile, _, _, _, hread, hentries, hlists, by simp, by rw [hfails]; rfl, ?_, rfl⟩
  exact compile_eq_error_iff.2 (.inr ⟨_, hentries, hlists.recordedBy_eq_error hfails⟩)

end Profile

end Dotfiles
