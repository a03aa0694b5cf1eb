import Dotfiles.Proofs.Compile.Precedence

/-!
Where a walk comes to list a directory, and how it fails. A walk fails at one of the sources that it
looks at: a file call fails there, a directory is not what a template can be, or a directory is to
be listed and the ignore list does not compile. Otherwise it goes deeper than it may. A compilation
fails in the turn of one of its entries, after the turns of all entries behind it.
-/

namespace Dotfiles.Expansion

open Dotfiles.Path

/-- The error of an ignore list that does not compile. -/
def ignoreError (entry : Entry) : Glob.Failure → Error
  | .malformed defect glob => .badIgnoreList entry.target entry.ignore.globs defect glob
  | .reversedRange => .reversedRange

/-- A walk of at most the given number of levels comes to look at a source: at its own, or at one
below a name of the directory there, once the names in front of that name have been visited. -/
inductive LooksAt (fs : FileSystem) (entry : Entry) : Nat → Path → Path → Table → Path → Prop
  | here {depth : Nat} {target source : Path} {table : Table} (hfree : table.holds target = false) :
      LooksAt fs entry (depth + 1) target source table source
  | deeper {depth : Nat} {target source above found : Path} {table between : Table}
      {matcher : Matcher} {first rest : List Name} {name : Name}
      (hfree : table.holds target = false) (hs : Stands fs source above .dir)
      (hx : isExpanded entry = true) (hm : entry.ignore.compile = .ok matcher)
      (hl : fs.list above = .ok (first ++ name :: rest))
      (hfirst : (visitNames (visit fs entry depth) matcher target above first table).outcome =
        .ok between)
      (hi : matcher.isMatch name = false)
      (hbelow : LooksAt fs entry depth (join [target, name]) (join [above, name]) between found) :
      LooksAt fs entry (depth + 1) target source table found

/-- A walk comes to a directory that is to be listed: one that stands for a source it looks at. -/
def ComesTo (fs : FileSystem) (entry : Entry) (depth : Nat) (target source : Path) (table : Table)
    (dir : Path) : Prop :=
  ∃ found, LooksAt fs entry depth target source table found ∧ Stands fs found dir .dir ∧
    isExpanded entry = true

/-- Looking at a source takes a call on a path that fails: on the source itself, on what it is a link
to, or on the directory that is to be listed. -/
inductive CallFails (fs : FileSystem) (entry : Entry) (source : Path) :
    FileCall → Path → CallFailure → Prop
  | inspect {failure : CallFailure} (h : fs.inspect source = .error failure) :
      CallFails fs entry source .inspect source failure
  | readLink {failure : CallFailure} (hl : fs.inspect source = .ok .link)
      (h : fs.readLink source = .error failure) :
      CallFails fs entry source .readLink source failure
  | destination {destination : Path} {failure : CallFailure} (hl : fs.inspect source = .ok .link)
      (hd : fs.readLink source = .ok destination)
      (h : fs.inspect (join [parent source, destination]) = .error failure) :
      CallFails fs entry source .inspect (join [parent source, destination]) failure
  | list {dir : Path} {matcher : Matcher} {failure : CallFailure} (hs : Stands fs source dir .dir)
      (hx : isExpanded entry = true) (hm : entry.ignore.compile = .ok matcher)
      (h : fs.list dir = .error failure) :
      CallFails fs entry source .list dir failure

/-- What a walk fails with at a source that it looks at. -/
inductive FailsAt (fs : FileSystem) (entry : Entry) (source : Path) : Error → Prop
  | call {c : FileCall} {p : Path} {failure : CallFailure}
      (h : CallFails fs entry source c p failure) : FailsAt fs entry source (.ofCall c p failure)
  | template {leaf : Path} (hs : Stands fs source leaf .dir) (hx : isExpanded entry = false)
      (hm : entry.method = .template) : FailsAt fs entry source (.templateIsDirectory leaf)
  | ignore {dir : Path} {failure : Glob.Failure} (hs : Stands fs source dir .dir)
      (hx : isExpanded entry = true) (hc : entry.ignore.compile = .error failure) :
      FailsAt fs entry source (ignoreError entry failure)

variable {fs : FileSystem} {entry : Entry} {depth : Nat} {target source above dir : Path}
  {before between : Table} {matcher : Matcher} {first rest : List Name} {name : Name} {e : Error}
  {failure : Glob.Failure}

theorem ComesTo.stop (hfree : before.holds target = false) (hs : Stands fs source dir .dir)
    (hx : isExpanded entry = true) : ComesTo fs entry (depth + 1) target source before dir :=
  ⟨source, .here hfree, hs, hx⟩

theorem ComesTo.enter (hfree : before.holds target = false) (hs : Stands fs source above .dir)
    (hx : isExpanded entry = true) (hm : entry.ignore.compile = .ok matcher)
    (hl : fs.list above = .ok (first ++ name :: rest))
    (hfirst : (visitNames (visit fs entry depth) matcher target above first before).outcome =
      .ok between)
    (hi : matcher.isMatch name = false)
    (h : ComesTo fs entry depth (join [target, name]) (join [above, name]) between dir) :
    ComesTo fs entry (depth + 1) target source before dir := by
  obtain ⟨found, hlooks, hdir⟩ := h
  exact ⟨found, .deeper hfree hs hx hm hl hfirst hi hlooks, hdir⟩

section Steps

theorem outcome_call_eq_error_iff {α : Type} {c : FileCall} {p : Path}
    {result : Except CallFailure α} : (Traced.call c p result).outcome = .error e ↔
      ∃ failure, result = .error failure ∧ e = .ofCall c p failure := by
  rw [Traced.outcome_call]
  cases result <;> simp [Except.mapError, eq_comm]

/-- Finding what stands for a source fails in a file call only. -/
theorem oneHop_eq_error (entry : Entry) (h : (oneHop fs source).outcome = .error e) :
    ∃ c p failure, CallFails fs entry source c p failure ∧ e = .ofCall c p failure := by
  rcases Traced.outcome_bind_eq_error_iff.1 h with h | ⟨kind, hkind, h⟩
  · obtain ⟨failure, hfails, rfl⟩ := outcome_call_eq_error_iff.1 h
    exact ⟨_, _, _, .inspect hfails, rfl⟩
  · rw [outcome_call_eq_ok_iff] at hkind
    cases kind with
    | file => cases h
    | dir => cases h
    | link =>
      rcases Traced.outcome_bind_eq_error_iff.1 h with h | ⟨destination, hd, h⟩
      · obtain ⟨failure, hfails, rfl⟩ := outcome_call_eq_error_iff.1 h
        exact ⟨_, _, _, .readLink hkind hfails, rfl⟩
      · rw [outcome_call_eq_ok_iff] at hd
        rcases Traced.outcome_bind_eq_error_iff.1 h with h | ⟨resolved, hr, h⟩
        · cases h
        · cases hr
          rcases Traced.outcome_bind_eq_error_iff.1 h with h | ⟨_, _, h⟩
          · cases h
          · rcases Traced.outcome_bind_eq_error_iff.1 h with h | ⟨second, _, h⟩
            · obtain ⟨failure, hfails, rfl⟩ := outcome_call_eq_error_iff.1 h
              exact ⟨_, _, _, .destination hkind hd hfails, rfl⟩
            · cases second <;> cases h

theorem matcherOf_eq_error_iff : (matcherOf entry).outcome = .error e ↔
    ∃ failure, entry.ignore.compile = .error failure ∧ e = ignoreError entry failure := by
  unfold matcherOf
  cases hc : entry.ignore.compile with
  | ok matcher => cases entry.ignore.isEmpty <;> simp [bind]
  | error failure =>
    cases failure <;> cases entry.ignore.isEmpty <;> simp [bind, ignoreError, eq_comm]

theorem visitNames_cons_eq_error_iff {visit : Path → Path → Table → Traced Table}
    {matcher : Matcher} {name : Name} {rest : List Name} :
    (visitNames visit matcher target source (name :: rest) before).outcome = .error e ↔
      (matcher.isMatch name = true ∧
          (visitNames visit matcher target source rest before).outcome = .error e) ∨
        (matcher.isMatch name = false ∧
          ((visit (join [target, name]) (join [source, name]) before).outcome = .error e ∨
            ∃ between,
              (visit (join [target, name]) (join [source, name]) before).outcome = .ok between ∧
              (visitNames visit matcher target source rest between).outcome = .error e)) := by
  rw [visitNames]
  cases matcher.isMatch name with
  | true => simp [Traced.outcome_bind_eq_error_iff, -Traced.outcome_bind]
  | false => simp [Traced.outcome_bind_eq_error_iff, -Traced.outcome_bind]

/-- Visiting names fails at the first one whose visit does. -/
theorem visitNames_eq_error_iff {visit : Path → Path → Table → Traced Table} {matcher : Matcher}
    {listed : List Name} :
    (visitNames visit matcher target source listed before).outcome = .error e ↔
      ∃ first name rest between, listed = first ++ name :: rest ∧
        (visitNames visit matcher target source first before).outcome = .ok between ∧
        matcher.isMatch name = false ∧
        (visit (join [target, name]) (join [source, name]) between).outcome = .error e := by
  induction listed generalizing before with
  | nil =>
    constructor
    · intro h
      cases h
    · rintro ⟨first, name, rest, _, he, _⟩
      exact absurd he (by simp)
  | cons head others ih =>
    rw [visitNames_cons_eq_error_iff]
    constructor
    · rintro (⟨hmatch, h⟩ | ⟨hmatch, h | ⟨next, hv, h⟩⟩)
      · obtain ⟨first, name, rest, between, rfl, hfirst, hfree, h⟩ := ih.1 h
        exact ⟨head :: first, name, rest, between, rfl,
          visitNames_cons_eq_ok_iff.2 (.inl ⟨hmatch, hfirst⟩), hfree, h⟩
      · exact ⟨[], head, others, before, rfl, rfl, hmatch, h⟩
      · obtain ⟨first, name, rest, between, rfl, hfirst, hfree, h⟩ := ih.1 h
        exact ⟨head :: first, name, rest, between, rfl,
          visitNames_cons_eq_ok_iff.2 (.inr ⟨hmatch, next, hv, hfirst⟩), hfree, h⟩
    · rintro ⟨first, name, rest, between, he, hfirst, hfree, h⟩
      cases first with
      | nil =>
        cases he
        cases hfirst
        exact .inr ⟨hfree, .inl h⟩
      | cons other more =>
        cases he
        rcases visitNames_cons_eq_ok_iff.1 hfirst with ⟨hmatch, hfirst⟩ | ⟨hmatch, next, hv, hfirst⟩
        · exact .inl ⟨hmatch, ih.2 ⟨more, name, rest, between, rfl, hfirst, hfree, h⟩⟩
        · have hmore := ih.2 ⟨more, name, rest, between, rfl, hfirst, hfree, h⟩
          exact .inr ⟨hmatch, .inr ⟨next, hv, hmore⟩⟩

/-- How a visit fails: at its source, or below. -/
theorem visit_succ_eq_error
    (h : (visit fs entry (depth + 1) target source before).outcome = .error e) :
    before.holds target = false ∧
      (FailsAt fs entry source e ∨
        ∃ dir matcher listed, Stands fs source dir .dir ∧ isExpanded entry = true ∧
          entry.ignore.compile = .ok matcher ∧ fs.list dir = .ok listed ∧
          (visitNames (visit fs entry depth) matcher target dir listed before).outcome =
            .error e) := by
  rw [visit] at h
  cases hheld : before.holds target with
  | true =>
    rw [hheld, if_pos rfl] at h
    cases h
  | false =>
    rw [hheld, if_neg Bool.false_ne_true] at h
    refine ⟨rfl, ?_⟩
    rcases Traced.outcome_bind_eq_error_iff.1 h with h | ⟨⟨leaf, kind⟩, hhop, h⟩
    · obtain ⟨c, p, failure, hcall, rfl⟩ := oneHop_eq_error entry h
      exact .inl (.call hcall)
    · have hs := oneHop_eq_ok_iff.1 hhop
      simp only at h
      split at h
      · rename_i hx
        rcases Traced.outcome_bind_eq_error_iff.1 h with h | ⟨matcher, hm, h⟩
        · obtain ⟨failure, hc, rfl⟩ := matcherOf_eq_error_iff.1 h
          exact .inl (.ignore hs hx hc)
        · rw [matcherOf_eq_ok_iff] at hm
          rcases Traced.outcome_bind_eq_error_iff.1 h with h | ⟨listed, hl, h⟩
          · obtain ⟨failure, hfails, rfl⟩ := outcome_call_eq_error_iff.1 h
            exact .inl (.call (.list hs hx hm hfails))
          · exact .inr ⟨leaf, matcher, listed, hs, hx, hm, outcome_call_eq_ok_iff.1 hl, h⟩
      · rename_i hx
        split at h
        · rename_i hmethod
          cases h
          exact .inl (.template hs hx hmethod)
        · cases h
      · cases h

/-- A directory that an expanded entry comes to is gone through. -/
theorem outcome_visit_of_stands (hfree : before.holds target = false)
    (hs : Stands fs source dir .dir) (hx : isExpanded entry = true) :
    (visit fs entry (depth + 1) target source before).outcome =
      (matcherOf entry >>= fun matcher => Traced.call .list dir (fs.list dir) >>= fun listed =>
        visitNames (visit fs entry depth) matcher target dir listed before).outcome := by
  rw [visit, hfree, if_neg Bool.false_ne_true, Traced.outcome_bind, oneHop_eq_ok_iff.2 hs,
    Except.ok_bind]
  simp only [hx]

/-- A visit of a free target fails with whatever fails at its source. -/
theorem FailsAt.visit_succ_eq_error (h : FailsAt fs entry source e)
    (hfree : before.holds target = false) :
    (visit fs entry (depth + 1) target source before).outcome = .error e := by
  have hhop : (oneHop fs source).outcome = .error e →
      (visit fs entry (depth + 1) target source before).outcome = .error e := by
    intro hfails
    rw [visit, hfree, if_neg Bool.false_ne_true]
    exact Traced.outcome_bind_eq_error_iff.2 (.inl hfails)
  cases h with
  | call h =>
    cases h with
    | inspect h => exact hhop (by simp [oneHop, h, Except.mapError, bind])
    | readLink hl h => exact hhop (by simp [oneHop, hl, h, Except.mapError, bind])
    | destination hl hd h => exact hhop (by simp [oneHop, hl, hd, h, Except.mapError, bind])
    | list hs hx hm h =>
      rw [outcome_visit_of_stands hfree hs hx]
      refine Traced.outcome_bind_eq_error_iff.2 (.inr ⟨_, matcherOf_eq_ok_iff.2 hm, ?_⟩)
      exact Traced.outcome_bind_eq_error_iff.2 (.inl (outcome_call_eq_error_iff.2 ⟨_, h, rfl⟩))
  | template hs hx hm =>
    rw [visit, hfree, if_neg Bool.false_ne_true]
    refine Traced.outcome_bind_eq_error_iff.2 (.inr ⟨_, oneHop_eq_ok_iff.2 hs, ?_⟩)
    simp only [hx, if_pos hm]
    rfl
  | ignore hs hx hc =>
    rw [outcome_visit_of_stands hfree hs hx]
    exact Traced.outcome_bind_eq_error_iff.2 (.inl (matcherOf_eq_error_iff.2 ⟨_, hc, rfl⟩))

end Steps

section Walks

/-- A walk that comes to look at a source fails with what it fails with there. -/
theorem LooksAt.visit_eq_error {found : Path}
    (h : LooksAt fs entry depth target source before found) (hfails : FailsAt fs entry found e) :
    (visit fs entry depth target source before).outcome = .error e := by
  induction h with
  | here hfree => exact hfails.visit_succ_eq_error hfree
  | deeper hfree hs hx hm hl hfirst hi _ ih =>
    rw [outcome_visit_of_stands hfree hs hx]
    refine Traced.outcome_bind_eq_error_iff.2 (.inr ⟨_, matcherOf_eq_ok_iff.2 hm, ?_⟩)
    refine Traced.outcome_bind_eq_error_iff.2 (.inr ⟨_, outcome_call_eq_ok_iff.2 hl, ?_⟩)
    exact visitNames_eq_error_iff.2 ⟨_, _, _, _, rfl, hfirst, hi, ih hfails⟩

/-- How a walk fails. -/
theorem visit_eq_error (h : (visit fs entry depth target source before).outcome = .error e) :
    e = .tooDeep ∨ ∃ found, LooksAt fs entry depth target source before found ∧
      FailsAt fs entry found e := by
  induction depth generalizing target source before with
  | zero =>
    cases h
    exact .inl rfl
  | succ depth ih =>
    obtain ⟨hfree, hfails | ⟨dir, matcher, listed, hs, hx, hm, hl, h⟩⟩ :=
      visit_succ_eq_error h
    · exact .inr ⟨source, .here hfree, hfails⟩
    · obtain ⟨first, name, rest, between, rfl, hfirst, hi, h⟩ := visitNames_eq_error_iff.1 h
      refine (ih h).imp_right ?_
      rintro ⟨found, hlooks, hfails⟩
      exact ⟨found, .deeper hfree hs hx hm hl hfirst hi hlooks, hfails⟩

end Walks

end Dotfiles.Expansion

namespace Dotfiles.Compilation

open Dotfiles.Path Expansion

/-- Given all entries, one of them comes to look at a source in its turn. -/
def LooksInTurn (w : World) (settings : Settings) (entries : List Entry) (entry : Entry)
    (found : Path) : Prop :=
  ∃ earlier later before, entries = earlier ++ entry :: later ∧
    recordedBy w settings later = .ok before ∧ (entry.method = .link → w.platform.links = true) ∧
    LooksAt w.files entry (depthLimit w.files) (join [settings.target, entry.target])
      (join [settings.source, entry.source]) before found

/-- Given all entries, one of them comes to list a directory in its turn. -/
def ListsInTurn (w : World) (settings : Settings) (entries : List Entry) (entry : Entry)
    (dir : Path) : Prop :=
  ∃ earlier later before, entries = earlier ++ entry :: later ∧
    recordedBy w settings later = .ok before ∧ (entry.method = .link → w.platform.links = true) ∧
    ComesTo w.files entry (depthLimit w.files) (join [settings.target, entry.target])
      (join [settings.source, entry.source]) before dir

variable {w : World} {settings : Settings} {entry : Entry} {entries : List Entry} {before : Table}
  {dir : Path} {e : Error}

theorem outcome_addEntry : (addEntry w settings before entry).outcome =
    if entry.method = .link ∧ w.platform.links = false then
      .error (.linksUnsupported entry.source)
    else (visit w.files entry (depthLimit w.files) (join [settings.target, entry.target])
      (join [settings.source, entry.source]) before).outcome := by
  unfold addEntry
  by_cases h : entry.method = .link ∧ w.platform.links = false
  · rw [if_pos h, if_pos (by simpa using h)]
    rfl
  · rw [if_neg h, if_neg (by simpa using h)]
    rfl

/-- The turn of an entry comes after those of all entries behind it. -/
theorem recordedBy_cons_eq (later : List Entry) : recordedBy w settings (entry :: later) =
    recordedBy w settings later >>= fun before => (addEntry w settings before entry).outcome := by
  have happend : ∀ (first : List Entry) (before : Table),
      (addEntries w settings (first ++ [entry]) before).outcome =
        (addEntries w settings first before).outcome >>= fun between =>
          (addEntry w settings between entry).outcome := by
    intro first
    induction first with
    | nil =>
      intro before
      show (addEntry w settings before entry >>= fun table => pure table).outcome =
        (addEntry w settings before entry).outcome
      rw [Traced.outcome_bind]
      cases (addEntry w settings before entry).outcome <;> rfl
    | cons other more ih =>
      intro before
      rw [List.cons_append, addEntries, addEntries, Traced.outcome_bind, Traced.outcome_bind]
      cases (addEntry w settings before other).outcome with
      | error e => rfl
      | ok between => exact ih between
  rw [recordedBy, List.reverse_cons, happend]
  rfl

theorem recordedBy_cons_eq_error_iff {later : List Entry} :
    recordedBy w settings (entry :: later) = .error e ↔
      recordedBy w settings later = .error e ∨ ∃ before, recordedBy w settings later = .ok before ∧
        (addEntry w settings before entry).outcome = .error e := by
  rw [recordedBy_cons_eq]
  cases recordedBy w settings later <;> simp [bind, Except.bind]

/-- The entries fail in the turn of one of them. -/
theorem recordedBy_eq_error_iff : recordedBy w settings entries = .error e ↔
    ∃ earlier entry later before, entries = earlier ++ entry :: later ∧
      recordedBy w settings later = .ok before ∧
      (addEntry w settings before entry).outcome = .error e := by
  induction entries with
  | nil =>
    constructor
    · intro h
      cases h
    · rintro ⟨earlier, entry, later, _, he, _⟩
      exact absurd he (by simp)
  | cons first rest ih =>
    rw [recordedBy_cons_eq_error_iff, ih]
    constructor
    · rintro (⟨earlier, entry, later, before, rfl, hb, h⟩ | ⟨before, hb, h⟩)
      · exact ⟨first :: earlier, entry, later, before, rfl, hb, h⟩
      · exact ⟨[], first, rest, before, rfl, hb, h⟩
    · rintro ⟨earlier, entry, later, before, he, hb, h⟩
      cases earlier with
      | nil =>
        cases he
        exact .inr ⟨before, hb, h⟩
      | cons other more =>
        cases he
        exact .inl ⟨more, entry, later, before, rfl, hb, h⟩

end Dotfiles.Compilation

namespace Dotfiles.Profile

open Compilation

variable {w : World} {settings : Settings} {profile : Profile}

/-- A compilation resolves the profile and lets all entries take their turns. -/
theorem outcome_compile : (profile.compile w settings).outcome =
    profile.entries.outcome >>= fun entries =>
      (fun table => ⟨table, profile.diagnostics⟩) <$> recordedBy w settings entries := by
  unfold Profile.compile
  simp only [Traced.outcome_bind, Traced.outcome_emit, Except.ok_bind, Traced.outcome_pure]
  cases profile.entries.outcome with
  | error e => rfl
  | ok entries =>
    rw [Except.ok_bind, Except.ok_bind, recordedBy]
    cases (addEntries w settings entries.reverse []).outcome <;> rfl

end Dotfiles.Profile
