import Dotfiles.Proofs.Compile.Listing
import Dotfiles.Proofs.Compile.WithoutLinks
import Dotfiles.Proofs.FileTree.Agreement

/-!
Ignored subtrees. A walk makes no call at or below a name that is ignored wherever its directory
is listed, so two source trees that agree everywhere else are compiled alike.
-/

namespace Dotfiles

open Dotfiles.Path FileTree

namespace Expansion

variable {fs fs' : FileSystem} {entry : Entry} {matcher : Matcher} {target source : Path}
  {listed : List Name} {before : Table}

section Names

variable {visit visit' : Path → Path → Table → Traced Table}

theorem outcome_visitNames_cons {name : Name} {rest : List Name} :
    (visitNames visit matcher target source (name :: rest) before).outcome =
      if matcher.isMatch name then (visitNames visit matcher target source rest before).outcome
      else (visit (join [target, name]) (join [source, name]) before).outcome >>= fun between =>
        (visitNames visit matcher target source rest between).outcome := by
  rw [visitNames]
  cases matcher.isMatch name with
  | true => rfl
  | false =>
    simp only [Bool.false_eq_true, if_false, Traced.outcome_bind, Traced.outcome_join,
      Except.ok_bind]

/-- Names that are ignored might as well not be listed. -/
theorem outcome_visitNames_filter :
    (visitNames visit matcher target source (listed.filter fun name => !matcher.isMatch name)
      before).outcome = (visitNames visit matcher target source listed before).outcome := by
  induction listed generalizing before with
  | nil => rfl
  | cons name rest ih =>
    rw [outcome_visitNames_cons]
    cases hmatch : matcher.isMatch name with
    | true => rw [List.filter_cons_of_neg (by simp [hmatch]), ih, if_pos rfl]
    | false =>
      rw [List.filter_cons_of_pos (by simp [hmatch]), outcome_visitNames_cons, hmatch,
        if_neg Bool.false_ne_true, if_neg Bool.false_ne_true]
      exact congrArg _ (funext fun between => ih)

/-- Names are visited in the same way if each of them is where it is come to. -/
theorem outcome_visitNames_congr (hvisit : ∀ first name rest between,
      listed = first ++ name :: rest → matcher.isMatch name = false →
      (visitNames visit matcher target source first before).outcome = .ok between →
      (visit (join [target, name]) (join [source, name]) between).outcome =
        (visit' (join [target, name]) (join [source, name]) between).outcome) :
    (visitNames visit matcher target source listed before).outcome =
      (visitNames visit' matcher target source listed before).outcome := by
  induction listed generalizing before with
  | nil => rfl
  | cons name rest ih =>
    rw [outcome_visitNames_cons, outcome_visitNames_cons]
    cases hmatch : matcher.isMatch name with
    | true =>
      rw [if_pos rfl, if_pos rfl]
      refine ih fun first other others between he hfree hfirst => ?_
      exact hvisit (name :: first) other others between (by rw [he]; rfl) hfree
        (visitNames_cons_eq_ok_iff.2 (.inl ⟨hmatch, hfirst⟩))
    | false =>
      rw [if_neg Bool.false_ne_true, if_neg Bool.false_ne_true,
        ← hvisit [] name rest before rfl hmatch rfl]
      cases hv : (visit (join [target, name]) (join [source, name]) before).outcome with
      | error e => rfl
      | ok next =>
        rw [Except.ok_bind, Except.ok_bind]
        refine ih fun first other others between he hfree hfirst => ?_
        exact hvisit (name :: first) other others between (by rw [he]; rfl) hfree
          (visitNames_cons_eq_ok_iff.2 (.inr ⟨hmatch, next, hv, hfirst⟩))

end Names

variable {dir place : List Name} {name : Name} {depth depth' : Nat}

/-- Two directories that agree but for an ignored name are gone through in the same way, if their
other names are. -/
theorem outcome_visitNames_agree {root root' : FileTree}
    {visit visit' : Path → Path → Table → Traced Table}
    {entries entries' : List (Name × FileTree)} (hagree : AgreeOutside (dir ++ [name]) root root')
    (hout : ¬ dir ++ [name] <+: place) (hat : root.at? place = some (.dir entries))
    (hat' : root'.at? place = some (.dir entries'))
    (hhere : place = dir → matcher.isMatch name = true)
    (hvisit : ∀ first other rest between, namesOf entries = first ++ other :: rest →
      other ∈ namesOf entries' → ¬ dir ++ [name] <+: place ++ [other] →
      matcher.isMatch other = false →
      (visitNames visit matcher target source first before).outcome = .ok between →
      (visit (join [target, other]) (join [source, other]) between).outcome =
        (visit' (join [target, other]) (join [source, other]) between).outcome) :
    (visitNames visit matcher target source (namesOf entries) before).outcome =
      (visitNames visit' matcher target source (namesOf entries') before).outcome := by
  have hapart : ∀ {other}, matcher.isMatch other = false → place ++ [other] ≠ dir ++ [name] := by
    intro other hfree he
    obtain ⟨hplace, hname⟩ := List.append_inj' he rfl
    cases hname
    rw [hhere hplace] at hfree
    cases hfree
  have hfilter : (namesOf entries).filter (fun n => !matcher.isMatch n) =
      (namesOf entries').filter fun n => !matcher.isMatch n := by
    refine hagree.filter_namesOf hout hat hat' fun other he => ?_
    rw [Bool.not_eq_false']
    by_contra hfree
    exact hapart (Bool.eq_false_iff.2 hfree) he
  calc (visitNames visit matcher target source (namesOf entries) before).outcome
    _ = (visitNames visit' matcher target source (namesOf entries) before).outcome := by
      refine outcome_visitNames_congr fun first other rest between he hfree hfirst => ?_
      have hne := hapart hfree
      have hin : other ∈ namesOf entries := by simp [he]
      refine hvisit first other rest between he
        ((hagree.mem_namesOf_iff hout hat hat' hne).1 hin) ?_
        hfree hfirst
      rw [List.prefix_concat_iff, not_or]
      exact ⟨hne.symm, hout⟩
    _ = _ := by
      rw [← outcome_visitNames_filter, hfilter, outcome_visitNames_filter]

/-- A walk that starts outside of a hidden place and comes to the directory above it only with
its name ignored does not tell trees apart that agree elsewhere. -/
theorem outcome_visit_congr (hfs : fs.IsSimple) (hfs' : fs'.IsSimple)
    (hagree : AgreeOutside (dir ++ [name]) fs.root fs'.root) (hne : place ≠ [])
    (hplace : ∀ n ∈ place, IsPlain n) (hg : IsGrounded place) (hout : ¬ dir ++ [name] <+: place)
    (hd : Suffices fs.root place depth) (hd' : Suffices fs'.root place depth')
    (hhide : ∀ listed matcher, ComesTo fs entry depth target (rooted place) before listed →
      components listed = dir → entry.ignore.compile = .ok matcher → matcher.isMatch name = true) :
    (visit fs entry depth target (rooted place) before).outcome =
      (visit fs' entry depth' target (rooted place) before).outcome := by
  -- on the depth of one walk; that of the other one follows from the height of its tree
  induction depth generalizing place depth' target before with
  | zero => exact absurd hd.pos (Nat.lt_irrefl 0)
  | succ depth ih =>
    obtain ⟨depth', rfl⟩ := Nat.exists_eq_succ_of_ne_zero hd'.pos.ne'
    cases hheld : before.holds target with
    | true =>
      have hskip : ∀ {fs : FileSystem} {depth : Nat},
          (visit fs entry (depth + 1) target (rooted place) before).outcome = .ok before :=
        visit_succ_eq_ok_iff.2 (.inl ⟨hheld, rfl⟩)
      rw [hskip, hskip]
    | false =>
      have hsame := hagree.seek hout
      cases hs : fs.root.seek place with
      | error errno =>
        rw [hs] at hsame
        have hs' := Except.map_eq_error_iff.1 hsame.symm
        rw [outcome_visit_of_error hfs hne hplace hs hheld,
          outcome_visit_of_error hfs' hne hplace hs' hheld]
      | ok node =>
        rw [hs] at hsame
        obtain ⟨node', hs', hkind⟩ := Except.map_eq_ok_iff.1 hsame.symm
        have hat := seek_eq_ok_iff.1 hs
        have hat' := seek_eq_ok_iff.1 hs'
        cases node with
        | link destination => exact absurd hat (at?_ne_link hfs.noLinks _ _)
        | file content =>
          obtain ⟨content', rfl⟩ := eq_file_of_kind hkind
          rw [outcome_visit_of_file hfs hne hplace hat hheld,
            outcome_visit_of_file hfs' hne hplace hat' hheld]
        | dir entries =>
          obtain ⟨entries', rfl⟩ := eq_dir_of_kind hkind
          rw [outcome_visit_of_dir hfs hne hplace hat hheld,
            outcome_visit_of_dir hfs' hne hplace hat' hheld]
          cases hx : isExpanded entry with
          | false => rw [if_neg Bool.false_ne_true, if_neg Bool.false_ne_true]
          | true =>
            rw [if_pos rfl, if_pos rfl]
            cases hm : (matcherOf entry).outcome with
            | error e => rw [Except.error_bind, Except.error_bind]
            | ok matcher =>
              rw [Except.ok_bind, Except.ok_bind]
              have hc := matcherOf_eq_ok_iff.1 hm
              have hstands := stands_of_at? hfs hne hplace hat
              refine outcome_visitNames_agree hagree hout hat hat' ?_ ?_
              · intro he
                refine hhide (rooted place) matcher (.stop hheld hstands hx) ?_ hc
                rw [components_rooted hplace, he]
              · intro first other rest between he hin' hout' hfree hfirst
                have hin : other ∈ namesOf entries := by simp [he]
                have hother := plain_of_at? hfs hat other hin
                have hlist := list_of_at? hfs hne hplace hat
                rw [he] at hlist
                have hjoin := join_rooted hne hplace hg hother
                rw [hjoin]
                refine ih (by simp) (isPlain_append hplace (by simpa using hother))
                  (isGrounded_append hne hg) hout' (hd.below hat hin) (hd'.below hat' hin') ?_
                intro listed matcher' hcomes
                rw [← hjoin] at hcomes
                exact hhide listed matcher' (.enter hheld hstands hx hc hlist hfirst hfree hcomes)

end Expansion

namespace Compilation

open Expansion

variable {w : World} {settings : Settings} {entry : Entry} {entries later : List Entry}
  {files : FileSystem} {dir : List Name} {name : Name}

/-- An entry whose source is neither at nor below a hidden place, and which lists the directory
above it only with the name ignored, adds the same in its turn. -/
theorem outcome_addEntry_congr (hfs : w.files.IsSimple) (hfiles : files.IsSimple)
    (hagree : AgreeOutside (dir ++ [name]) w.files.root files.root)
    (hroot : IsPlainRoot settings.source) (hplain : IsPlainPath entry.source)
    (hout : ¬ dir ++ [name] <+: components settings.source ++ components entry.source)
    {before : Table}
    (hhide : (entry.method = .link → w.platform.links = true) → ∀ listed matcher,
      ComesTo w.files entry (depthLimit w.files) (join [settings.target, entry.target])
        (join [settings.source, entry.source]) before listed →
      components listed = dir → entry.ignore.compile = .ok matcher → matcher.isMatch name = true) :
    (addEntry { w with files } settings before entry).outcome =
      (addEntry w settings before entry).outcome := by
  rw [outcome_addEntry, outcome_addEntry]
  by_cases hlinks : entry.method = .link ∧ w.platform.links = false
  · rw [if_pos hlinks, if_pos hlinks]
  · rw [if_neg hlinks, if_neg hlinks]
    have hcomes := hhide (by simpa using hlinks)
    rw [hroot.join_plainPath hplain] at hcomes ⊢
    exact (outcome_visit_congr hfs hfiles hagree (by simp [hroot.ne_nil])
      (isPlain_append hroot.plain hplain.plain) (isGrounded_append hroot.ne_nil hroot.grounded) hout
      (suffices_depthLimit _ _) (suffices_depthLimit _ _) hcomes).symm

/-- The turns of entries that keep away from a hidden place come out the same. -/
theorem recordedBy_congr (hfs : w.files.IsSimple) (hfiles : files.IsSimple)
    (hagree : AgreeOutside (dir ++ [name]) w.files.root files.root)
    (hroot : IsPlainRoot settings.source) (hplain : ∀ e ∈ entries, IsPlainPath e.source)
    (hout : ∀ e ∈ entries, ¬ dir ++ [name] <+: components settings.source ++ components e.source)
    (hlists : ∀ entry listed matcher, ListsInTurn w settings entries entry listed →
      components listed = dir → entry.ignore.compile = .ok matcher → matcher.isMatch name = true)
    (hlater : later <:+ entries) :
    recordedBy { w with files } settings later = recordedBy w settings later := by
  induction later with
  | nil => rfl
  | cons entry later ih =>
    obtain ⟨earlier, rfl⟩ := hlater
    rw [recordedBy_cons_eq, recordedBy_cons_eq, ih ⟨earlier ++ [entry], by simp⟩]
    cases hb : recordedBy w settings later with
    | error e => rw [Except.error_bind, Except.error_bind]
    | ok before =>
      rw [Except.ok_bind, Except.ok_bind]
      refine outcome_addEntry_congr hfs hfiles hagree hroot (hplain entry (by simp))
        (hout entry (by simp)) fun hlinks listed matcher hcomes => ?_
      exact hlists entry listed matcher ⟨earlier, later, before, rfl, hb, hlinks, hcomes⟩

end Compilation

namespace Profile

open Compilation Expansion

variable {w : World} {settings : Settings} {drives : Bool} {document : Value} {profile : Profile}
  {files : FileSystem}

/-- Ignored subtrees are irrelevant. Let two source trees agree everywhere except at and below one
name of one directory. If that name is ignored by every entry that lists the directory in its turn,
and no entry has its source at or below it, a profile is compiled to the same table, or fails with
the same error, in both of them. -/
theorem compile_eq_of_agreeOutside (dir : List Name) (name : Name)
    (hread : (Profile.read drives document).outcome = .ok profile)
    (hfree : Declaration.IsFreeOfDotLines document) (hfs : w.files.IsSimple)
    (hfiles : files.IsSimple) (hsource : IsPlainRoot settings.source)
    (hagree : AgreeOutside (dir ++ [name]) w.files.root files.root)
    (hlists : ∀ entries entry listed matcher, profile.entries.outcome = .ok entries →
      ListsInTurn w settings entries entry listed → components listed = dir →
      entry.ignore.compile = .ok matcher → matcher.isMatch name = true)
    (hout : ∀ entries, profile.entries.outcome = .ok entries → ∀ entry ∈ entries,
      ¬ dir ++ [name] <+: components settings.source ++ components entry.source) :
    (profile.compile { w with files } settings).outcome = (profile.compile w settings).outcome := by
  have ht := Profile.isPlainTree hread hfree
  rw [outcome_compile, outcome_compile]
  cases he : profile.entries.outcome with
  | error e => rw [Except.error_bind, Except.error_bind]
  | ok entries =>
    have hsame := recordedBy_congr hfs hfiles hagree hsource
      (fun e hm => isPlainPath_source he ht hm)
      (hout entries he) (fun entry listed matcher => hlists entries entry listed matcher he)
      (List.suffix_refl entries)
    rw [Except.ok_bind, Except.ok_bind, hsame]

/-- A copied directory that ignores one of its names. -/
def caching : Value :=
  .map [(.text "a".toList, .map [(.text "~source".toList, .scalar (.text "s".toList)),
    (.text "~ignore".toList, .list [.scalar (.text "cache".toList)])])]

/-- The directory, with something under the name that is ignored. -/
def cachedFiles (cache : FileTree) : FileSystem :=
  ⟨.dir (setEntry "x".toList (.dir (setEntry "s".toList (.dir (setEntry "cache".toList cache
    [("f".toList, .file (.bytes []))])) [])) []), []⟩

def cachedWorld : World where
  files := cachedFiles (.file (.bytes []))
  environment := []
  users := []
  uid := 0
  platform := .posix

def cachedRoots : Settings := ⟨"/x".toList, "/t".toList, 0⟩

/-- It makes no difference whether the name that is ignored is that of a file or of a directory. -/
theorem compile_eq_of_agreeOutside_cache : ∃ profile,
    (Profile.read false caching).outcome = .ok profile ∧
    (profile.compile
      { cachedWorld with files := cachedFiles (.dir [("g".toList, .file (.bytes []))]) }
      cachedRoots).outcome = (profile.compile cachedWorld cachedRoots).outcome := by
  obtain ⟨profile, hread, hentries⟩ : ∃ profile,
      (Profile.read false caching).outcome = .ok profile ∧ profile.entries.outcome =
        .ok [⟨"a".toList, "s".toList, .copy, false, ⟨["cache".toList]⟩⟩] :=
    ⟨_, rfl, entries_of_perm rfl (List.Perm.refl _) (by decide +kernel)⟩
  obtain ⟨matcher, hm, hmatch⟩ : ∃ matcher, (GlobList.mk ["cache".toList]).compile = .ok matcher ∧
      matcher.isMatch "cache".toList = true :=
    ⟨_, rfl, by decide +kernel⟩
  have hsource : IsPlainRoot cachedRoots.source := ⟨rfl, by decide, by decide, by decide⟩
  have hagree := (((agreeOutside_nil (.file (.bytes []))
    (.dir [("g".toList, .file (.bytes []))])).setEntry
    "cache".toList [("f".toList, .file (.bytes []))]).setEntry "s".toList []).setEntry "x".toList []
  refine ⟨profile, hread, compile_eq_of_agreeOutside ["x".toList, "s".toList] _ hread
    (by decide +kernel) ⟨by decide +kernel, rfl, by decide +kernel⟩
    ⟨by decide +kernel, rfl, by decide +kernel⟩ hsource hagree ?_ ?_⟩
  · intro entries entry listed found he hlists _ hc
    cases hentries.symm.trans he
    obtain ⟨earlier, later, _, hsplit, _⟩ := hlists
    have hentry : entry ∈ earlier ++ entry :: later := by simp
    rw [← hsplit] at hentry
    cases List.mem_singleton.1 hentry
    cases hm.symm.trans hc
    exact hmatch
  · intro entries he
    cases hentries.symm.trans he
    decide +kernel

end Profile

end Dotfiles
