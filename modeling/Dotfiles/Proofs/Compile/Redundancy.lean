import Dotfiles.Proofs.Compile.Precedence
import Dotfiles.Proofs.Compile.Revisiting
import Dotfiles.Proofs.FileTree.LinkFree

/-!
An entry that says nothing new: one for a name in the directory of another entry, which it
continues by that name. It takes its turn first and records what the other entry would have
recorded for the name; the walk of the directory then meets only targets that the table holds.
So the table gets the same actions with the entry as without it, in another order.
-/

namespace Dotfiles.Compilation

open Dotfiles.Path Expansion

/-- Whether an entry is what another one would come to at a name of its directory. -/
structure Continues (settings : Settings) (entry : Entry) (name : Name) (extra : Entry) : Prop where
  alike : ExpandsAlike entry extra
  target : components extra.target = components entry.target ++ [name]
  source : join [settings.source, extra.source] = join [join [settings.source, entry.source], name]

/-- Whether the source of an entry is a directory, which the entry goes through, with a name in it
that the entry does not ignore. -/
structure GoesThrough (w : World) (settings : Settings) (entry : Entry) (name : Name) : Prop where
  expanded : isExpanded entry = true
  listed : ∃ listed, w.files.list (join [settings.source, entry.source]) = .ok listed ∧
    name ∈ listed
  visible : ∀ matcher, entry.ignore.compile = .ok matcher → matcher.isMatch name = false

variable {w : World} {settings : Settings} {entry extra : Entry} {entries : List Entry}
  {name : Name} {listed : List Name} {added before after table : Table}

section Turns

variable {other : List Name}

theorem Continues.place_eq (h : Continues settings entry name extra) :
    place settings extra = place settings entry ++ [name] := by
  rw [place, h.target, place, List.append_assoc]

/-- An entry continues another one if its target and its source do. -/
theorem continues_of_isPlainPath (hroot : IsPlainRoot settings.source)
    (htarget : IsPlainPath entry.target) (hsource : IsPlainPath entry.source)
    (hname : IsPlain name) :
    Continues settings entry name
      { entry with
        target := ofSegments (components entry.target ++ [name])
        source := ofSegments (components entry.source ++ [name]) } := by
  have hsingle : ∀ n ∈ [name], IsPlain n := by simpa using hname
  refine ⟨⟨rfl, rfl, rfl⟩, ?_, ?_⟩
  · exact components_ofSegments_plain (isPlain_append htarget.plain hsingle)
  · have hjoin := join_root hroot hsource.plain
    rw [hsource.eq] at hjoin
    rw [hjoin, join_rooted (by simp [hroot.ne_nil]) (isPlain_append hroot.plain hsource.plain)
      (isGrounded_append hroot.ne_nil hroot.grounded) hname,
      join_root hroot (isPlain_append hsource.plain hsingle), List.append_assoc]

/-- The turns of entries do not see what is elsewhere. -/
theorem bears_turns (hfs : ∀ name ∈ w.files.root.names, IsPlain name)
    (hroot : IsPlainRoot settings.target) (hplain : ∀ e ∈ entries, IsPlainPath e.target)
    (hclear : ∀ e ∈ entries, IsClearBelow added (place settings e)) :
    Bears added (turns w settings entries) := by
  induction entries with
  | nil =>
    intro before after table h hperm
    cases h
    exact ⟨table, rfl, hperm⟩
  | cons entry later ih =>
    rw [List.forall_mem_cons] at hplain hclear
    intro before after table h hperm
    obtain ⟨between, hlater, hadd⟩ := turns_cons_eq_ok_iff.1 h
    obtain ⟨next, hnext, hperm⟩ := ih hplain.2 hclear.2 before between table hlater hperm
    obtain ⟨hlinks, hwalk⟩ := addEntry_eq_ok_iff.1 hadd
    rw [join_target hroot hplain.1] at hwalk
    obtain ⟨table', hwalk', hperm⟩ := bears_visit hfs _ (place_ne_nil hroot)
      (place_plain hroot hplain.1) (place_isGrounded hroot) hclear.1 between after next hwalk hperm
    rw [← join_target hroot hplain.1] at hwalk'
    exact ⟨table', turns_cons_eq_ok_iff.2 ⟨next, hnext, addEntry_eq_ok_iff.2 ⟨hlinks, hwalk'⟩⟩,
      hperm⟩

/-- The turns of entries that are elsewhere change nothing at a place. -/
theorem keeps_turns (hfs : ∀ name ∈ w.files.root.names, IsPlain name)
    (hroot : IsPlainRoot settings.target) (hplain : ∀ e ∈ entries, IsPlainPath e.target)
    (hother : ∀ n ∈ other, IsPlain n) (hapart : ∀ e ∈ entries, AreApart other (place settings e)) :
    Keeps other (turns w settings entries) := by
  induction entries with
  | nil =>
    intro before after h
    cases h
    exact fun _ _ => rfl
  | cons entry later ih =>
    rw [List.forall_mem_cons] at hplain hapart
    intro before after h
    obtain ⟨between, hlater, hadd⟩ := turns_cons_eq_ok_iff.1 h
    have hwalk := (addEntry_eq_ok_iff.1 hadd).2
    rw [join_target hroot hplain.1] at hwalk
    have hkept := keeps_visit hfs _ (place_ne_nil hroot) (place_plain hroot hplain.1)
      (place_isGrounded hroot) hother hapart.1 between after hwalk
    exact (ih hplain.2 hapart.2 before between hlater).trans hkept

/-- An entry that comes between a directory and a name in it is elsewhere. -/
theorem Continues.areApart (h : Continues settings entry name extra) {e : Entry}
    (hfirst : components entry.target < components e.target)
    (hlast : components e.target < components extra.target) :
    AreApart (place settings extra) (place settings e) := by
  rw [AreApart, place, place, List.prefix_append_right_inj, List.prefix_append_right_inj]
  constructor
  · intro hp
    exact lt_asymm hlast (lt_of_isPrefix hp (ne_of_gt hlast))
  · intro hp
    rw [h.target] at hp hlast
    rcases List.prefix_concat_iff.1 hp with he | hp
    · exact ne_of_lt hlast he
    · exact lt_asymm hfirst (lt_of_isPrefix hp (ne_of_gt hfirst))

end Turns

section Directory

/-- The turn of an expanded entry goes through the names of the directory that is its source. -/
theorem addEntry_eq_ok_iff_of_list (hlinks : w.files.root.hasNoLinks = true)
    (hx : isExpanded entry = true)
    (hlist : w.files.list (join [settings.source, entry.source]) = .ok listed)
    (hfree : before.holds (join [settings.target, entry.target]) = false) :
    (addEntry w settings before entry).outcome = .ok after ↔
      (entry.method = .link → w.platform.links = true) ∧
        Stands w.files (join [settings.source, entry.source]) (join [settings.source, entry.source])
          .dir ∧
        ∃ matcher, entry.ignore.compile = .ok matcher ∧
          (visitNames (visit w.files entry (w.files.root.height + 999)) matcher
            (join [settings.target, entry.target]) (join [settings.source, entry.source]) listed
            before).outcome = .ok after := by
  have hdepth : depthLimit w.files = w.files.root.height + 999 + 1 := rfl
  rw [addEntry_eq_ok_iff, hdepth, visit_succ_eq_ok_iff]
  refine and_congr_right fun _ => ?_
  constructor
  · rintro (⟨hheld, _⟩ | ⟨_, leaf, kind, hs, hstep⟩)
    · rw [hfree] at hheld
      cases hheld
    · cases hs with
      | hop hl _ _ => exact absurd hl (FileSystem.inspect_ne_link hlinks)
      | self hk hne =>
        obtain rfl := FileSystem.kind_of_list hlinks hlist hk
        obtain ⟨hstop, _⟩ | ⟨_, _, matcher, names, hm, hl, h⟩ := hstep
        · exact absurd ⟨rfl, hx⟩ hstop
        · rw [hlist] at hl
          cases hl
          exact ⟨.self hk hne, matcher, hm, h⟩
  · rintro ⟨hs, matcher, hm, h⟩
    exact .inr ⟨hfree, _, .dir, hs, .inr ⟨rfl, hx, matcher, listed, hm, hlist, h⟩⟩

/-- What an expanded entry records for a name of its directory may be recorded before its turn,
by an entry that continues it. -/
theorem exists_added_before (hfs : ∀ name ∈ w.files.root.names, IsPlain name)
    (hlinks : w.files.root.hasNoLinks = true) (hroot : IsPlainRoot settings.target)
    (he : IsPlainPath entry.target) (hextra : IsPlainPath extra.target)
    (hcontinues : Continues settings entry name extra)
    (hthrough : GoesThrough w settings entry name)
    (hfree : before.holds (rooted (place settings entry)) = false)
    (h : (addEntry w settings before entry).outcome = .ok after) :
    ∃ added, LiesBelow (place settings extra) added ∧
      (∀ table, SameBelow (place settings extra) before table →
        (addEntry w settings table extra).outcome = .ok (table ++ added)) ∧
      ∀ table, table.Perm (before ++ added) →
        ∃ table', (addEntry w settings table entry).outcome = .ok table' ∧ table'.Perm after := by
  have hjoin := join_target hroot he
  rw [← hjoin] at hfree
  obtain ⟨listed, hlist, hin⟩ := hthrough.listed
  have hx := hthrough.expanded
  obtain ⟨hallowed, hs, matcher, hm, h⟩ := (addEntry_eq_ok_iff_of_list hlinks hx hlist hfree).1 h
  obtain ⟨hnodup, hlisted⟩ := FileSystem.list_eq_ok hlist
  rw [hjoin] at h
  obtain ⟨added, hadded, hextraturn, hagain⟩ := exists_added_for_name hfs (place_ne_nil hroot)
    (place_plain hroot he) (place_isGrounded hroot) (fun n hn => hfs n (hlisted n hn)) hnodup hin
    (hthrough.visible matcher hm) h
  rw [← hcontinues.place_eq] at hadded hextraturn
  refine ⟨added, hadded, fun table hsame => ?_, fun table hperm => ?_⟩
  · refine addEntry_eq_ok_iff.2 ⟨fun hl => hallowed (hcontinues.alike.method ▸ hl), ?_⟩
    rw [join_target hroot hextra, hcontinues.source]
    exact visit_mono (by simp [depthLimit]) hcontinues.alike (hextraturn table hsame)
  · -- nothing of what is added is at the place of the directory itself
    have hfree' : table.holds (join [settings.target, entry.target]) = false := by
      rw [holds_eq_of_perm hperm, holds_append, hfree, Bool.false_or, Bool.eq_false_iff, ne_eq,
        holds_iff_mem]
      intro hheld
      obtain ⟨x, hmem, htarget⟩ := List.mem_map.1 hheld
      obtain ⟨more, hmore, hat⟩ := hadded x hmem
      rw [htarget, hjoin, rooted_inj (place_plain hroot he)
        (isPlain_append (place_plain hroot hextra) hmore), hcontinues.place_eq] at hat
      simp at hat
    obtain ⟨table', hwalk, hdone⟩ := hagain table hperm
    rw [← hjoin] at hwalk
    refine ⟨table', (addEntry_eq_ok_iff_of_list hlinks hx hlist hfree').2 ?_, hdone⟩
    exact ⟨hallowed, hs, matcher, hm, hwalk⟩

end Directory

/-- No entry after another one records at the place of that one. -/
theorem holds_place_eq_false (hfs : ∀ name ∈ w.files.root.names, IsPlain name)
    (hroot : IsPlainRoot settings.target) (hsorted : IsSorted (entry :: entries))
    (h : recordedBy w settings entries = .ok table) :
    table.holds (rooted (place settings entry)) = false := by
  have hplace := place_plain hroot (hsorted.plain entry List.mem_cons_self)
  have hlater := hsorted.tail.plain
  rw [Bool.eq_false_iff]
  intro hheld
  obtain ⟨e, he, more, hmore, hat⟩ := holds_recordedBy hfs hroot hlater h hheld
  rw [rooted_inj hplace (isPlain_append (place_plain hroot (hlater e he)) hmore), place, place,
    List.append_assoc, List.append_cancel_left_eq] at hat
  have hlt := (List.pairwise_cons.1 hsorted.increasing).1 e he
  exact lt_asymm hlt (lt_of_isPrefix ⟨more, hat.symm⟩ (ne_of_gt hlt))

/-- With an entry that continues another one by a name of its directory, which is not ignored, the
same actions are recorded. -/
theorem recordedBy_continued (hfs : ∀ name ∈ w.files.root.names, IsPlain name)
    (hlinks : w.files.root.hasNoLinks = true) (hroot : IsPlainRoot settings.target)
    (hcontinues : Continues settings entry name extra)
    (hthrough : GoesThrough w settings entry name)
    {earlier between later : List Entry}
    (hsorted : IsSorted (earlier ++ entry :: (between ++ extra :: later)))
    (h : recordedBy w settings (earlier ++ entry :: (between ++ later)) = .ok table) :
    ∃ table', recordedBy w settings (earlier ++ entry :: (between ++ extra :: later)) = .ok table' ∧
      table'.Perm table := by
  have hplain := hsorted.plain
  have hincreasing := (List.pairwise_append.1 hsorted.increasing).2.1
  simp only [List.forall_mem_append, List.forall_mem_cons] at hplain
  obtain ⟨hearlier, hentry, hbetween, hextra, hlater⟩ := hplain
  rw [List.pairwise_cons, List.forall_mem_append, List.pairwise_append] at hincreasing
  have hapart : ∀ e ∈ between, AreApart (place settings extra) (place settings e) := fun e he =>
    hcontinues.areApart (hincreasing.1.1 e he) (hincreasing.2.2.2 e he extra List.mem_cons_self)
  have hplace := place_plain hroot hextra
  obtain ⟨table₂, hrun, hrunearlier⟩ := turns_append_eq_ok_iff.1 h
  obtain ⟨table₁, hrun, hturn⟩ := turns_cons_eq_ok_iff.1 hrun
  have hfree : table₁.holds (rooted (place settings entry)) = false := by
    refine holds_place_eq_false hfs hroot (hsorted.append.sublist ?_) hrun
    exact ((List.sublist_cons_self _ _).append_left _).cons_cons _
  obtain ⟨table₀, hrunlater, hrunbetween⟩ := turns_append_eq_ok_iff.1 hrun
  obtain ⟨added, hadded, hbefore, hafter⟩ := exists_added_before hfs hlinks hroot hentry hextra
    hcontinues hthrough hfree hturn
  have hkept := keeps_turns hfs hroot hbetween hplace hapart table₀ table₁ hrunbetween
  have hclear : ∀ e ∈ between, IsClearBelow added (place settings e) := fun e he =>
    hadded.isClearBelow (hapart e he).symm (place_plain hroot (hbetween e he)) hplace
  obtain ⟨table₁', hrunbetween', hperm⟩ :=
    bears_turns hfs hroot hbetween hclear table₀ table₁ _ hrunbetween (.refl _)
  obtain ⟨table₂', hturn', hperm⟩ := hafter table₁' hperm
  have hbears : Bears [] (turns w settings earlier) :=
    bears_turns hfs hroot hearlier fun _ _ _ _ => rfl
  obtain ⟨table', hrunearlier', hperm⟩ :=
    hbears table₂ table table₂' hrunearlier (by simpa using hperm)
  refine ⟨table', turns_append_eq_ok_iff.2 ⟨table₂', ?_, hrunearlier'⟩, by simpa using hperm⟩
  refine turns_cons_eq_ok_iff.2 ⟨table₁', turns_append_eq_ok_iff.2 ⟨_, ?_, hrunbetween'⟩, hturn'⟩
  exact turns_cons_eq_ok_iff.2 ⟨table₀, hrunlater, hbefore table₀ hkept.symm⟩

end Dotfiles.Compilation
