import Dotfiles.Proofs.Compile.Ignoring

/-!
Walking the same way again. A walk that meets only targets which the table holds adds nothing,
so a second walk over what a first one has recorded changes nothing. And a walk does not see
what the table holds elsewhere: it adds the same to every table that holds the same targets at
and below its place.
-/

namespace Dotfiles.Expansion

open Dotfiles.Path

variable {fs : FileSystem} {entry entry' : Entry} {matcher : Matcher} {target source : Path}
  {listed : List Name} {before between after table : Table}

/-- Whether entries are expanded in the same way, from wherever they start. -/
structure ExpandsAlike (entry entry' : Entry) : Prop where
  method : entry'.method = entry.method
  recursive : entry'.recursive = entry.recursive
  ignore : entry'.ignore = entry.ignore

section Fuel

theorem ExpandsAlike.isExpanded (h : ExpandsAlike entry entry') :
    isExpanded entry' = isExpanded entry := by
  rw [Expansion.isExpanded, Expansion.isExpanded, h.method, h.recursive]

theorem visitNames_mono {visit visit' : Path → Path → Table → Traced Table}
    (hvisit : ∀ {target source : Path} {before after : Table},
      (visit target source before).outcome = .ok after →
      (visit' target source before).outcome = .ok after)
    (h : (visitNames visit matcher target source listed before).outcome = .ok after) :
    (visitNames visit' matcher target source listed before).outcome = .ok after := by
  induction listed generalizing before with
  | nil => exact h
  | cons name others ih =>
    rcases visitNames_cons_eq_ok_iff.1 h with ⟨hmatch, h⟩ | ⟨hmatch, between, hv, h⟩
    · exact visitNames_cons_eq_ok_iff.2 (.inl ⟨hmatch, ih h⟩)
    · exact visitNames_cons_eq_ok_iff.2 (.inr ⟨hmatch, between, hvisit hv, ih h⟩)

/-- A walk that succeeds would do the same if it might go deeper. -/
theorem visit_mono {depth depth' : Nat} (hle : depth ≤ depth') (he : ExpandsAlike entry entry')
    (h : (visit fs entry depth target source before).outcome = .ok after) :
    (visit fs entry' depth' target source before).outcome = .ok after := by
  induction depth generalizing depth' target source before after with
  | zero => cases h
  | succ depth ih =>
    obtain ⟨more, rfl⟩ := Nat.exists_eq_add_of_le hle
    rw [Nat.add_right_comm]
    rcases visit_succ_eq_ok_iff.1 h with hheld | ⟨hfree, leaf, kind, hs, hstep⟩
    · exact visit_succ_eq_ok_iff.2 (.inl hheld)
    · refine visit_succ_eq_ok_iff.2 (.inr ⟨hfree, leaf, kind, hs, ?_⟩)
      rw [he.isExpanded, he.method, he.ignore]
      refine hstep.imp_right ?_
      rintro ⟨hk, hx, matcher, listed, hm, hl, h⟩
      exact ⟨hk, hx, matcher, listed, hm, hl,
        visitNames_mono (fun hv => ih (Nat.le_add_right depth more) hv) h⟩

end Fuel

section Again

theorem isPrefix_visitNames {visit : Path → Path → Table → Traced Table}
    (hvisit : ∀ {target source : Path} {before after : Table},
      (visit target source before).outcome = .ok after → before <+: after)
    (h : (visitNames visit matcher target source listed before).outcome = .ok after) :
    before <+: after := by
  induction listed generalizing before with
  | nil =>
    cases h
    exact List.prefix_refl _
  | cons name others ih =>
    rcases visitNames_cons_eq_ok_iff.1 h with ⟨_, h⟩ | ⟨_, between, hv, h⟩
    · exact ih h
    · exact (hvisit hv).trans (ih h)

/-- A walk takes nothing out of the table. -/
theorem isPrefix_visit {depth : Nat}
    (h : (visit fs entry depth target source before).outcome = .ok after) : before <+: after := by
  induction depth generalizing target source before after with
  | zero => cases h
  | succ depth ih =>
    rcases visit_succ_eq_ok_iff.1 h with ⟨_, rfl⟩ | ⟨_, leaf, kind, _, hstep⟩
    · exact List.prefix_refl _
    · rcases hstep with ⟨_, _, rfl⟩ | ⟨_, _, matcher, listed, _, _, h⟩
      · exact List.prefix_append _ _
      · exact isPrefix_visitNames ih h

theorem holds_of_isPrefix (h : before <+: after) {target : Path}
    (ht : before.holds target = true) : after.holds target = true :=
  holds_iff_mem.2 ((h.map Prod.fst).subset (holds_iff_mem.1 ht))

/-- Names that have been visited may be visited again, if each of the visits may be made again. -/
theorem visitNames_again {visit : Path → Path → Table → Traced Table}
    (hgrow : ∀ {target source : Path} {before after : Table},
      (visit target source before).outcome = .ok after → before <+: after)
    (hagain : ∀ {target source : Path} {before after table : Table},
      (visit target source before).outcome = .ok after →
      (∀ t, after.holds t = true → table.holds t = true) →
      (visit target source table).outcome = .ok table)
    (h : (visitNames visit matcher target source listed before).outcome = .ok after)
    (hheld : ∀ t, after.holds t = true → table.holds t = true) :
    (visitNames visit matcher target source listed table).outcome = .ok table := by
  induction listed generalizing before with
  | nil => rfl
  | cons name others ih =>
    rcases visitNames_cons_eq_ok_iff.1 h with ⟨hmatch, h⟩ | ⟨hmatch, between, hv, h⟩
    · exact visitNames_cons_eq_ok_iff.2 (.inl ⟨hmatch, ih h⟩)
    · refine visitNames_cons_eq_ok_iff.2 (.inr ⟨hmatch, table, hagain hv ?_, ih h⟩)
      exact fun t ht => hheld t (holds_of_isPrefix (isPrefix_visitNames hgrow h) ht)

/-- A walk adds nothing to a table that holds all that it has recorded. -/
theorem visit_again {depth : Nat}
    (h : (visit fs entry depth target source before).outcome = .ok after)
    (hheld : ∀ t, after.holds t = true → table.holds t = true) :
    (visit fs entry depth target source table).outcome = .ok table := by
  induction depth generalizing target source before after table with
  | zero => cases h
  | succ depth ih =>
    rcases visit_succ_eq_ok_iff.1 h with ⟨hhere, rfl⟩ | ⟨_, leaf, kind, hs, hstep⟩
    · exact visit_succ_eq_ok_iff.2 (.inl ⟨hheld _ hhere, rfl⟩)
    · rcases hstep with ⟨_, _, rfl⟩ | ⟨rfl, hx, matcher, listed, hm, hl, h⟩
      · refine visit_succ_eq_ok_iff.2 (.inl ⟨hheld _ ?_, rfl⟩)
        simp [Table.holds]
      · cases hhere : table.holds target with
        | true => exact visit_succ_eq_ok_iff.2 (.inl ⟨hhere, rfl⟩)
        | false =>
          refine visit_succ_eq_ok_iff.2 (.inr ⟨hhere, leaf, .dir, hs, .inr ?_⟩)
          exact ⟨rfl, hx, matcher, listed, hm, hl, visitNames_again isPrefix_visit ih h hheld⟩

end Again

section Elsewhere

/-- Whether two tables hold the same targets at and below a place. -/
def SameBelow (place : List Name) (table table' : Table) : Prop :=
  ∀ names, (∀ n ∈ names, IsPlain n) →
    table'.holds (rooted (place ++ names)) = table.holds (rooted (place ++ names))

/-- Whether a table holds nothing at or below a place. -/
def IsClearBelow (table : Table) (place : List Name) : Prop :=
  ∀ names, (∀ n ∈ names, IsPlain n) → table.holds (rooted (place ++ names)) = false

/-- Whether all targets of a table are at or below a place. -/
def LiesBelow (place : List Name) (table : Table) : Prop :=
  ∀ x ∈ table, ∃ names, (∀ n ∈ names, IsPlain n) ∧ x.1 = rooted (place ++ names)

/-- Whether neither of two places is at or below the other. -/
def AreApart (place other : List Name) : Prop := ¬ place <+: other ∧ ¬ other <+: place

/-- A run does the same to a table that holds further targets besides, and they stay in it. -/
def Bears (extra : Table) (run : Table → Except Error Table) : Prop :=
  ∀ before after table, run before = .ok after → table.Perm (before ++ extra) →
    ∃ table', run table = .ok table' ∧ table'.Perm (after ++ extra)

/-- A run changes nothing at or below a place. -/
def Keeps (place : List Name) (run : Table → Except Error Table) : Prop :=
  ∀ before after, run before = .ok after → SameBelow place before after

variable {place other : List Name} {extra : Table} {run next : Table → Except Error Table}

theorem holds_eq_of_perm (h : table.Perm before) (target : Path) :
    table.holds target = before.holds target := by
  rw [Bool.eq_iff_iff, holds_iff_mem, holds_iff_mem]
  exact (h.map Prod.fst).mem_iff

theorem AreApart.symm (h : AreApart place other) : AreApart other place := ⟨h.2, h.1⟩

theorem areApart_of_ne (place : List Name) {name other : Name} (hne : name ≠ other) :
    AreApart (place ++ [name]) (place ++ [other]) := by
  simp [AreApart, List.prefix_append_right_inj, List.cons_prefix_cons, hne, hne.symm]

theorem LiesBelow.isClearBelow (h : LiesBelow other extra) (hapart : AreApart place other)
    (hplace : ∀ n ∈ place, IsPlain n) (hother : ∀ n ∈ other, IsPlain n) :
    IsClearBelow extra place := by
  intro names hnames
  rw [Bool.eq_false_iff, ne_eq, holds_iff_mem]
  intro hm
  obtain ⟨x, hx, htarget⟩ := List.mem_map.1 hm
  obtain ⟨more, hmore, he⟩ := h x hx
  have hsame := (rooted_inj (isPlain_append hplace hnames) (isPlain_append hother hmore)).1
    (htarget.symm.trans he)
  rcases List.prefix_or_prefix_of_prefix (List.prefix_append place names)
    (hsame ▸ List.prefix_append other more) with hbelow | hbelow
  · exact hapart.1 hbelow
  · exact hapart.2 hbelow

theorem SameBelow.symm (h : SameBelow place before after) : SameBelow place after before :=
  fun names hn => (h names hn).symm

theorem SameBelow.trans (h : SameBelow place before between)
    (h' : SameBelow place between after) : SameBelow place before after :=
  fun names hn => (h' names hn).trans (h names hn)

/-- A walk adds the same to every table that holds the same at and below its place. -/
theorem visit_same (hfs : ∀ name ∈ fs.root.names, IsPlain name) (depth : Nat) (hne : place ≠ [])
    (hplace : ∀ n ∈ place, IsPlain n) (hg : IsGrounded place)
    (h : (visit fs entry depth (rooted place) source before).outcome = .ok after) :
    ∃ added, LiesBelow place added ∧ after = before ++ added ∧
      ∀ table, SameBelow place before table →
        (visit fs entry depth (rooted place) source table).outcome = .ok (table ++ added) := by
  -- no further globs
  have hsame : entry.Inserts [] entry := ⟨entry.ignore, ⟨entry.ignore.globs, [], by simp, by simp⟩, rfl⟩
  have hglobs : (GlobList.mk []).compile = .ok ⟨[], []⟩ := rfl
  obtain ⟨leaves, hplain, rfl, hrun⟩ := tracks_visit hfs hglobs hsame depth hne hplace hg h
  have hall : leaves.filter (fun d => avoids ⟨[], []⟩ d.1) = leaves :=
    List.filter_eq_self.2 fun d _ => by simp [avoids, Matcher.isMatch]
  rw [hall] at hrun
  refine ⟨actionsAt entry place leaves, ?_, rfl, fun table hsame => hrun table ?_⟩
  · intro x hx
    obtain ⟨d, hd, rfl⟩ := List.mem_map.1 hx
    exact ⟨d.1, hplain d hd, rfl⟩
  · exact fun names hnames _ => hsame names hnames

/-- A walk does not see what is elsewhere. -/
theorem bears_visit (hfs : ∀ name ∈ fs.root.names, IsPlain name) (depth : Nat) (hne : place ≠ [])
    (hplace : ∀ n ∈ place, IsPlain n) (hg : IsGrounded place) (hclear : IsClearBelow extra place) :
    Bears extra fun table => (visit fs entry depth (rooted place) source table).outcome := by
  intro before after table h hperm
  obtain ⟨added, _, rfl, hrun⟩ := visit_same hfs depth hne hplace hg h
  refine ⟨table ++ added, hrun table fun names hnames => ?_, ?_⟩
  · rw [holds_eq_of_perm hperm, holds_append, hclear names hnames, Bool.or_false]
  · refine (hperm.append_right added).trans ?_
    rw [List.append_assoc, List.append_assoc]
    exact List.perm_append_comm.append_left before

theorem bears_visitNames (hfs : ∀ name ∈ fs.root.names, IsPlain name) (depth : Nat)
    (hne : place ≠ []) (hplace : ∀ n ∈ place, IsPlain n) (hg : IsGrounded place)
    (hlisted : ∀ n ∈ listed, IsPlain n)
    (hclear : ∀ name ∈ listed, IsClearBelow extra (place ++ [name])) :
    Bears extra fun table =>
      (visitNames (visit fs entry depth) matcher (rooted place) source listed table).outcome := by
  induction listed with
  | nil =>
    intro before after table h hperm
    cases h
    exact ⟨table, rfl, hperm⟩
  | cons name others ih =>
    obtain ⟨hname, hothers⟩ := List.forall_mem_cons.1 hlisted
    obtain ⟨hhere, hrest⟩ := List.forall_mem_cons.1 hclear
    intro before after table h hperm
    rcases visitNames_cons_eq_ok_iff.1 h with ⟨hmatch, h⟩ | ⟨hmatch, between, hv, h⟩
    · obtain ⟨table', hrun, hperm'⟩ := ih hothers hrest before after table h hperm
      exact ⟨table', visitNames_cons_eq_ok_iff.2 (.inl ⟨hmatch, hrun⟩), hperm'⟩
    · have hjoin : join [rooted place, name] = rooted (place ++ [name]) :=
        join_rooted hne hplace hg hname
      rw [hjoin] at hv
      obtain ⟨next, hnext, hperm'⟩ := bears_visit hfs depth (by simp)
        (isPlain_append hplace (by simpa using hname)) (isGrounded_append hne hg) hhere before
        between table hv hperm
      obtain ⟨table', hrun, hperm''⟩ := ih hothers hrest between after next h hperm'
      rw [← hjoin] at hnext
      exact ⟨table', visitNames_cons_eq_ok_iff.2 (.inr ⟨hmatch, next, hnext, hrun⟩), hperm''⟩

theorem keeps_visit (hfs : ∀ name ∈ fs.root.names, IsPlain name) (depth : Nat) (hne : place ≠ [])
    (hplace : ∀ n ∈ place, IsPlain n) (hg : IsGrounded place) (hother : ∀ n ∈ other, IsPlain n)
    (hapart : AreApart other place) :
    Keeps other fun table => (visit fs entry depth (rooted place) source table).outcome := by
  intro before after h names hnames
  obtain ⟨added, hadded, rfl, _⟩ := visit_same hfs depth hne hplace hg h
  rw [holds_append, hadded.isClearBelow hapart hother hplace names hnames, Bool.or_false]

theorem keeps_visitNames (hfs : ∀ name ∈ fs.root.names, IsPlain name) (depth : Nat)
    (hne : place ≠ []) (hplace : ∀ n ∈ place, IsPlain n) (hg : IsGrounded place)
    (hlisted : ∀ n ∈ listed, IsPlain n) (hother : ∀ n ∈ other, IsPlain n)
    (hapart : ∀ name ∈ listed, AreApart other (place ++ [name])) :
    Keeps other fun table =>
      (visitNames (visit fs entry depth) matcher (rooted place) source listed table).outcome := by
  induction listed with
  | nil =>
    intro before after h
    cases h
    exact fun _ _ => rfl
  | cons name others ih =>
    obtain ⟨hname, hothers⟩ := List.forall_mem_cons.1 hlisted
    obtain ⟨hhere, hrest⟩ := List.forall_mem_cons.1 hapart
    intro before after h
    rcases visitNames_cons_eq_ok_iff.1 h with ⟨_, h⟩ | ⟨_, between, hv, h⟩
    · exact ih hothers hrest before after h
    · rw [join_rooted hne hplace hg hname] at hv
      have hkept := keeps_visit hfs depth (by simp) (isPlain_append hplace (by simpa using hname))
        (isGrounded_append hne hg) hother hhere before between hv
      exact hkept.trans (ih hothers hrest between after h)

/-- Two lists of names are visited one after the other. -/
theorem visitNames_append_eq_ok_iff {visit : Path → Path → Table → Traced Table}
    {first second : List Name} :
    (visitNames visit matcher target source (first ++ second) before).outcome = .ok after ↔
      ∃ between, (visitNames visit matcher target source first before).outcome = .ok between ∧
        (visitNames visit matcher target source second between).outcome = .ok after := by
  induction first generalizing before with
  | nil =>
    constructor
    · intro h
      exact ⟨before, rfl, h⟩
    · rintro ⟨between, hb, h⟩
      cases hb
      exact h
  | cons name others ih =>
    rw [List.cons_append, visitNames_cons_eq_ok_iff]
    simp only [visitNames_cons_eq_ok_iff, ih]
    constructor
    · rintro (⟨hmatch, between, hb, h⟩ | ⟨hmatch, next, hv, between, hb, h⟩)
      · exact ⟨between, .inl ⟨hmatch, hb⟩, h⟩
      · exact ⟨between, .inr ⟨hmatch, next, hv, hb⟩, h⟩
    · rintro ⟨between, ⟨hmatch, hb⟩ | ⟨hmatch, next, hv, hb⟩, h⟩
      · exact .inl ⟨hmatch, between, hb, h⟩
      · exact .inr ⟨hmatch, next, hv, between, hb, h⟩

/-- A name that is not ignored is visited after those before it and before those after it. -/
theorem visitNames_around_eq_ok_iff {visit : Path → Path → Table → Traced Table} {name : Name}
    (hmatch : matcher.isMatch name = false) {first last : List Name} :
    (visitNames visit matcher target source (first ++ name :: last) before).outcome = .ok after ↔
      ∃ next reached, (visitNames visit matcher target source first before).outcome = .ok next ∧
        (visit (join [target, name]) (join [source, name]) next).outcome = .ok reached ∧
        (visitNames visit matcher target source last reached).outcome = .ok after := by
  rw [visitNames_append_eq_ok_iff]
  constructor
  · rintro ⟨next, hfirst, h⟩
    rcases visitNames_cons_eq_ok_iff.1 h with ⟨hskip, _⟩ | ⟨_, reached, hv, h⟩
    · rw [hmatch] at hskip
      cases hskip
    · exact ⟨next, reached, hfirst, hv, h⟩
  · rintro ⟨next, reached, hfirst, hv, h⟩
    exact ⟨next, hfirst, visitNames_cons_eq_ok_iff.2 (.inr ⟨hmatch, reached, hv, h⟩)⟩

/-- What a walk records for one name of a directory may be recorded before the walk, with the
same result in another order. -/
theorem exists_added_for_name (hfs : ∀ name ∈ fs.root.names, IsPlain name) {depth : Nat}
    (hne : place ≠ []) (hplace : ∀ n ∈ place, IsPlain n) (hg : IsGrounded place)
    (hlisted : ∀ n ∈ listed, IsPlain n) (hnodup : listed.Nodup) {name : Name} (hin : name ∈ listed)
    (hmatch : matcher.isMatch name = false)
    (h : (visitNames (visit fs entry depth) matcher (rooted place) source listed before).outcome =
      .ok after) :
    ∃ added, LiesBelow (place ++ [name]) added ∧
      (∀ table, SameBelow (place ++ [name]) before table →
        (visit fs entry depth (rooted (place ++ [name])) (join [source, name]) table).outcome =
          .ok (table ++ added)) ∧
      ∀ table, table.Perm (before ++ added) → ∃ table',
        (visitNames (visit fs entry depth) matcher (rooted place) source listed table).outcome =
          .ok table' ∧ table'.Perm after := by
  obtain ⟨first, last, rfl⟩ := List.append_of_mem hin
  rw [List.perm_middle.nodup_iff, List.nodup_cons, List.mem_append, not_or] at hnodup
  rw [List.forall_mem_append, List.forall_mem_cons] at hlisted
  obtain ⟨hfirst, hname, hlast⟩ := hlisted
  have hhere : ∀ n ∈ place ++ [name], IsPlain n := isPlain_append hplace (by simpa using hname)
  have hapart : ∀ other ∈ first, AreApart (place ++ [name]) (place ++ [other]) := fun other ho =>
    areApart_of_ne place fun he => hnodup.1.1 (he ▸ ho)
  have hjoin := join_rooted hne hplace hg hname
  obtain ⟨next, reached, hbefore, hv, hafter⟩ := (visitNames_around_eq_ok_iff hmatch).1 h
  rw [hjoin] at hv
  obtain ⟨added, hadded, rfl, hsame⟩ :=
    visit_same hfs depth (by simp) hhere (isGrounded_append hne hg) hv
  have hkept := keeps_visitNames hfs depth hne hplace hg hfirst hhere hapart before next hbefore
  refine ⟨added, hadded, fun table htable => hsame table (hkept.symm.trans htable), ?_⟩
  intro table hperm
  have hclear : ∀ other ∈ first, IsClearBelow added (place ++ [other]) := fun other ho =>
    hadded.isClearBelow (hapart other ho).symm
      (isPlain_append hplace (by simpa using hfirst other ho)) hhere
  obtain ⟨next', hbefore', hnext⟩ :=
    bears_visitNames hfs depth hne hplace hg hfirst hclear before next table hbefore hperm
  -- the table holds already what the walk of the name comes to
  have hagain : (visit fs entry depth (rooted (place ++ [name])) (join [source, name])
      next').outcome = .ok next' :=
    visit_again hv fun t ht => (holds_eq_of_perm hnext t).trans ht
  have hrest : Bears [] fun table =>
      (visitNames (visit fs entry depth) matcher (rooted place) source last table).outcome :=
    bears_visitNames hfs depth hne hplace hg hlast fun _ _ _ _ => rfl
  obtain ⟨table', hafter', hdone⟩ :=
    hrest (next ++ added) after next' hafter (by simpa using hnext)
  rw [← hjoin] at hagain
  exact ⟨table', (visitNames_around_eq_ok_iff hmatch).2 ⟨next', next', hbefore', hagain, hafter'⟩,
    by simpa using hdone⟩

end Elsewhere

end Dotfiles.Expansion
