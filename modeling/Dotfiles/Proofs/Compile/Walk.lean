import Dotfiles.Compile.Expansion
import Dotfiles.Proofs.Except
import Dotfiles.Proofs.FileTree.Calls
import Dotfiles.Proofs.Path.Plain

/-!
The walk of one entry. An entry reaches leaves: sources at which its walk stops, each
with the names that lead there. What an expansion records are the leaves that it reaches
without passing a target that the table holds already.
-/

namespace Dotfiles.Expansion

open Dotfiles.Path

/-- The source that stands in for another one, with its kind: the source itself, or what a
link points to. -/
inductive Stands (fs : FileSystem) : Path → Path → NodeKind → Prop
  | self {source : Path} {kind : NodeKind} (hk : fs.inspect source = .ok kind)
      (hne : kind ≠ .link) : Stands fs source source kind
  | hop {source destination : Path} {kind : NodeKind} (hl : fs.inspect source = .ok .link)
      (hd : fs.readLink source = .ok destination)
      (hk : fs.inspect (join [parent source, destination]) = .ok kind) :
      Stands fs source (join [parent source, destination]) kind

/-- The walk of an entry from a source stops at a leaf after the given names. It descends
into the names of a directory that are not ignored if the entry is expanded, and stops
everywhere else. -/
inductive Reaches (fs : FileSystem) (entry : Entry) : Path → List Name → Path → Prop
  | stop {source leaf : Path} {kind : NodeKind} (hs : Stands fs source leaf kind)
      (hk : ¬ (kind = .dir ∧ isExpanded entry = true)) : Reaches fs entry source [] leaf
  | enter {source dir : Path} {matcher : Matcher} {listed : List Name} {name : Name}
      {rest : List Name} {leaf : Path} (hs : Stands fs source dir .dir)
      (hx : isExpanded entry = true) (hm : entry.ignore.compile = .ok matcher)
      (hl : fs.list dir = .ok listed) (hn : name ∈ listed) (hi : matcher.isMatch name = false)
      (hr : Reaches fs entry (join [dir, name]) rest leaf) :
      Reaches fs entry source (name :: rest) leaf

/-- No target from a place down to some names below it is in the table. -/
def IsFree (table : Table) (place names : List Name) : Prop :=
  ∀ above, above <+: names → table.holds (rooted (place ++ above)) = false

/-- A walk goes on from a directory with one of the listed names that is not ignored, and
passes no target of the table from there on. -/
def GoesOn (fs : FileSystem) (entry : Entry) (matcher : Matcher) (place : List Name) (dir : Path)
    (table : Table) (listed names : List Name) (leaf : Path) : Prop :=
  ∃ name rest, names = name :: rest ∧ name ∈ listed ∧ matcher.isMatch name = false ∧
    Reaches fs entry (join [dir, name]) rest leaf ∧ IsFree table (place ++ [name]) rest

variable {fs : FileSystem} {entry : Entry}

section Relation

theorem Stands.unique {source a b : Path} {k l : NodeKind} (ha : Stands fs source a k)
    (hb : Stands fs source b l) : a = b ∧ k = l := by
  cases ha with
  | self hk hne =>
    cases hb with
    | self hk' _ =>
      rw [hk] at hk'
      cases hk'
      exact ⟨rfl, rfl⟩
    | hop hl _ _ =>
      rw [hk] at hl
      cases hl
      exact absurd rfl hne
  | hop hl hd hk =>
    cases hb with
    | self hk' hne =>
      rw [hl] at hk'
      cases hk'
      exact absurd rfl hne
    | hop _ hd' hk' =>
      rw [hd] at hd'
      cases hd'
      rw [hk] at hk'
      cases hk'
      exact ⟨rfl, rfl⟩

/-- Names lead to one leaf at most. -/
theorem Reaches.unique {source a b : Path} {names : List Name}
    (ha : Reaches fs entry source names a) (hb : Reaches fs entry source names b) : a = b := by
  induction ha with
  | stop hs _ =>
    cases hb with
    | stop hs' _ => exact (hs.unique hs').1
  | enter hs _ _ _ _ _ _ ih =>
    cases hb with
    | enter hs' _ _ _ _ _ hr' =>
      obtain ⟨rfl, _⟩ := hs.unique hs'
      exact ih hr'

theorem outcome_call_eq_ok_iff {α : Type} {c : FileCall} {p : Path} {result : Except CallFailure α}
    {a : α} : (Traced.call c p result).outcome = .ok a ↔ result = .ok a := by
  rw [Traced.outcome_call]
  exact Except.mapError_eq_ok_iff

theorem oneHop_eq_ok_iff {source leaf : Path} {kind : NodeKind} :
    (oneHop fs source).outcome = .ok (leaf, kind) ↔ Stands fs source leaf kind := by
  unfold oneHop
  constructor
  · intro h
    obtain ⟨first, hfirst, h⟩ := Traced.outcome_bind_eq_ok_iff.1 h
    rw [outcome_call_eq_ok_iff] at hfirst
    cases first with
    | link =>
      obtain ⟨destination, hd, h⟩ := Traced.outcome_bind_eq_ok_iff.1 h
      obtain ⟨resolved, hr, h⟩ := Traced.outcome_bind_eq_ok_iff.1 h
      obtain ⟨_, _, h⟩ := Traced.outcome_bind_eq_ok_iff.1 h
      obtain ⟨second, hs, h⟩ := Traced.outcome_bind_eq_ok_iff.1 h
      rw [outcome_call_eq_ok_iff] at hd hs
      cases hr
      split at h
      · obtain ⟨_, _, h⟩ := Traced.outcome_bind_eq_ok_iff.1 h
        cases h
        exact .hop hfirst hd hs
      · cases h
        exact .hop hfirst hd hs
    | file =>
      cases h
      exact .self hfirst (by simp)
    | dir =>
      cases h
      exact .self hfirst (by simp)
  · intro h
    cases h with
    | self hk hne =>
      refine Traced.outcome_bind_eq_ok_iff.2 ⟨kind, outcome_call_eq_ok_iff.2 hk, ?_⟩
      cases kind with
      | link => exact absurd rfl hne
      | file => rfl
      | dir => rfl
    | hop hl hd hk =>
      refine Traced.outcome_bind_eq_ok_iff.2 ⟨.link, outcome_call_eq_ok_iff.2 hl, ?_⟩
      refine Traced.outcome_bind_eq_ok_iff.2 ⟨_, outcome_call_eq_ok_iff.2 hd, ?_⟩
      refine Traced.outcome_bind_eq_ok_iff.2 ⟨_, rfl, ?_⟩
      refine Traced.outcome_bind_eq_ok_iff.2 ⟨(), rfl, ?_⟩
      refine Traced.outcome_bind_eq_ok_iff.2 ⟨_, outcome_call_eq_ok_iff.2 hk, ?_⟩
      cases kind with
      | link => rfl
      | file => rfl
      | dir => rfl

theorem matcherOf_eq_ok_iff {matcher : Matcher} :
    (matcherOf entry).outcome = .ok matcher ↔ entry.ignore.compile = .ok matcher := by
  unfold matcherOf
  cases hc : entry.ignore.compile with
  | ok found =>
    cases entry.ignore.isEmpty with
    | true => simp
    | false => simp [bind]
  | error fault =>
    cases entry.ignore.isEmpty with
    | true => cases fault <;> simp
    | false => cases fault <;> simp [bind]

end Relation

section Steps

variable {target source : Path} {before after : Table}

theorem record_eq_ok_iff : (record entry target source before).outcome = .ok after ↔
    after = before ++ [(target, ⟨source, entry.method⟩)] := by
  constructor
  · intro h
    obtain ⟨_, _, h⟩ := Traced.outcome_bind_eq_ok_iff.1 h
    cases h
    rfl
  · rintro rfl
    rfl

/-- What visiting one name of a directory does. -/
theorem visitNames_cons_eq_ok_iff {visit : Path → Path → Table → Traced Table} {matcher : Matcher}
    {name : Name} {rest : List Name} :
    (visitNames visit matcher target source (name :: rest) before).outcome = .ok after ↔
      (matcher.isMatch name = true ∧
          (visitNames visit matcher target source rest before).outcome = .ok after) ∨
        (matcher.isMatch name = false ∧ ∃ between,
          (visit (join [target, name]) (join [source, name]) before).outcome = .ok between ∧
          (visitNames visit matcher target source rest between).outcome = .ok after) := by
  rw [visitNames]
  cases matcher.isMatch name with
  | true => simp [Traced.outcome_bind_eq_ok_iff, -Traced.outcome_bind]
  | false => simp [Traced.outcome_bind_eq_ok_iff, -Traced.outcome_bind]

/-- What one visit does: it leaves a held target alone, records what the walk stops at, or
goes on with the names of a directory. -/
theorem visit_succ_eq_ok_iff {depth : Nat} :
    (visit fs entry (depth + 1) target source before).outcome = .ok after ↔
      (before.holds target = true ∧ after = before) ∨
        (before.holds target = false ∧ ∃ leaf kind, Stands fs source leaf kind ∧
          ((¬ (kind = .dir ∧ isExpanded entry = true) ∧
              (kind = .dir → entry.method ≠ .template) ∧
              after = before ++ [(target, ⟨leaf, entry.method⟩)]) ∨
            (kind = .dir ∧ isExpanded entry = true ∧ ∃ matcher listed,
              entry.ignore.compile = .ok matcher ∧ fs.list leaf = .ok listed ∧
              (visitNames (visit fs entry depth) matcher target leaf listed before).outcome =
                .ok after))) := by
  rw [visit]
  cases hheld : before.holds target with
  | true =>
    rw [if_pos rfl]
    constructor
    · intro h
      obtain ⟨_, _, h⟩ := Traced.outcome_bind_eq_ok_iff.1 h
      cases h
      exact .inl ⟨rfl, rfl⟩
    · rintro (⟨_, rfl⟩ | ⟨hfree, _⟩)
      · rfl
      · cases hfree
  | false =>
    rw [if_neg Bool.false_ne_true]
    constructor
    · intro h
      obtain ⟨⟨leaf, kind⟩, hhop, h⟩ := Traced.outcome_bind_eq_ok_iff.1 h
      refine .inr ⟨rfl, leaf, kind, oneHop_eq_ok_iff.1 hhop, ?_⟩
      simp only at h
      split at h
      · rename_i hx
        obtain ⟨matcher, hm, h⟩ := Traced.outcome_bind_eq_ok_iff.1 h
        obtain ⟨listed, hl, h⟩ := Traced.outcome_bind_eq_ok_iff.1 h
        exact .inr ⟨rfl, hx, matcher, listed, matcherOf_eq_ok_iff.1 hm,
          outcome_call_eq_ok_iff.1 hl, h⟩
      · rename_i hx
        split at h
        · cases h
        · rename_i hmethod
          exact .inl ⟨by simp [hx], fun _ => hmethod, record_eq_ok_iff.1 h⟩
      · rename_i hexpanded hplain
        refine .inl ⟨?_, ?_, record_eq_ok_iff.1 h⟩
        · rintro ⟨rfl, hx⟩
          exact hexpanded rfl hx
        · rintro rfl
          cases hx : isExpanded entry with
          | true => exact absurd hx (hexpanded rfl)
          | false => exact absurd hx (hplain rfl)
    · rintro (⟨hheld, _⟩ | ⟨_, leaf, kind, hs, hstep⟩)
      · cases hheld
      · refine Traced.outcome_bind_eq_ok_iff.2 ⟨(leaf, kind), oneHop_eq_ok_iff.2 hs, ?_⟩
        rcases hstep with ⟨hstop, hmethod, rfl⟩ | ⟨rfl, hx, matcher, listed, hm, hl, h⟩
        · cases kind with
          | dir =>
            have hx : isExpanded entry = false := by simpa using hstop
            rw [hx]
            simp only
            rw [if_neg (hmethod rfl)]
            rfl
          | file => rfl
          | link => rfl
        · rw [hx]
          exact Traced.outcome_bind_eq_ok_iff.2 ⟨matcher, matcherOf_eq_ok_iff.2 hm,
            Traced.outcome_bind_eq_ok_iff.2 ⟨listed, outcome_call_eq_ok_iff.2 hl, h⟩⟩
end Steps

section Distinctness

variable {target source : Path} {table before after : Table}

/-- No target stands twice. -/
def HasDistinctTargets (table : Table) : Prop := (table.map Prod.fst).Nodup

theorem holds_iff_mem : table.holds target = true ↔ target ∈ table.map Prod.fst := by
  simp [Table.holds]

theorem HasDistinctTargets.record (h : HasDistinctTargets table)
    (hfree : table.holds target = false) (action : Action) :
    HasDistinctTargets (table ++ [(target, action)]) := by
  have hnew : target ∉ table.map Prod.fst := by
    rw [← holds_iff_mem, hfree]
    exact Bool.false_ne_true
  rw [HasDistinctTargets, List.map_append, List.nodup_append]
  refine ⟨h, by simp, ?_⟩
  intro held hheld other hother
  rw [List.mem_singleton.1 hother]
  rintro rfl
  exact hnew hheld

theorem hasDistinctTargets_visitNames {visit : Path → Path → Table → Traced Table}
    {matcher : Matcher}
    (hvisit : ∀ {target source : Path} {before after : Table},
      (visit target source before).outcome = .ok after → HasDistinctTargets before →
      HasDistinctTargets after) {listed : List Name}
    (h : (visitNames visit matcher target source listed before).outcome = .ok after)
    (hb : HasDistinctTargets before) : HasDistinctTargets after := by
  induction listed generalizing before with
  | nil =>
    cases h
    exact hb
  | cons name others ih =>
    rcases visitNames_cons_eq_ok_iff.1 h with ⟨_, h⟩ | ⟨_, between, hv, h⟩
    · exact ih h hb
    · exact ih h (hvisit hv hb)

/-- A walk records no target twice, as it leaves those alone that the table holds. -/
theorem hasDistinctTargets_visit {depth : Nat}
    (h : (visit fs entry depth target source before).outcome = .ok after)
    (hb : HasDistinctTargets before) : HasDistinctTargets after := by
  induction depth generalizing target source before after with
  | zero => cases h
  | succ depth ih =>
    rcases visit_succ_eq_ok_iff.1 h with ⟨_, rfl⟩ | ⟨hfree, leaf, kind, _, hstep⟩
    · exact hb
    · rcases hstep with ⟨_, _, rfl⟩ | ⟨_, _, matcher, listed, _, _, h⟩
      · exact hb.record hfree _
      · exact hasDistinctTargets_visitNames ih h hb

end Distinctness

section Visiting

/-- The actions for the given leaves, whose names lead on from a place. -/
def actionsAt (entry : Entry) (place : List Name) (leaves : List (List Name × Path)) : Table :=
  leaves.map fun d => (rooted (place ++ d.1), ⟨d.2, entry.method⟩)

/-- The second table is the first one with the actions of exactly the leaves that an entry
reaches from a source without passing a target of the first table. -/
def Extends (fs : FileSystem) (entry : Entry) (place : List Name) (source : Path)
    (before after : Table) : Prop :=
  ∃ leaves, after = before ++ actionsAt entry place leaves ∧
    ∀ names leaf, (names, leaf) ∈ leaves ↔
      Reaches fs entry source names leaf ∧ IsFree before place names

theorem holds_append (first second : Table) (target : Path) :
    Table.holds (first ++ second) target = (first.holds target || second.holds target) :=
  List.any_append

theorem holds_actionsAt_iff {place : List Name} {leaves : List (List Name × Path)}
    {target : Path} :
    (actionsAt entry place leaves).holds target = true ↔
      ∃ d ∈ leaves, rooted (place ++ d.1) = target := by
  simp [actionsAt, Table.holds]

theorem Reaches.plain (hfs : ∀ name ∈ fs.root.names, IsPlain name) {source leaf : Path}
    {names : List Name} (h : Reaches fs entry source names leaf) :
    ∀ name ∈ names, IsPlain name := by
  induction h with
  | stop _ _ => simp
  | enter _ _ _ hl hn _ _ ih =>
    intro name hm
    rcases List.mem_cons.1 hm with rfl | hm
    · exact hfs name ((FileSystem.list_eq_ok hl).2 name hn)
    · exact ih name hm

theorem isFree_cons_iff {table : Table} {place rest : List Name} {name : Name} :
    IsFree table place (name :: rest) ↔
      table.holds (rooted place) = false ∧ IsFree table (place ++ [name]) rest := by
  constructor
  · intro h
    refine ⟨?_, ?_⟩
    · have hroot := h [] List.nil_prefix
      rwa [List.append_nil] at hroot
    · intro above ha
      rw [List.append_assoc]
      exact h (name :: above) (List.cons_prefix_cons.2 ⟨rfl, ha⟩)
  · rintro ⟨hroot, hrest⟩ above ha
    cases above with
    | nil => rwa [List.append_nil]
    | cons first more =>
      obtain ⟨rfl, hm⟩ := List.cons_prefix_cons.1 ha
      have hfree := hrest more hm
      rwa [List.append_assoc] at hfree

/-- What is recorded below one name does not stand in the way below another one. -/
theorem isFree_append_actionsAt {table : Table} {place rest : List Name} {name other : Name}
    {leaves : List (List Name × Path)} (hne : other ≠ name)
    (hplace : ∀ n ∈ place, IsPlain n) (hname : IsPlain name) (hother : IsPlain other)
    (hleaves : ∀ d ∈ leaves, ∀ n ∈ d.1, IsPlain n) (hrest : ∀ n ∈ rest, IsPlain n) :
    IsFree (table ++ actionsAt entry (place ++ [name]) leaves) (place ++ [other]) rest ↔
      IsFree table (place ++ [other]) rest := by
  have hfree : ∀ above, above <+: rest → (actionsAt entry (place ++ [name]) leaves).holds
      (rooted (place ++ [other] ++ above)) = false := by
    intro above ha
    rw [Bool.eq_false_iff, ne_eq, holds_actionsAt_iff]
    rintro ⟨d, hd, he⟩
    have hleft : ∀ n ∈ place ++ [name] ++ d.1, IsPlain n :=
      isPlain_append (isPlain_append hplace (by simpa using hname)) (hleaves d hd)
    have hright : ∀ n ∈ place ++ [other] ++ above, IsPlain n :=
      isPlain_append (isPlain_append hplace (by simpa using hother))
        fun n hn => hrest n (ha.subset hn)
    have hnames := (rooted_inj hleft hright).1 he
    rw [List.append_assoc, List.append_assoc, List.append_cancel_left_eq] at hnames
    exact hne (List.cons.inj hnames).1.symm
  constructor
  · intro h above ha
    have hall := h above ha
    rw [holds_append, Bool.or_eq_false_iff] at hall
    exact hall.1
  · intro h above ha
    rw [holds_append, h above ha, hfree above ha]
    rfl

theorem mem_map_cons_iff {leaves : List (List Name × Path)} {name : Name} {names : List Name}
    {leaf : Path} :
    (names, leaf) ∈ leaves.map (fun d => (name :: d.1, d.2)) ↔
      ∃ rest, names = name :: rest ∧ (rest, leaf) ∈ leaves := by
  constructor
  · intro h
    obtain ⟨d, hd, he⟩ := List.mem_map.1 h
    cases he
    exact ⟨d.1, rfl, hd⟩
  · rintro ⟨rest, rfl, h⟩
    exact List.mem_map.2 ⟨(rest, leaf), h, rfl⟩

theorem goesOn_cons_iff {matcher : Matcher} {place names others : List Name} {name : Name}
    {dir leaf : Path} {table : Table} :
    GoesOn fs entry matcher place dir table (name :: others) names leaf ↔
      (matcher.isMatch name = false ∧ ∃ rest, names = name :: rest ∧
          Reaches fs entry (join [dir, name]) rest leaf ∧ IsFree table (place ++ [name]) rest) ∨
        GoesOn fs entry matcher place dir table others names leaf := by
  constructor
  · rintro ⟨n, rest, rfl, hn, hi, hr, hf⟩
    rcases List.mem_cons.1 hn with rfl | hn
    · exact .inl ⟨hi, rest, rfl, hr, hf⟩
    · exact .inr ⟨n, rest, rfl, hn, hi, hr, hf⟩
  · rintro (⟨hi, rest, rfl, hr, hf⟩ | ⟨n, rest, rfl, hn, hi, hr, hf⟩)
    · exact ⟨name, rest, rfl, List.mem_cons_self, hi, hr, hf⟩
    · exact ⟨n, rest, rfl, List.mem_cons_of_mem _ hn, hi, hr, hf⟩

/-- What is recorded below a name that is not listed is not passed. -/
theorem goesOn_append_iff (hfs : ∀ name ∈ fs.root.names, IsPlain name) {matcher : Matcher}
    {place names others : List Name} {name : Name} {dir leaf : Path} {table : Table}
    {leaves : List (List Name × Path)} (hplace : ∀ n ∈ place, IsPlain n) (hname : IsPlain name)
    (hothers : ∀ n ∈ others, IsPlain n) (hnot : name ∉ others)
    (hleaves : ∀ d ∈ leaves, ∀ n ∈ d.1, IsPlain n) :
    GoesOn fs entry matcher place dir (table ++ actionsAt entry (place ++ [name]) leaves) others
        names leaf ↔ GoesOn fs entry matcher place dir table others names leaf := by
  have hapart : ∀ {n : Name} {rest : List Name}, n ∈ others →
      Reaches fs entry (join [dir, n]) rest leaf →
      (IsFree (table ++ actionsAt entry (place ++ [name]) leaves) (place ++ [n]) rest ↔
        IsFree table (place ++ [n]) rest) := by
    intro n rest hn hr
    have hne : n ≠ name := fun he => hnot (he ▸ hn)
    exact isFree_append_actionsAt hne hplace hname (hothers n hn) hleaves (hr.plain hfs)
  constructor
  · rintro ⟨n, rest, rfl, hn, hi, hr, hf⟩
    exact ⟨n, rest, rfl, hn, hi, hr, (hapart hn hr).1 hf⟩
  · rintro ⟨n, rest, rfl, hn, hi, hr, hf⟩
    exact ⟨n, rest, rfl, hn, hi, hr, (hapart hn hr).2 hf⟩

/-- The names of a directory are visited one after another; what they record goes to
different targets. -/
theorem visitNames_eq_ok (hfs : ∀ name ∈ fs.root.names, IsPlain name)
    {visit : Path → Path → Table → Traced Table} {matcher : Matcher} {place : List Name}
    {dir : Path} (hne : place ≠ []) (hplace : ∀ n ∈ place, IsPlain n) (hg : IsGrounded place)
    (hvisit : ∀ {place : List Name} {source : Path} {before after : Table}, place ≠ [] →
      (∀ n ∈ place, IsPlain n) → IsGrounded place →
      (visit (rooted place) source before).outcome = .ok after →
      Extends fs entry place source before after)
    {listed : List Name} (hnodup : listed.Nodup) (hlisted : ∀ n ∈ listed, IsPlain n)
    {before after : Table}
    (h : (visitNames visit matcher (rooted place) dir listed before).outcome = .ok after) :
    ∃ leaves, after = before ++ actionsAt entry place leaves ∧
      ∀ names leaf, (names, leaf) ∈ leaves ↔
        GoesOn fs entry matcher place dir before listed names leaf := by
  induction listed generalizing before with
  | nil =>
    cases h
    exact ⟨[], by simp [actionsAt], by simp [GoesOn]⟩
  | cons name others ih =>
    obtain ⟨hnot, hnodup⟩ := List.nodup_cons.1 hnodup
    have hothers : ∀ n ∈ others, IsPlain n := fun n hn => hlisted n (List.mem_cons_of_mem _ hn)
    rcases visitNames_cons_eq_ok_iff.1 h with ⟨hmatch, h⟩ | ⟨hmatch, between, hv, h⟩
    · obtain ⟨leaves, rfl, hiff⟩ := ih hnodup hothers h
      refine ⟨leaves, rfl, ?_⟩
      intro names leaf
      rw [hiff, goesOn_cons_iff]
      simp [hmatch]
    · have hname : IsPlain name := hlisted name List.mem_cons_self
      rw [join_rooted hne hplace hg hname] at hv
      obtain ⟨first, rfl, hfirst⟩ := hvisit (by simp)
        (isPlain_append hplace (by simpa using hname)) (isGrounded_append hne hg) hv
      have hplain : ∀ d ∈ first, ∀ n ∈ d.1, IsPlain n :=
        fun d hd => ((hfirst d.1 d.2).1 hd).1.plain hfs
      obtain ⟨second, rfl, hsecond⟩ := ih hnodup hothers h
      refine ⟨first.map (fun d => (name :: d.1, d.2)) ++ second, ?_, ?_⟩
      · simp [actionsAt, Function.comp_def]
      · intro names leaf
        rw [List.mem_append, mem_map_cons_iff, hsecond,
          goesOn_append_iff hfs hplace hname hothers hnot hplain, goesOn_cons_iff]
        simp only [hfirst, hmatch, true_and]

theorem reaches_dir_iff {source dir leaf : Path} {matcher : Matcher} {listed names : List Name}
    (hs : Stands fs source dir .dir) (hx : isExpanded entry = true)
    (hm : entry.ignore.compile = .ok matcher) (hl : fs.list dir = .ok listed) :
    Reaches fs entry source names leaf ↔
      ∃ name rest, names = name :: rest ∧ name ∈ listed ∧ matcher.isMatch name = false ∧
        Reaches fs entry (join [dir, name]) rest leaf := by
  constructor
  · intro h
    cases h with
    | stop hs' hk =>
      obtain ⟨_, rfl⟩ := hs.unique hs'
      exact absurd ⟨rfl, hx⟩ hk
    | enter hs' _ hm' hl' hn hi hr =>
      obtain ⟨rfl, _⟩ := hs.unique hs'
      rw [hm] at hm'
      cases hm'
      rw [hl] at hl'
      cases hl'
      exact ⟨_, _, rfl, hn, hi, hr⟩
  · rintro ⟨name, rest, rfl, hn, hi, hr⟩
    exact .enter hs hx hm hl hn hi hr

theorem reaches_leaf_iff {source place leaf : Path} {kind : NodeKind} {names : List Name}
    (hs : Stands fs source place kind) (hk : ¬ (kind = .dir ∧ isExpanded entry = true)) :
    Reaches fs entry source names leaf ↔ names = [] ∧ leaf = place := by
  constructor
  · intro h
    cases h with
    | stop hs' _ => exact ⟨rfl, (hs'.unique hs).1⟩
    | enter hs' hx _ _ _ _ _ =>
      obtain ⟨_, rfl⟩ := hs'.unique hs
      exact absurd ⟨rfl, hx⟩ hk
  · rintro ⟨rfl, rfl⟩
    exact .stop hs hk

theorem extends_record {place : List Name} {source leaf : Path} {kind : NodeKind}
    {before : Table} (hs : Stands fs source leaf kind)
    (hk : ¬ (kind = .dir ∧ isExpanded entry = true))
    (hfree : before.holds (rooted place) = false) :
    Extends fs entry place source before
      (before ++ [(rooted place, ⟨leaf, entry.method⟩)]) := by
  refine ⟨[([], leaf)], by simp [actionsAt], ?_⟩
  intro names found
  rw [reaches_leaf_iff hs hk]
  constructor
  · intro hm
    cases List.mem_singleton.1 hm
    refine ⟨⟨rfl, rfl⟩, ?_⟩
    intro above ha
    rw [List.prefix_nil.1 ha, List.append_nil]
    exact hfree
  · rintro ⟨⟨rfl, rfl⟩, _⟩
    exact List.mem_singleton.2 rfl

/-- A walk that succeeds records the leaves that it reaches without passing a target that
is in the table already. -/
theorem visit_eq_ok (hfs : ∀ name ∈ fs.root.names, IsPlain name) (depth : Nat)
    {place : List Name} {source : Path} {before after : Table} (hne : place ≠ [])
    (hplace : ∀ n ∈ place, IsPlain n) (hg : IsGrounded place)
    (h : (visit fs entry depth (rooted place) source before).outcome = .ok after) :
    Extends fs entry place source before after := by
  induction depth generalizing place source before after with
  | zero => cases h
  | succ depth ih =>
    rcases visit_succ_eq_ok_iff.1 h with ⟨hholds, rfl⟩ | ⟨hfree, leaf, kind, hs, hstep⟩
    · refine ⟨[], by simp [actionsAt], ?_⟩
      intro names leaf
      -- the held target stops the walk at its very start
      have hnot : ¬ IsFree after place names := by
        intro hfree
        have hroot := hfree [] List.nil_prefix
        rw [List.append_nil, hholds] at hroot
        cases hroot
      simp [hnot]
    · rcases hstep with ⟨hstop, _, rfl⟩ | ⟨rfl, hx, matcher, listed, hm, hl, h⟩
      · exact extends_record hs hstop hfree
      · obtain ⟨hnodup, hlisted⟩ := FileSystem.list_eq_ok hl
        obtain ⟨leaves, rfl, hiff⟩ := visitNames_eq_ok hfs hne hplace hg ih hnodup
          (fun n hn => hfs n (hlisted n hn)) h
        refine ⟨leaves, rfl, ?_⟩
        intro names found
        rw [hiff, reaches_dir_iff hs hx hm hl]
        constructor
        · rintro ⟨name, rest, rfl, hn, hi, hr, hf⟩
          exact ⟨⟨name, rest, rfl, hn, hi, hr⟩, isFree_cons_iff.2 ⟨hfree, hf⟩⟩
        · rintro ⟨⟨name, rest, rfl, hn, hi, hr⟩, hf⟩
          exact ⟨name, rest, rfl, hn, hi, hr, (isFree_cons_iff.1 hf).2⟩

end Visiting

end Dotfiles.Expansion
