import Dotfiles.Proofs.Compile.Listing
import Dotfiles.Proofs.Compile.WithoutLinks

/-!
What a single entry is expanded to. In a source tree without links, an entry that is expanded
reaches exactly the files at and below its source whose names on the way are not ignored; and what
a walk records comes in the order of the targets.
-/

namespace Dotfiles

open Dotfiles.Path

namespace Expansion

open FileTree

variable {fs : FileSystem} {entry : Entry} {place : List Name} {before after : Table}

section Order

/-- Targets at or below a place, in strictly increasing order. -/
structure IsIncreasingBelow (place : List Name) (table : Table) : Prop where
  below : ∀ x ∈ table, place <+: components x.1
  increasing : table.Pairwise fun a b => components a.1 < components b.1

/-- Of two branches of a place the one with the smaller name comes first, with all below it. -/
theorem lt_of_branches {name other : Name} (h : name < other) {a b : List Name}
    (ha : place ++ [name] <+: a) (hb : place ++ [other] <+: b) : a < b := by
  obtain ⟨more, rfl⟩ := ha
  obtain ⟨others, rfl⟩ := hb
  induction place with
  | nil => exact List.cons_lt_cons_iff.2 (.inl h)
  | cons first rest ih => exact List.cons_lt_cons_iff.2 (.inr ⟨rfl, ih⟩)

theorem visitNames_increasing {visit : Path → Path → Table → Traced Table} {matcher : Matcher}
    {dir : Path} (hne : place ≠ []) (hplace : ∀ n ∈ place, IsPlain n) (hg : IsGrounded place)
    (hvisit : ∀ {place : List Name} {source : Path} {before after : Table}, place ≠ [] →
      (∀ n ∈ place, IsPlain n) → IsGrounded place →
      (visit (rooted place) source before).outcome = .ok after →
      ∃ added, after = before ++ added ∧ IsIncreasingBelow place added)
    {listed : List Name} (hsorted : listed.Pairwise (· < ·)) (hlisted : ∀ n ∈ listed, IsPlain n)
    (h : (visitNames visit matcher (rooted place) dir listed before).outcome = .ok after) :
    ∃ added, after = before ++ added ∧
      (added.Pairwise fun a b => components a.1 < components b.1) ∧
      ∀ x ∈ added, ∃ name ∈ listed, place ++ [name] <+: components x.1 := by
  induction listed generalizing before with
  | nil =>
    cases h
    exact ⟨[], by simp, .nil, by simp⟩
  | cons name others ih =>
    obtain ⟨hfirst, hsorted⟩ := List.pairwise_cons.1 hsorted
    obtain ⟨hname, hothers⟩ := List.forall_mem_cons.1 hlisted
    rcases visitNames_cons_eq_ok_iff.1 h with ⟨_, h⟩ | ⟨_, between, hv, h⟩
    · obtain ⟨added, rfl, hincreasing, hbelow⟩ := ih hsorted hothers h
      refine ⟨added, rfl, hincreasing, fun x hx => ?_⟩
      obtain ⟨other, ho, hprefix⟩ := hbelow x hx
      exact ⟨other, List.mem_cons_of_mem _ ho, hprefix⟩
    · rw [join_rooted hne hplace hg hname] at hv
      obtain ⟨here, rfl, hhere⟩ := hvisit (by simp) (isPlain_append hplace (by simpa using hname))
        (isGrounded_append hne hg) hv
      obtain ⟨added, rfl, hincreasing, hbelow⟩ := ih hsorted hothers h
      refine ⟨here ++ added, by simp,
        List.pairwise_append.2 ⟨hhere.increasing, hincreasing, ?_⟩, ?_⟩
      · intro a ha b hb
        obtain ⟨other, ho, hprefix⟩ := hbelow b hb
        exact lt_of_branches (hfirst other ho) (hhere.below a ha) hprefix
      · intro x hx
        rcases List.mem_append.1 hx with hx | hx
        · exact ⟨name, List.mem_cons_self, hhere.below x hx⟩
        · obtain ⟨other, ho, hprefix⟩ := hbelow x hx
          exact ⟨other, List.mem_cons_of_mem _ ho, hprefix⟩

/-- A walk records targets at and below its place, in increasing order. -/
theorem visit_increasing (hfs : ∀ name ∈ fs.root.names, IsPlain name) (depth : Nat) {source : Path}
    (hne : place ≠ []) (hplace : ∀ n ∈ place, IsPlain n) (hg : IsGrounded place)
    (h : (visit fs entry depth (rooted place) source before).outcome = .ok after) :
    ∃ added, after = before ++ added ∧ IsIncreasingBelow place added := by
  induction depth generalizing place source before after with
  | zero => cases h
  | succ depth ih =>
    rcases visit_succ_eq_ok_iff.1 h with ⟨_, rfl⟩ | ⟨_, leaf, kind, _, hstep⟩
    · exact ⟨[], by simp, by simp, .nil⟩
    · rcases hstep with ⟨_, _, rfl⟩ | ⟨_, _, matcher, listed, _, hl, h⟩
      · refine ⟨_, rfl, ?_, List.pairwise_singleton _ _⟩
        intro x hx
        rw [List.mem_singleton.1 hx, components_rooted hplace]
      · obtain ⟨added, rfl, hincreasing, hbelow⟩ := visitNames_increasing hne hplace hg ih
          (FileSystem.pairwise_of_list hl)
          (fun n hn => hfs n ((FileSystem.list_eq_ok hl).2 n hn)) h
        refine ⟨added, rfl, fun x hx => ?_, hincreasing⟩
        obtain ⟨name, _, hprefix⟩ := hbelow x hx
        exact (List.prefix_append _ _).trans hprefix

end Order

section Exactness

variable {matcher : Matcher} {node : FileTree}

/-- Without links, an entry that is expanded reaches the files below a node that it comes to
without an ignored name. -/
theorem reaches_iff_at? (hfs : fs.IsSimple) (hx : isExpanded entry = true)
    (hm : entry.ignore.compile = .ok matcher) (hne : place ≠ []) (hplace : ∀ n ∈ place, IsPlain n)
    (hg : IsGrounded place) (hat : fs.root.at? place = some node) (below : List Name)
    (leaf : Path) :
    Reaches fs entry (rooted place) below leaf ↔
      (∃ content, node.at? below = some (.file content)) ∧
        (∀ name ∈ below, matcher.isMatch name = false) ∧ leaf = rooted (place ++ below) := by
  have hs := stands_of_at? hfs hne hplace hat
  induction below generalizing place node with
  | nil =>
    cases node with
    | link destination => exact absurd hat (at?_ne_link hfs.noLinks _ _)
    | file content =>
      rw [reaches_leaf_iff hs (by simp [kind]), List.append_nil]
      simp [at?]
    | dir entries =>
      rw [reaches_dir_iff hs hx hm (list_of_at? hfs hne hplace hat)]
      simp [at?]
  | cons name rest ih =>
    cases node with
    | link destination => exact absurd hat (at?_ne_link hfs.noLinks _ _)
    | file content =>
      rw [reaches_leaf_iff hs (by simp [kind])]
      simp [at?, child?]
    | dir entries =>
      rw [reaches_dir_iff hs hx hm (list_of_at? hfs hne hplace hat)]
      have hbelow := at?_concat hat name
      cases hchild : entryOf name entries with
      | none =>
        have hnot : name ∉ namesOf entries := by
          rw [← isSome_entryOf_iff, hchild]
          simp
        simp [at?, child?, hchild, hnot]
      | some child =>
        have hin : name ∈ namesOf entries := isSome_entryOf_iff.1 (by rw [hchild]; rfl)
        have hname := plain_of_at? hfs hat name hin
        have hplace' : ∀ n ∈ place ++ [name], IsPlain n :=
          isPlain_append hplace (by simpa using hname)
        rw [hchild] at hbelow
        have hrest := ih (by simp) hplace' (isGrounded_append hne hg) hbelow
          (stands_of_at? hfs (by simp) hplace' hbelow)
        simp only [List.cons.injEq, List.forall_mem_cons, at?, child?, hchild, Option.bind_some]
        rw [List.append_assoc] at hrest
        constructor
        · rintro ⟨_, _, ⟨rfl, rfl⟩, _, hfree, hr⟩
          rw [join_rooted hne hplace hg hname] at hr
          obtain ⟨hfile, hclear, hleaf⟩ := hrest.1 hr
          exact ⟨hfile, ⟨hfree, hclear⟩, hleaf⟩
        · rintro ⟨hfile, ⟨hfree, hclear⟩, hleaf⟩
          refine ⟨name, rest, ⟨rfl, rfl⟩, hin, hfree, ?_⟩
          rw [join_rooted hne hplace hg hname]
          exact hrest.2 ⟨hfile, hclear, hleaf⟩

theorem exists_visitNames_eq_ok {matcher : Matcher}
    {visit : Path → Path → Table → Traced Table} {target source : Path}
    {listed : List Name} (hvisit : ∀ name ∈ listed, ∀ before, ∃ after,
      (visit (join [target, name]) (join [source, name]) before).outcome = .ok after)
    (before : Table) :
    ∃ after, (visitNames visit matcher target source listed before).outcome = .ok after := by
  induction listed generalizing before with
  | nil => exact ⟨before, rfl⟩
  | cons name others ih =>
    obtain ⟨hname, hothers⟩ := List.forall_mem_cons.1 hvisit
    cases hmatch : matcher.isMatch name with
    | true =>
      obtain ⟨after, h⟩ := ih hothers before
      exact ⟨after, visitNames_cons_eq_ok_iff.2 (.inl ⟨hmatch, h⟩)⟩
    | false =>
      obtain ⟨between, hv⟩ := hname before
      obtain ⟨after, h⟩ := ih hothers between
      exact ⟨after, visitNames_cons_eq_ok_iff.2 (.inr ⟨hmatch, between, hv, h⟩)⟩

/-- Without links, a walk that may go deep enough succeeds wherever there is something. -/
theorem exists_visit_eq_ok (hfs : fs.IsSimple) (hx : isExpanded entry = true)
    (hm : entry.ignore.compile = .ok matcher) {depth : Nat} (hne : place ≠ [])
    (hplace : ∀ n ∈ place, IsPlain n) (hg : IsGrounded place)
    (hat : fs.root.at? place = some node) (hd : Suffices fs.root place depth) (target : Path)
    (before : Table) :
    ∃ after, (visit fs entry depth target (rooted place) before).outcome = .ok after := by
  induction depth generalizing place node target before with
  | zero => exact absurd hd.pos (Nat.lt_irrefl 0)
  | succ depth ih =>
    cases hheld : before.holds target with
    | true => exact ⟨before, visit_succ_eq_ok_iff.2 (.inl ⟨hheld, rfl⟩)⟩
    | false =>
      have hs := stands_of_at? hfs hne hplace hat
      cases node with
      | link destination => exact absurd hat (at?_ne_link hfs.noLinks _ _)
      | file content =>
        refine ⟨_, visit_succ_eq_ok_iff.2 (.inr ⟨hheld, _, _, hs, .inl ⟨?_, ?_, rfl⟩⟩)⟩
        · simp [kind]
        · simp [kind]
      | dir entries =>
        have hbelow : ∀ name ∈ namesOf entries, ∀ before, ∃ after,
            (visit fs entry depth (join [target, name]) (join [rooted place, name])
              before).outcome = .ok after := by
          intro name hin before
          have hname := plain_of_at? hfs hat name hin
          obtain ⟨child, hchild⟩ := Option.isSome_iff_exists.1 (isSome_entryOf_iff.2 hin)
          rw [join_rooted hne hplace hg hname]
          exact ih (by simp) (isPlain_append hplace (by simpa using hname))
            (isGrounded_append hne hg) ((at?_concat hat name).trans hchild) (hd.below hat hin) _ _
        obtain ⟨after, h⟩ := exists_visitNames_eq_ok hbelow before
        exact ⟨after, visit_succ_eq_ok_iff.2 (.inr ⟨hheld, _, _, hs, .inr ⟨rfl, hx, matcher, _, hm,
          list_of_at? hfs hne hplace hat, h⟩⟩)⟩

end Exactness

end Expansion

namespace Profile

open Compilation Expansion FileTree

variable {w : World} {settings : Settings} {drives : Bool} {document : Value} {profile : Profile}
  {entry : Entry} {matcher : Matcher} {node : FileTree}

/-- Expansion of a single entry is exact. In a source tree without links, whatever order its
directories hold their names in, the compiled table has an action for exactly the files at and
below the source with no ignored name on the way; their targets are at the same place below the
entry's target; and the table is sorted strictly by target. -/
theorem compile_single (hread : (Profile.read drives document).outcome = .ok profile)
    (hfree : Declaration.IsFreeOfDotLines document) (hfs : w.files.IsSimple)
    (hsource : IsPlainRoot settings.source) (htarget : IsPlainRoot settings.target)
    (hlinks : w.platform.links = true) (he : profile.entries.outcome = .ok [entry])
    (hx : entry.method = .copy ∨ entry.recursive = true)
    (hm : entry.ignore.compile = .ok matcher)
    (hat : w.files.root.at? (components settings.source ++ components entry.source) = some node) :
    ∃ compilation, (profile.compile w settings).outcome = .ok compilation ∧
      (∀ target action, (target, action) ∈ compilation.table ↔
        ∃ below content, node.at? below = some (.file content) ∧
          (∀ name ∈ below, matcher.isMatch name = false) ∧
          target = rooted (components settings.target ++ components entry.target ++ below) ∧
          action = ⟨rooted (components settings.source ++ components entry.source ++ below),
            entry.method⟩) ∧
      compilation.table.Pairwise fun a b => before a.1 b.1 = true := by
  have ht := Profile.isPlainTree hread hfree
  have hsourcePlain := isPlainPath_source he ht List.mem_cons_self
  have htargetPlain := (isSorted_entries ht he).plain entry List.mem_cons_self
  have hexpanded : isExpanded entry = true := by
    rw [isExpanded]
    rcases hx with hx | hx <;> simp [hx]
  have hne : components settings.source ++ components entry.source ≠ [] := by
    simp [hsource.ne_nil]
  have hplain := isPlain_append hsource.plain hsourcePlain.plain
  have hg : IsGrounded (components settings.source ++ components entry.source) :=
    isGrounded_append hsource.ne_nil hsource.grounded
  -- the walk of the entry's turn, which starts with nothing in the table
  obtain ⟨table, hwalk⟩ := exists_visit_eq_ok hfs hexpanded hm hne hplain hg hat
    (suffices_depthLimit w.files _) (rooted (place settings entry)) []
  have hturn : recordedBy w settings [entry] = .ok table := by
    refine recordedBy_cons_eq_ok.2 ⟨[], rfl, addEntry_eq_ok_iff.2 ⟨fun _ => hlinks, ?_⟩⟩
    rwa [join_target htarget htargetPlain, hsource.join_plainPath hsourcePlain]
  have hplace := place_plain htarget htargetPlain
  obtain ⟨leaves, rfl, hiff⟩ := visit_eq_ok hfs.plain _ (place_ne_nil htarget) hplace
    (place_isGrounded htarget) hwalk
  obtain ⟨added, hadded, _, hincreasing⟩ := visit_increasing hfs.plain _ (place_ne_nil htarget)
    hplace (place_isGrounded htarget) hwalk
  refine ⟨⟨_, profile.diagnostics⟩, compile_eq_ok_iff.2 ⟨_, he, hturn, rfl⟩, ?_, ?_⟩
  · intro target action
    have hreaches := fun below leaf => reaches_iff_at? hfs hexpanded hm hne hplain hg hat below leaf
    rw [List.nil_append, actionsAt, List.mem_map]
    constructor
    · rintro ⟨⟨below, leaf⟩, hmem, he⟩
      cases he
      obtain ⟨⟨content, hfile⟩, hclear, rfl⟩ := (hreaches below leaf).1 ((hiff below leaf).1 hmem).1
      exact ⟨below, content, hfile, hclear, rfl, rfl⟩
    · rintro ⟨below, content, hfile, hclear, rfl, rfl⟩
      have hr := (hreaches below _).2 ⟨⟨content, hfile⟩, hclear, rfl⟩
      exact ⟨(below, _), (hiff _ _).2 ⟨hr, fun _ _ => rfl⟩, rfl⟩
  · rw [hadded]
    exact hincreasing.imp fun hab => (before_iff_lt _ _).2 hab

/-- A copied directory with an ignored kind of files. -/
def sparing : Value :=
  .map [(.text "a".toList, .map [(.text "~source".toList, .scalar (.text "s".toList)),
    (.text "~ignore".toList, .list [.scalar (.text "*.bak".toList)])])]

/-- The directory, with files in it and in a directory below it. -/
def sparingWorld : World where
  files := ⟨.dir [("x".toList, .dir [("s".toList, .dir [
    ("g".toList, .file (.bytes [])),
    ("d".toList, .dir [("f.bak".toList, .file (.bytes [])), ("f".toList, .file (.bytes []))])])])],
    []⟩
  environment := []
  users := []
  uid := 0
  platform := .posix

def sparingRoots : Settings := ⟨"/x".toList, "/t".toList, 0⟩

/-- The file in the inner directory is copied, and the table is sorted. -/
theorem compile_single_sparing : ∃ profile compilation,
    (Profile.read false sparing).outcome = .ok profile ∧
    (profile.compile sparingWorld sparingRoots).outcome = .ok compilation ∧
    ("/t/a/d/f".toList, ⟨"/x/s/d/f".toList, .copy⟩) ∈ compilation.table ∧
    compilation.table.Pairwise fun a b => before a.1 b.1 = true := by
  obtain ⟨profile, hread, hentries⟩ : ∃ profile,
      (Profile.read false sparing).outcome = .ok profile ∧ profile.entries.outcome =
        .ok [⟨"a".toList, "s".toList, .copy, false, ⟨["*.bak".toList]⟩⟩] :=
    ⟨_, rfl, entries_of_perm rfl (List.Perm.refl _) (by decide +kernel)⟩
  obtain ⟨matcher, hm, hclear⟩ : ∃ matcher, (GlobList.mk ["*.bak".toList]).compile = .ok matcher ∧
      ∀ name ∈ ["d".toList, "f".toList], matcher.isMatch name = false :=
    ⟨_, rfl, by decide +kernel⟩
  have hfs : sparingWorld.files.IsSimple := ⟨by decide +kernel, rfl, by decide +kernel⟩
  have hsource : IsPlainRoot sparingRoots.source := ⟨rfl, by decide, by decide, by decide⟩
  have htarget : IsPlainRoot sparingRoots.target := ⟨rfl, by decide, by decide, by decide⟩
  obtain ⟨compilation, hcompile, htable, hsorted⟩ := compile_single hread (by decide +kernel) hfs
    hsource htarget rfl hentries (.inl rfl) hm rfl
  refine ⟨profile, compilation, hread, hcompile, (htable _ _).2 ?_, hsorted⟩
  exact ⟨["d".toList, "f".toList], .bytes [], rfl, hclear, by decide +kernel, by decide +kernel⟩

end Profile

end Dotfiles
