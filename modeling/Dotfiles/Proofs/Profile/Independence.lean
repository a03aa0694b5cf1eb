import Dotfiles.Proofs.Profile.DocumentOrder
import Dotfiles.Proofs.Profile.Rearranged
import Dotfiles.Proofs.Profile.Resolving

/-!
Independent declarations. If no two declarations of one target set the same thing, neither
the order in which they are merged nor the order of the nodes that they make can be seen in
the entries: what is declared at a place is found there, and entries are sorted.
-/

namespace Dotfiles

open Dotfiles.Path ProfileTree Value

/-- Whether nothing is set by both of two declarations. -/
structure Attributes.IsDisjoint (a b : Attributes) : Prop where
  source : a.source = none ∨ b.source = none
  method : a.method = none ∨ b.method = none
  recursive : a.recursive = none ∨ b.recursive = none
  globs : a.globs.globs = [] ∨ b.globs.globs = []

theorem Attributes.isDisjoint_iff (a b : Attributes) : a.IsDisjoint b ↔
    (a.source = none ∨ b.source = none) ∧ (a.method = none ∨ b.method = none) ∧
      (a.recursive = none ∨ b.recursive = none) ∧ (a.globs.globs = [] ∨ b.globs.globs = []) :=
  ⟨fun h => ⟨h.source, h.method, h.recursive, h.globs⟩, fun ⟨h₁, h₂, h₃, h₄⟩ => ⟨h₁, h₂, h₃, h₄⟩⟩

instance (a b : Attributes) : Decidable (a.IsDisjoint b) :=
  decidable_of_iff' _ (a.isDisjoint_iff b)

/-- Whether no two declarations of a document for the same target set the same thing. -/
def Declaration.AreIndependent (document : Value) : Prop :=
  (written document).Pairwise fun d e =>
    d.1.flatMap components = e.1.flatMap components → d.2.IsDisjoint e.2

instance (document : Value) : Decidable (Declaration.AreIndependent document) :=
  inferInstanceAs (Decidable (List.Pairwise _ _))

/-- Whether an entry is another one with the globs in another order. -/
structure Entry.Reorders (exact : Bool) (e e' : Entry) : Prop where
  target : e'.target = e.target
  source : e'.source = e.source
  method : e'.method = e.method
  recursive : e'.recursive = e.recursive
  ignore : e.ignore.Reorders exact e'.ignore

section Lists

variable {α β : Type}

theorem Attributes.IsDisjoint.symm {a b : Attributes} (h : a.IsDisjoint b) : b.IsDisjoint a :=
  ⟨h.source.symm, h.method.symm, h.recursive.symm, h.globs.symm⟩

/-- If only one of several declarations sets something, that is what the last one sets. -/
theorem Attributes.lastSet_eq_some_iff {field : Attributes → Option α}
    {declared : List Attributes}
    (h : declared.Pairwise fun a b => field a = none ∨ field b = none) {x : α} :
    lastSet field declared = some x ↔ ∃ a ∈ declared, field a = some x := by
  refine ⟨exists_of_lastSet, ?_⟩
  induction declared with
  | nil => simp
  | cons a rest ih =>
    obtain ⟨hhead, hrest⟩ := List.pairwise_cons.1 h
    rintro ⟨b, hb, hx⟩
    rw [← List.singleton_append, lastSet_append, lastSet_singleton]
    rcases List.mem_cons.1 hb with rfl | hb
    · cases hl : lastSet field rest with
      | none => exact hx
      | some y =>
        obtain ⟨c, hc, hy⟩ := exists_of_lastSet hl
        rcases hhead c hc with hnone | hnone
        · rw [hx] at hnone
          cases hnone
        · rw [hy] at hnone
          cases hnone
    · rw [ih hrest ⟨b, hb, hx⟩]
      rfl

theorem Attributes.lastSet_perm {field : Attributes → Option α} {first second : List Attributes}
    (hperm : first.Perm second)
    (h : first.Pairwise fun a b => field a = none ∨ field b = none) :
    lastSet field first = lastSet field second := by
  have h' := (hperm.pairwise_iff fun hab => Or.symm hab).1 h
  ext x
  rw [lastSet_eq_some_iff h, lastSet_eq_some_iff h']
  exact exists_congr fun a => by rw [hperm.mem_iff]

theorem Attributes.lastSet_congr {field : Attributes → Option α} {first second : List Attributes}
    (h : List.Forall₂ (fun a b => field a = field b) first second) :
    lastSet field first = lastSet field second := by
  induction h with
  | nil => rfl
  | cons hhead _ ih =>
    rw [← List.singleton_append, lastSet_append, lastSet_singleton, ih, hhead,
      ← lastSet_singleton field, ← lastSet_append, List.singleton_append]

/-- Of lists only one of which is not empty, the order does not matter. -/
theorem flatMap_perm_of_pairwise {f : α → List β} {first second : List α}
    (hperm : first.Perm second) (h : first.Pairwise fun a b => f a = [] ∨ f b = []) :
    first.flatMap f = second.flatMap f := by
  induction hperm with
  | nil => rfl
  | cons x _ ih => rw [List.flatMap_cons, List.flatMap_cons, ih (List.pairwise_cons.1 h).2]
  | swap x y rest =>
    rcases (List.pairwise_cons.1 h).1 x List.mem_cons_self with hy | hx
    · simp [hy]
    · simp [hx]
  | trans hfirst _ ih ih' =>
    rw [ih h, ih' ((hfirst.pairwise_iff fun hab => Or.symm hab).1 h)]

end Lists

section Merging

variable {exact : Bool}

theorem GlobList.Reorders.flatMap {α : Type} {R : α → α → Prop} {f : α → List Text}
    {first second : List α} (h : List.Forall₂ R first second)
    (hf : ∀ a b, R a b → GlobList.Reorders exact ⟨f a⟩ ⟨f b⟩) :
    GlobList.Reorders exact ⟨first.flatMap f⟩ ⟨second.flatMap f⟩ := by
  induction h with
  | nil => exact .refl _
  | cons hhead _ ih =>
    rw [List.flatMap_cons, List.flatMap_cons]
    exact (hf _ _ hhead).union ih

/-- Independent declarations merge to the same in every order. -/
theorem Attributes.reorders_mergeAll {first reordered second : List Attributes}
    (hd : first.Pairwise IsDisjoint) (hperm : first.Perm reordered)
    (h : List.Forall₂ (Reorders exact) reordered second) :
    (mergeAll first).Reorders exact (mergeAll second) := by
  have hfirst := lastWins_mergeAll first
  have hsecond := lastWins_mergeAll second
  refine ⟨?_, ?_, ?_, ?_⟩
  · rw [hfirst.source, hsecond.source, lastSet_perm hperm (hd.imp fun hab => hab.source)]
    exact (lastSet_congr (h.imp fun a b hab => hab.source.symm)).symm
  · rw [hfirst.method, hsecond.method, lastSet_perm hperm (hd.imp fun hab => hab.method)]
    exact (lastSet_congr (h.imp fun a b hab => hab.method.symm)).symm
  · rw [hfirst.recursive, hsecond.recursive,
      lastSet_perm hperm (hd.imp fun hab => hab.recursive)]
    exact (lastSet_congr (h.imp fun a b hab => hab.recursive.symm)).symm
  · have hglobs : (mergeAll first).globs = ⟨reordered.flatMap fun a => a.globs.globs⟩ := by
      rw [← flatMap_perm_of_pairwise hperm (hd.imp fun hab => hab.globs), ← hfirst.globs]
    have hglobs' : (mergeAll second).globs = ⟨second.flatMap fun a => a.globs.globs⟩ := by
      rw [← hsecond.globs]
    rw [hglobs, hglobs']
    exact GlobList.Reorders.flatMap h fun a b hab => hab.globs

end Merging

section Trees

open Declaration

variable {exact drives : Bool} {document document' : Value} {profile profile' : Profile}

/-- Rewritten declarations hold for every place the same ones, in another order. -/
theorem Declaration.Rewrites.declaredFor {declared declared' : List (List Path × Attributes)}
    (h : Rewrites exact declared declared') (place : List Name) :
    ∃ reordered, (ProfileTree.declaredFor place declared).Perm reordered ∧
      List.Forall₂ (Attributes.Reorders exact) reordered
        (ProfileTree.declaredFor place declared') := by
  obtain ⟨middle, hr, hperm⟩ := h
  have hcomp : Relation.Comp (List.Forall₂ (Reorders exact)) List.Perm declared declared' :=
    ⟨middle, hr, hperm⟩
  rw [List.forall₂_comp_perm_eq_perm_comp_forall₂] at hcomp
  obtain ⟨sorted, hsorted, hpairs⟩ := hcomp
  refine ⟨ProfileTree.declaredFor place sorted, (hsorted.filter _).map _, ?_⟩
  rw [ProfileTree.declaredFor, ProfileTree.declaredFor, List.forall₂_map_left_iff,
    List.forall₂_map_right_iff]
  refine (List.rel_filter (R := Reorders exact) ?_ hpairs).imp fun d d' hd => hd.2
  intro d d' hd
  show decide (d.1.flatMap components = place) = true ↔ decide (d'.1.flatMap components = place) = true
  rw [hd.1]

theorem Declaration.Rewrites.exists_mem {declared declared' : List (List Path × Attributes)}
    (h : Rewrites exact declared declared') {d' : List Path × Attributes} (hd : d' ∈ declared') :
    ∃ d ∈ declared, Reorders exact d d' := by
  obtain ⟨middle, hr, hperm⟩ := h
  rw [← hperm.mem_iff] at hd
  clear hperm
  induction hr with
  | nil => cases hd
  | cons hhead _ ih =>
    rcases List.mem_cons.1 hd with rfl | hd
    · exact ⟨_, List.mem_cons_self, hhead⟩
    · obtain ⟨d, hm, hrel⟩ := ih hd
      exact ⟨d, List.mem_cons_of_mem _ hm, hrel⟩

/-- Rewritten declarations are for the same keys. -/
theorem Declaration.Rewrites.map_fst {declared declared' : List (List Path × Attributes)}
    (h : Rewrites exact declared declared') :
    (declared.map (·.1)).Perm (declared'.map (·.1)) := by
  obtain ⟨middle, hr, hperm⟩ := h
  have hkeys : declared.map (·.1) = middle.map (·.1) := by
    clear hperm
    induction hr with
    | nil => rfl
    | cons hhead _ ih => rw [List.map_cons, List.map_cons, ih, hhead.1]
  rw [hkeys]
  exact hperm.map _

/-- The declarations of a place are disjoint, in whatever order they come. -/
theorem Declaration.AreIndependent.declaredFor (h : AreIndependent document) (place : List Name) :
    (ProfileTree.declaredFor place (gatheredOrder (written document))).Pairwise
      Attributes.IsDisjoint := by
  have hperm : (gatheredOrder (written document)).Perm (written document) :=
    List.mergeSort_perm _ _
  have hsymm : ∀ {d e : List Path × Attributes},
      (d.1.flatMap components = e.1.flatMap components → d.2.IsDisjoint e.2) →
      (e.1.flatMap components = d.1.flatMap components → e.2.IsDisjoint d.2) :=
    fun hde he => (hde he.symm).symm
  have hall := (hperm.pairwise_iff hsymm).2 h
  rw [ProfileTree.declaredFor, List.pairwise_map]
  refine (hall.filter _).imp_of_mem ?_
  intro d e hd he hde
  have hp := of_decide_eq_true (List.mem_filter.1 hd).2
  have hq := of_decide_eq_true (List.mem_filter.1 he).2
  exact hde (hp.trans hq.symm)

/-- Rearranging a document leaves out no place and no component. -/
theorem Declaration.isFreeOfDotLines_of_rewrites
    (h : Rewrites exact (written document) (written document'))
    (hfree : IsFreeOfDotLines document) : IsFreeOfDotLines document' := by
  intro d' hd'
  obtain ⟨d, hd, hkeys, hr⟩ := h.exists_mem hd'
  rw [hkeys, hr.source]
  exact hfree d hd

/-- Whether two trees hold the same at every place, up to the order of globs. -/
def ProfileTree.Reorders (exact : Bool) (t t' : ProfileTree) : Prop :=
  ∀ place, Option.Rel (Attributes.Reorders exact) (t.attributesAt? place) (t'.attributesAt? place)

/-- The trees of components of two documents that declare the same independently. -/
theorem Profile.reorders_byComponent
    (hread : (Profile.read drives document).outcome = .ok profile)
    (hread' : (Profile.read drives document').outcome = .ok profile')
    (hind : AreIndependent document)
    (h : Rewrites exact (written document) (written document')) :
    ProfileTree.Reorders exact profile.declarations.byComponent
      profile'.declarations.byComponent := by
  intro place
  have hg := Profile.gathers_declarations hread
  have hg' := Profile.gathers_declarations hread'
  have hsome : (profile.declarations.byComponent.attributesAt? place).isSome =
      (profile'.declarations.byComponent.attributesAt? place).isSome := by
    rw [Bool.eq_iff_iff, hg.isSome_byComponent_iff (written_ne_nil document),
      hg'.isSome_byComponent_iff (written_ne_nil document')]
    have hmem : ∀ {declared : List (List Path × Attributes)},
        (∃ d ∈ declared, place <+: d.1.flatMap components) ↔
          ∃ keys ∈ declared.map (·.1), place <+: keys.flatMap components := by
      intro declared
      simp
    rw [hmem, hmem]
    exact exists_congr fun keys => by rw [h.map_fst.mem_iff]
  have hperm : (gatheredOrder (written document)).Perm (written document) :=
    List.mergeSort_perm _ _
  have hperm' : (written document').Perm (gatheredOrder (written document')) :=
    (List.mergeSort_perm _ _).symm
  obtain ⟨reordered, hp, hr⟩ := ((h.perm hperm').of_perm_left hperm).declaredFor place
  have hmerged := Attributes.reorders_mergeAll (hind.declaredFor place) hp hr
  rw [← hg.getD_byComponent, ← hg'.getD_byComponent] at hmerged
  cases ha : profile.declarations.byComponent.attributesAt? place with
  | none =>
    rw [ha, Option.isSome_none] at hsome
    rw [Option.isSome_eq_false_iff.1 hsome.symm |> Option.isNone_iff_eq_none.1]
    exact .none
  | some a =>
    cases ha' : profile'.declarations.byComponent.attributesAt? place with
    | none =>
      rw [ha, ha'] at hsome
      cases hsome
    | some a' =>
      rw [ha, ha'] at hmerged
      exact .some hmerged

end Trees

section Entries

variable {exact : Bool} {t t' : ProfileTree}

/-- What is nearest is the same, if the field does not tell globs. -/
theorem ProfileTree.Reorders.nearest?_eq {α : Type} {field : Attributes → Option α}
    (h : t.Reorders exact t')
    (hfield : ∀ a a' : Attributes, a.Reorders exact a' → field a' = field a) (place : List Name) :
    nearest? field t' place = nearest? field t place := by
  refine ProfileTree.nearest?_eq_of_bind (fun above => ?_) place
  have hr := h above
  generalize t.attributesAt? above = x at hr ⊢
  generalize t'.attributesAt? above = y at hr ⊢
  cases hr with
  | none => rfl
  | some hr => exact hfield _ _ hr

theorem ProfileTree.Reorders.isSome_eq (h : t.Reorders exact t') (place : List Name) :
    (t'.attributesAt? place).isSome = (t.attributesAt? place).isSome := by
  have hr := h place
  generalize t.attributesAt? place = x at hr ⊢
  generalize t'.attributesAt? place = y at hr ⊢
  cases hr <;> rfl

theorem ProfileTree.Reorders.isOpen_iff (h : t.Reorders exact t') : IsOpen t' ↔ IsOpen t := by
  refine forall_congr' fun place => forall_congr' fun name => ?_
  rw [h.isSome_eq, isSealedAt, isSealedAt, h.nearest?_eq fun a a' hr => hr.method,
    h.nearest?_eq fun a a' hr => hr.recursive]

theorem ProfileTree.Reorders.globsDownTo (h : t.Reorders exact t') (place : List Name) :
    (ProfileTree.globsDownTo t place).Reorders exact (ProfileTree.globsDownTo t' place) := by
  have hglobs : ∀ above, ((t.attributesAt? above).getD .empty).globs.Reorders exact
      ((t'.attributesAt? above).getD .empty).globs := by
    intro above
    have hr := h above
    generalize t.attributesAt? above = x at hr ⊢
    generalize t'.attributesAt? above = y at hr ⊢
    cases hr with
    | none => exact .refl _
    | some hr => exact hr.globs
  have hmap : ∀ tree : ProfileTree, ProfileTree.globsDownTo tree place =
      ⟨(place.inits.map fun above => ((tree.attributesAt? above).getD .empty).globs).flatMap
        (·.globs)⟩ := by
    intro tree
    rw [ProfileTree.globsDownTo, List.flatMap_map]
  rw [hmap, hmap]
  refine GlobList.Reorders.flatMap (R := GlobList.Reorders exact) ?_ fun _ _ hl => hl
  rw [List.forall₂_map_left_iff, List.forall₂_map_right_iff]
  exact List.forall₂_same.2 fun above _ => hglobs above

/-- The entries of a place are the same up to the order of globs. -/
theorem ProfileTree.Reorders.inherited? (h : t.Reorders exact t') (target : Path)
    (place : List Name) :
    Option.Rel (Entry.Reorders exact) (ProfileTree.inherited? t target place)
      (ProfileTree.inherited? t' target place) := by
  unfold ProfileTree.inherited?
  rw [h.isSome_eq, h.nearest?_eq fun a a' hr => hr.source,
    h.nearest?_eq fun a a' hr => hr.method, h.nearest?_eq fun a a' hr => hr.recursive]
  split
  · cases nearest? (·.source) t place with
    | none => exact .none
    | some source => exact .some ⟨rfl, rfl, rfl, rfl, h.globsDownTo place⟩
  · exact .none

/-- Two sequences that are sorted by what related items share, each item of which has a related
one in the other, are related item by item. -/
theorem forall₂_of_pairwise_lt {α β γ : Type} [Preorder γ] {R : α → β → Prop} {f : α → γ}
    {g : β → γ} (hkey : ∀ a b, R a b → f a = g b) :
    ∀ {first : List α} {second : List β},
      first.Pairwise (fun a b => f a < f b) → second.Pairwise (fun a b => g a < g b) →
      (∀ a ∈ first, ∃ b ∈ second, R a b) → (∀ b ∈ second, ∃ a ∈ first, R a b) →
      List.Forall₂ R first second
  | [], [], _, _, _, _ => .nil
  | [], b :: _, _, _, _, h => by
    obtain ⟨a, ha, _⟩ := h b List.mem_cons_self
    cases ha
  | a :: _, [], _, _, h, _ => by
    obtain ⟨b, hb, _⟩ := h a List.mem_cons_self
    cases hb
  | a :: first, b :: second, hf, hg, h, h' => by
    obtain ⟨hfa, hf⟩ := List.pairwise_cons.1 hf
    obtain ⟨hgb, hg⟩ := List.pairwise_cons.1 hg
    -- the least items of both sequences can only be related to each other
    have hab : R a b := by
      obtain ⟨d, hd, had⟩ := h a List.mem_cons_self
      obtain ⟨c, hc, hcb⟩ := h' b List.mem_cons_self
      rcases List.mem_cons.1 hd with rfl | hd
      · exact had
      · rcases List.mem_cons.1 hc with rfl | hc
        · exact hcb
        · have hbd := hgb d hd
          rw [← hkey a d had, ← hkey c b hcb] at hbd
          exact absurd (hbd.trans (hfa c hc)) (lt_irrefl _)
    refine .cons hab (forall₂_of_pairwise_lt hkey hf hg ?_ ?_)
    · intro c hc
      obtain ⟨d, hd, hcd⟩ := h c (List.mem_cons_of_mem _ hc)
      rcases List.mem_cons.1 hd with rfl | hd
      · have hac := hfa c hc
        rw [hkey a _ hab, hkey c _ hcd] at hac
        exact absurd hac (lt_irrefl _)
      · exact ⟨d, hd, hcd⟩
    · intro d hd
      obtain ⟨c, hc, hcd⟩ := h' d (List.mem_cons_of_mem _ hd)
      rcases List.mem_cons.1 hc with rfl | hc
      · have hbd := hgb d hd
        rw [← hkey _ b hab, ← hkey _ d hcd] at hbd
        exact absurd hbd (lt_irrefl _)
      · exact ⟨c, hc, hcd⟩

variable {profile profile' : Profile} {entries entries' : List Entry}

/-- Profiles whose trees hold the same at every place have the same entries, up to the order of
globs. -/
theorem Profile.reorders_entries
    (h : ProfileTree.Reorders exact profile.declarations.byComponent
      profile'.declarations.byComponent)
    (ht : IsPlainTree profile.declarations.byComponent)
    (ht' : IsPlainTree profile'.declarations.byComponent)
    (hentries : profile.entries.outcome = .ok entries)
    (hentries' : profile'.entries.outcome = .ok entries') :
    List.Forall₂ (Entry.Reorders exact) entries entries' := by
  refine forall₂_of_pairwise_lt (f := fun e => components e.target)
    (g := fun e => components e.target) (fun e e' he => by rw [he.target])
    (Profile.pairwise_entries hentries ht) (Profile.pairwise_entries hentries' ht') ?_ ?_
  · intro e he
    have hlaw := (Profile.mem_entries_iff hentries ht _ e).1 ⟨he, rfl⟩
    have hrel := h.inherited? (ofSegments (components e.target)) (components e.target)
    rw [hlaw] at hrel
    generalize hx : ProfileTree.inherited? _ _ _ = x at hrel
    cases hrel with
    | some hr => exact ⟨_, ((Profile.mem_entries_iff hentries' ht' _ _).2 hx).1, hr⟩
  · intro e' he
    have hlaw := (Profile.mem_entries_iff hentries' ht' _ e').1 ⟨he, rfl⟩
    have hrel := h.inherited? (ofSegments (components e'.target)) (components e'.target)
    rw [hlaw] at hrel
    generalize hx : ProfileTree.inherited? _ _ _ = x at hrel
    cases hrel with
    | some hr => exact ⟨_, ((Profile.mem_entries_iff hentries ht _ _).2 hx).1, hr⟩

end Entries

theorem Entry.Reorders.eq {e e' : Entry} (h : e.Reorders true e') : e' = e := by
  obtain ⟨target, source, method, recursive, ignore⟩ := e
  obtain ⟨ht, hs, hm, hr, hi⟩ := h
  cases e'
  cases ht
  cases hs
  cases hm
  cases hr
  cases hi.2 rfl
  rfl

open Declaration

/-- Independent declarations commute. A document whose mappings are rearranged is read just if it
is read as it was, it resolves just if it did, and refusing children is the only way in which it
may not. Its entries are the same up to the order of globs, and the same altogether unless an
ignore list is written as a mapping, whose keys are globs in the order of the mapping. -/
theorem Profile.entries_rearranged {drives : Bool} {document document' : Value}
    (hkeyed : document.isKeyed = true) (hind : AreIndependent document)
    (hfree : IsFreeOfDotLines document) (h : Rearranges document document') :
    (Profile.read drives document').outcome.isOk = (Profile.read drives document).outcome.isOk ∧
      ∀ profile profile', (Profile.read drives document).outcome = .ok profile →
        (Profile.read drives document').outcome = .ok profile' →
        profile'.entries.outcome.isOk = profile.entries.outcome.isOk ∧
        (∀ e, profile.entries.outcome = .error e ∨ profile'.entries.outcome = .error e →
          ∃ target, e = .unexpectedChildren target) ∧
        ∀ entries entries', profile.entries.outcome = .ok entries →
          profile'.entries.outcome = .ok entries' →
          List.Forall₂ (Entry.Reorders (listsGlobs document)) entries entries' ∧
            (listsGlobs document = true → entries' = entries) := by
  have hwritten : Rewrites (listsGlobs document) (written document) (written document') :=
    rewrites_written h hkeyed id
  refine ⟨by rw [isOk_profile, isOk_profile, isDeclaration_of_rearranges h], ?_⟩
  intro profile profile' hread hread'
  have htrees := Profile.reorders_byComponent hread hread' hind hwritten
  refine ⟨?_, ?_, ?_⟩
  · rw [Bool.eq_iff_iff, Profile.isOk_entries_iff, Profile.isOk_entries_iff, htrees.isOpen_iff]
  · rintro e (he | he)
    · exact Profile.entries_eq_error he
    · exact Profile.entries_eq_error he
  · intro entries entries' hentries hentries'
    have hsame := Profile.reorders_entries htrees (Profile.isPlainTree hread hfree)
      (Profile.isPlainTree hread' (isFreeOfDotLines_of_rewrites hwritten hfree)) hentries hentries'
    refine ⟨hsame, fun hlists => ?_⟩
    rw [hlists] at hsame
    exact (List.forall₂_eq_eq_eq ▸ hsame.imp fun e e' he => he.eq.symm : entries = entries').symm

/-- A directory with a link in it and a template below a second spelling of its name. -/
def splitDirectory : Fields :=
  [(.text "a".toList, .map [
    (.text "~source".toList, .scalar (.text "s".toList)),
    (.text "b".toList, .scalar (.text "<link>".toList))]),
   (.text "./a".toList, .map [(.text "c".toList, .scalar (.text "<template>".toList))])]

/-- Both spellings of a directory may come first. -/
theorem Profile.entries_rearranged_splitDirectory :
    ∃ profile profile' entries,
      (Profile.read false (.map splitDirectory)).outcome = .ok profile ∧
      (Profile.read false (.map splitDirectory.reverse)).outcome = .ok profile' ∧
      profile.entries.outcome = .ok entries ∧ profile'.entries.outcome = .ok entries := by
  have hkeyed : (Value.map splitDirectory).isKeyed = true := by decide +kernel
  have hind : AreIndependent (.map splitDirectory) := by decide +kernel
  have hfree : IsFreeOfDotLines (.map splitDirectory) := by decide +kernel
  have h : Rearranges (.map splitDirectory) (.map splitDirectory.reverse) :=
    rearranges_of_perm (List.reverse_perm _).symm
  obtain ⟨profile, hread, entries, hentries⟩ : ∃ profile,
      (Profile.read false (.map splitDirectory)).outcome = .ok profile ∧
      ∃ entries, profile.entries.outcome = .ok entries := ⟨_, rfl, _, rfl⟩
  obtain ⟨hreads, hresolves⟩ :=
    @Profile.entries_rearranged false _ _ hkeyed hind hfree h
  rw [hread] at hreads
  obtain ⟨profile', hread'⟩ := Except.isOk_iff.1 hreads
  obtain ⟨hok, _, hsame⟩ := hresolves profile profile' hread hread'
  rw [hentries] at hok
  obtain ⟨entries', hentries'⟩ := Except.isOk_iff.1 hok
  have hlists : listsGlobs (.map splitDirectory) = true := by decide +kernel
  have heq := (hsame entries entries' hentries hentries').2 hlists
  exact ⟨profile, profile', entries, hread, hread', hentries, heq ▸ hentries'⟩

/-- A directory with an ignore list that is written as a mapping. -/
def globMapping (first second : Text) : Value :=
  .map [(.text "a".toList, .map [
    (.text "~source".toList, .scalar (.text "s".toList)),
    (.text "~ignore".toList, .map [(.text first, .null), (.text second, .null)])])]

/-- The keys of a mapping that is taken for an ignore list are globs in its order. -/
theorem Profile.not_entries_rearranged :
    ∃ profile profile',
      (globMapping "x".toList "y".toList).isKeyed = true ∧
      AreIndependent (globMapping "x".toList "y".toList) ∧
      IsFreeOfDotLines (globMapping "x".toList "y".toList) ∧
      Rearranges (globMapping "x".toList "y".toList) (globMapping "y".toList "x".toList) ∧
      (Profile.read false (globMapping "x".toList "y".toList)).outcome = .ok profile ∧
      (Profile.read false (globMapping "y".toList "x".toList)).outcome = .ok profile' ∧
      profile.entries.outcome =
        .ok [⟨"a".toList, "s".toList, .copy, false, ⟨["x".toList, "y".toList]⟩⟩] ∧
      profile'.entries.outcome =
        .ok [⟨"a".toList, "s".toList, .copy, false, ⟨["y".toList, "x".toList]⟩⟩] := by
  refine ⟨_, _, by decide +kernel, by decide +kernel, by decide +kernel, ?_, rfl, rfl,
    entries_of_perm rfl (.refl _) (by decide +kernel),
    entries_of_perm rfl (.refl _) (by decide +kernel)⟩
  have hglobs : Rearranges
      (.map [(.text "x".toList, .null), (.text "y".toList, .null)])
      (.map [(.text "y".toList, .null), (.text "x".toList, .null)]) :=
    rearranges_of_perm (.swap _ _ _)
  have hnone := rearrangesBelow_refl []
  refine rearranges_map (rearrangesBelow_cons _ (rearranges_map ?_) hnone)
  exact rearrangesBelow_cons _ (rearranges_refl _) (rearrangesBelow_cons _ hglobs hnone)

end Dotfiles
