import Dotfiles.Compile.Expansion
import Dotfiles.Proofs.Profile.Resolving

/-!
A tree with one more node that declares nothing. The new node takes over everything from the
node above it, and no other node sees it. So the entries stay the same, and there is one more,
which continues the entry of the node above, unless that node is made in one piece.
-/

namespace Dotfiles.ProfileTree

open Dotfiles.Path

/-- Whether a tree is another one with a new node, which declares nothing, below the node at a
place. -/
structure Grows (place : List Name) (name : Name) (tree tree' : ProfileTree) : Prop where
  parent : (tree.attributesAt? place).isSome = true
  new : tree.attributesAt? (place ++ [name]) = none
  attributes : ∀ asked, tree'.attributesAt? asked =
    if asked = place ++ [name] then some .empty else tree.attributesAt? asked

variable {place asked : List Name} {name : Name} {tree tree' : ProfileTree} {target : Path}
  {entry : Entry}

section Nearest

variable {α : Type} {field : Attributes → Option α}

theorem Grows.nearest?_eq (h : Grows place name tree tree') (hfield : field .empty = none) :
    nearest? field tree' asked = nearest? field tree asked := by
  refine nearest?_eq_of_bind (fun above => ?_) asked
  rw [h.attributes]
  split
  · rename_i he
    rw [he, h.new, Option.bind_some, hfield]
    rfl
  · rfl

theorem Grows.globsDownTo_eq (h : Grows place name tree tree') :
    globsDownTo tree' asked = globsDownTo tree asked := by
  unfold globsDownTo
  congr 2
  funext above
  rw [h.attributes]
  split
  · rename_i he
    rw [he, h.new]
    rfl
  · rfl

/-- Where there is no node, the nearest one is that of the place above, one name farther. -/
theorem nearest?_append_of_none (h : tree.attributesAt? (place ++ [name]) = none) :
    nearest? field tree (place ++ [name]) =
      (nearest? field tree place).map fun x => (x.1, x.2 ++ [name]) := by
  induction place generalizing tree with
  | nil =>
    obtain ⟨own, children⟩ := tree
    rw [List.nil_append, attributesAt?_cons] at h
    rw [List.nil_append, nearest?_cons, nearest?_nil, Option.map_map]
    cases hc : childOf name children with
    | none => rfl
    | some child =>
      obtain ⟨below, others⟩ := child
      rw [hc] at h
      cases h
  | cons key rest ih =>
    obtain ⟨own, children⟩ := tree
    rw [List.cons_append, attributesAt?_cons] at h
    rw [List.cons_append, nearest?_cons, nearest?_cons, Option.map_or, Option.map_map]
    cases hc : childOf key children with
    | none => rfl
    | some child =>
      rw [hc, Option.bind_some] at h
      rw [Option.bind_some, Option.bind_some, ih h]
      rfl

theorem globsDownTo_append_of_none (h : tree.attributesAt? (place ++ [name]) = none) :
    globsDownTo tree (place ++ [name]) = globsDownTo tree place := by
  have hinits : (place ++ [name]).inits = place.inits ++ [place ++ [name]] := by
    simp [List.inits_append]
  rw [globsDownTo, globsDownTo, hinits, List.flatMap_append, List.flatMap_singleton, h]
  exact congrArg GlobList.mk (List.append_nil _)

end Nearest

section Entries

theorem Grows.inherited?_eq (h : Grows place name tree tree') (hne : asked ≠ place ++ [name]) :
    inherited? tree' target asked = inherited? tree target asked := by
  rw [inherited?, inherited?, h.attributes, if_neg hne, h.globsDownTo_eq, h.nearest?_eq rfl,
    h.nearest?_eq rfl, h.nearest?_eq rfl]

/-- The new node continues the entry of the node above it. -/
theorem Grows.inherited?_new (h : Grows place name tree tree') (ht : IsPlainTree tree)
    (he : inherited? tree target place = some entry) (below : Path) :
    inherited? tree' below (place ++ [name]) = some
      { entry with target := below, source := ofSegments (components entry.source ++ [name]) } := by
  rw [inherited?, if_pos h.parent] at he
  obtain ⟨⟨source, rest⟩, hsource, rfl⟩ := Option.map_eq_some_iff.1 he
  have hnew : (tree'.attributesAt? (place ++ [name])).isSome = true := by
    rw [h.attributes, if_pos rfl, Option.isSome_some]
  rw [inherited?, if_pos hnew, h.globsDownTo_eq, h.nearest?_eq rfl, h.nearest?_eq rfl,
    h.nearest?_eq rfl, nearest?_append_of_none h.new, nearest?_append_of_none h.new,
    nearest?_append_of_none h.new, globsDownTo_append_of_none h.new, hsource]
  simp only [Option.map_some, Option.map_map, Function.comp_def,
    components_ofSegments_plain (ht.of_nearest? h.parent hsource), List.append_assoc]

/-- A node that is expanded is not made in one piece. -/
theorem isSealedAt_of_isExpanded (he : inherited? tree target place = some entry)
    (hx : Expansion.isExpanded entry = true) : isSealedAt tree place = false := by
  rw [inherited?] at he
  split at he
  · obtain ⟨⟨source, rest⟩, _, rfl⟩ := Option.map_eq_some_iff.1 he
    rw [Expansion.isExpanded] at hx
    rw [isSealedAt, isSealed]
    dsimp only at hx ⊢
    generalize (nearest? (·.method) tree place).map (·.1) = method at hx ⊢
    generalize (nearest? (·.recursive) tree place).map (·.1) = recursive at hx ⊢
    rcases Bool.or_eq_true_iff.1 hx with hr | hm
    · cases recursive with
      | none => cases hr
      | some r =>
        cases hr
        simp
    · cases method with
      | none => rfl
      | some m =>
        cases of_decide_eq_true hm
        rfl
  · cases he

theorem Grows.isOpen (h : Grows place name tree tree') (hopen : IsOpen tree)
    (hsealed : isSealedAt tree place = false) : IsOpen tree' := by
  intro above key hsome
  rw [isSealedAt, h.nearest?_eq rfl, h.nearest?_eq rfl]
  rw [h.attributes] at hsome
  split at hsome
  · rename_i he
    rwa [(List.append_inj' he rfl).1]
  · exact hopen above key hsome

end Entries

section Gathering

variable {declared declared' : ProfileTree} {first last : List (List Name × Attributes)}

/-- A declaration of nothing leaves alone what is merged at every place. -/
theorem mergeAll_declaredAt_empty (first last : List (List Name × Attributes))
    (asked declared : List Name) :
    Attributes.mergeAll (declaredAt asked (first ++ (declared, .empty) :: last)) =
      Attributes.mergeAll (declaredAt asked (first ++ last)) := by
  have hempty : Attributes.mergeAll (declaredAt asked [(declared, .empty)]) = .empty := by
    by_cases he : declared = asked
    · simp [declaredAt, he, Attributes.mergeAll]
    · simp [declaredAt, he, Attributes.mergeAll]
  rw [← List.singleton_append, declaredAt_append, declaredAt_append, declaredAt_append,
    Attributes.mergeAll_append, Attributes.mergeAll_append, Attributes.mergeAll_append, hempty,
    ← Attributes.merge_assoc, Attributes.merge_empty]

/-- A declaration of nothing, for a place below a node, adds no other node. -/
theorem isSome_attributesAt?_insert (h : flatten [] declared = first ++ last)
    (h' : flatten [] declared' = first ++ (place ++ [name], .empty) :: last)
    (hparent : (declared.byComponent.attributesAt? place).isSome = true) (asked : List Name) :
    (declared'.byComponent.attributesAt? asked).isSome = true ↔
      asked = place ++ [name] ∨ (declared.byComponent.attributesAt? asked).isSome = true := by
  rw [isSome_attributesAt?_byComponent, h] at hparent
  obtain ⟨above, hmem, habove⟩ := hparent
  have hbelow : asked <+: place → ∃ d ∈ first ++ last, asked <+: d.1 :=
    fun hp => ⟨above, hmem, hp.trans habove⟩
  rw [isSome_attributesAt?_byComponent, isSome_attributesAt?_byComponent, h, h']
  simp only [List.mem_append, List.mem_cons, or_and_right, exists_or, exists_eq_left,
    List.prefix_concat_iff] at hbelow ⊢
  constructor
  · rintro (hf | (he | hp) | hl)
    · exact .inr (.inl hf)
    · exact .inl he
    · exact .inr (hbelow hp)
    · exact .inr (.inr hl)
  · rintro (he | hf | hl)
    · exact .inr (.inl (.inl he))
    · exact .inl hf
    · exact .inr (.inr hl)

/-- A declaration of nothing, for a place below a node at which there is none, adds a node. -/
theorem grows_byComponent (h : flatten [] declared = first ++ last)
    (h' : flatten [] declared' = first ++ (place ++ [name], .empty) :: last)
    (hparent : (declared.byComponent.attributesAt? place).isSome = true)
    (hnew : declared.byComponent.attributesAt? (place ++ [name]) = none) :
    Grows place name declared.byComponent declared'.byComponent := by
  refine ⟨hparent, hnew, fun asked => ?_⟩
  have hsome := isSome_attributesAt?_insert h h' hparent asked
  have hgetD : (declared'.byComponent.attributesAt? asked).getD .empty =
      (declared.byComponent.attributesAt? asked).getD .empty := by
    rw [getD_attributesAt?_byComponent, getD_attributesAt?_byComponent, h, h',
      mergeAll_declaredAt_empty]
  generalize declared'.byComponent.attributesAt? asked = x at hsome hgetD ⊢
  split
  · rename_i he
    rw [he, hnew] at hgetD
    obtain ⟨a, rfl⟩ := Option.isSome_iff_exists.1 (hsome.2 (.inl he))
    exact congrArg some hgetD
  · rename_i hne
    rw [or_iff_right hne] at hsome
    generalize declared.byComponent.attributesAt? asked = y at hsome hgetD ⊢
    cases y with
    | none => exact Option.not_isSome_iff_eq_none.1 fun hx => absurd (hsome.1 hx) (by simp)
    | some a =>
      obtain ⟨a', rfl⟩ := Option.isSome_iff_exists.1 (hsome.2 rfl)
      exact congrArg some hgetD

/-- With a plain name for the new node, the tree stays plain. -/
theorem Grows.isPlainTree (h : Grows place name declared.byComponent declared'.byComponent)
    (h' : flatten [] declared' = first ++ (place ++ [name], .empty) :: last)
    (hflat : flatten [] declared = first ++ last) (ht : IsPlainTree declared.byComponent)
    (hname : IsPlain name) : IsPlainTree declared'.byComponent := by
  have hparent := ht.keyed.of_isSome place h.parent
  have hold : ∀ d ∈ flatten [] declared, ∀ n ∈ d.1, IsPlain n := fun d hd =>
    ht.keyed.of_isSome d.1 ((isSome_attributesAt?_byComponent _ _).2 ⟨d, hd, List.prefix_refl _⟩)
  refine ⟨isKeyed_byComponent ?_, fun asked a source ha hs => ?_⟩
  · rw [hflat, List.forall_mem_append] at hold
    rw [h', List.forall_mem_append, List.forall_mem_cons]
    exact ⟨hold.1, isPlain_append hparent (by simpa using hname), hold.2⟩
  · rw [h.attributes] at ha
    split at ha
    · cases ha
      cases hs
    · exact ht.source asked a source ha hs

end Gathering

end Dotfiles.ProfileTree

namespace Dotfiles.Profile

open Dotfiles.Path ProfileTree

variable {profile profile' : Profile} {place : List Name} {name : Name} {entry : Entry}
  {entries : List Entry}

/-- What a profile resolves to with a new node: the entry of the new node, and those there were. -/
theorem mem_entries_of_grows {entries' : List Entry} {extra : Entry}
    (h : Grows place name profile.declarations.byComponent profile'.declarations.byComponent)
    (ht : IsPlainTree profile.declarations.byComponent)
    (ht' : IsPlainTree profile'.declarations.byComponent)
    (hentries : profile.entries.outcome = .ok entries)
    (hentries' : profile'.entries.outcome = .ok entries')
    (hnew : inherited? profile'.declarations.byComponent (ofSegments (place ++ [name]))
      (place ++ [name]) = some extra) (e : Entry) :
    (e ∈ entries' ↔ e = extra ∨ e ∈ entries) ∧
      (e ∈ entries → components e.target ≠ place ++ [name]) := by
  have hold : e ∈ entries → components e.target ≠ place ++ [name] := by
    intro he hat
    have hlaw := (mem_entries_iff hentries ht (place ++ [name]) e).1 ⟨he, hat⟩
    have hsome := ((isSome_inherited?_iff _).1 (Option.isSome_iff_exists.2 ⟨e, hlaw⟩)).1
    rw [h.new] at hsome
    cases hsome
  refine ⟨?_, hold⟩
  by_cases hat : components e.target = place ++ [name]
  · have hlaw := mem_entries_iff hentries' ht' (place ++ [name]) e
    rw [hnew, Option.some_inj, and_iff_left hat] at hlaw
    rw [or_iff_left fun he => hold he hat, hlaw, eq_comm]
  · have hother : e ≠ extra := by
      rintro rfl
      exact hat ((mem_entries_iff hentries' ht' _ _).2 hnew).2
    have hlaw := mem_entries_iff hentries' ht' (components e.target) e
    rw [h.inherited?_eq hat, ← mem_entries_iff hentries ht (components e.target) e,
      and_iff_left rfl, and_iff_left rfl] at hlaw
    rw [hlaw, or_iff_right hother]

/-- With a new node below an expanded one, a profile has one more entry, somewhere behind that of
the node above. It is the same entry for another target, its source continued by the name. -/
theorem entries_of_grows
    (h : Grows place name profile.declarations.byComponent profile'.declarations.byComponent)
    (ht : IsPlainTree profile.declarations.byComponent)
    (ht' : IsPlainTree profile'.declarations.byComponent)
    (hentries : profile.entries.outcome = .ok entries) (hentry : entry ∈ entries)
    (hplace : components entry.target = place) (hx : Expansion.isExpanded entry = true) :
    ∃ earlier between later, entries = earlier ++ entry :: (between ++ later) ∧
      profile'.entries.outcome = .ok (earlier ++ entry :: (between ++
        { entry with
          target := ofSegments (place ++ [name])
          source := ofSegments (components entry.source ++ [name]) } :: later)) := by
  have hlaw := (mem_entries_iff hentries ht place entry).1 ⟨hentry, hplace⟩
  have hnew := h.inherited?_new ht hlaw (ofSegments (place ++ [name]))
  generalize ({ entry with
    target := ofSegments (place ++ [name])
    source := ofSegments (components entry.source ++ [name]) } : Entry) = extra at hnew ⊢
  obtain ⟨entries', hentries'⟩ : ∃ entries', profile'.entries.outcome = .ok entries' := by
    rw [← Except.isOk_iff, isOk_entries_iff]
    refine h.isOpen ?_ (isSealedAt_of_isExpanded hlaw hx)
    exact isOk_entries_iff.1 (Except.isOk_iff.2 ⟨entries, hentries⟩)
  have hmem := mem_entries_of_grows h ht ht' hentries hentries' hnew
  have htarget := ((mem_entries_iff hentries' ht' _ extra).2 hnew).2
  have hlt : components entry.target < components extra.target := by
    rw [htarget, hplace]
    exact lt_of_isPrefix (List.prefix_append _ _) (by simp)
  obtain ⟨earlier, between, later, rfl, rfl⟩ := exists_of_mem_iff Entry.target
    (pairwise_entries hentries ht) (pairwise_entries hentries' ht') (fun e => (hmem e).1)
    (fun he => (hmem extra).2 he htarget) hentry hlt
  exact ⟨earlier, between, later, rfl, hentries'⟩

end Dotfiles.Profile
