import Dotfiles.Profile.Resolution
import Dotfiles.Proofs.Path.Within
import Dotfiles.Proofs.Profile.DocumentOrder
import Dotfiles.Proofs.Profile.Independence
import Dotfiles.Proofs.Profile.Frames

/-!
Two names for one target: a key with a slash in it, and a key below another one. A document
may use either, and means the same, unless something else is declared for the first part of the
key or for all of it in another mapping of the same target. Mappings that are written under
several spellings of a key come together before keys are taken apart, so there the two ways
differ in what is last.
-/

namespace Dotfiles

open Dotfiles.Path ProfileTree

namespace ProfileTree

theorem setChild_setChild (key : Text) (tree other : ProfileTree)
    (children : List (Text × ProfileTree)) :
    setChild key tree (setChild key other children) = setChild key tree children := by
  induction children with
  | nil => simp [setChild]
  | cons c rest ih => by_cases h : c.1 = key <;> simp [setChild, h, ih]

/-- What is declared below a place creates the nodes down to it. -/
theorem declare_declare_empty (a : Attributes) (place below : List Name) (tree : ProfileTree) :
    declare a (place ++ below) (declare .empty place tree) = declare a (place ++ below) tree := by
  induction place generalizing tree with
  | nil =>
    obtain ⟨own, children⟩ := tree
    rw [List.nil_append, declare, Attributes.merge_empty]
  | cons name rest ih =>
    obtain ⟨own, children⟩ := tree
    rw [declare, List.cons_append, declare, declare, childOf_setChild_self, Option.getD_some, ih,
      setChild_setChild]

/-- The edit that takes the child of a key with a slash apart. -/
def Nests (p q : Path) (block block' : List (Text × ProfileTree)) : Prop :=
  ∃ tree, block = [(p ++ '/' :: q, tree)] ∧ block' = [(p, .node .empty [(q, tree)])]

theorem concerns_nests (p q : Path) : Concerns [p, p ++ '/' :: q] (Nests p q) := by
  refine ⟨?_, ?_⟩
  · rintro _ _ ⟨tree, rfl, rfl⟩ key hkey
    simpa [or_comm] using hkey
  · rintro _ _ ⟨tree, rfl, rfl⟩
    simp

/-- Taking a key apart changes nothing in the tree of components. -/
theorem EditedAt.byComponent_eq {p q : Path} {keys : List Path} {own : Attributes}
    {children children' : List (Text × ProfileTree)}
    (h : EditedAt (Nests p q) keys children children') :
    (ProfileTree.node own children').byComponent = (ProfileTree.node own children).byComponent := by
  obtain ⟨_, _, first, last, ⟨⟨attributes, below⟩, rfl, rfl⟩, hflat, hflat'⟩ := h.flatten []
  simp only [flattenChildren, ProfileTree.flatten, components_append_slash, List.append_nil,
    List.nil_append, ← List.append_assoc] at hflat hflat'
  rw [byComponent, byComponent, ProfileTree.flatten, ProfileTree.flatten, hflat, hflat']
  simp only [List.foldl_cons, List.foldl_append, declare_declare_empty]

end ProfileTree

namespace Declaration

/-- The keys of a mapping that are not reserved. -/
def targetKeys (fields : Fields) : List Text :=
  fields.filterMap fun field =>
    match field.1 with
    | .text key => if isReserved key then none else some key
    | _ => none

theorem exists_of_mem_writtenBelow {fields : Fields} {d : List Path × Attributes}
    (h : d ∈ writtenBelow fields) :
    ∃ key ∈ targetKeys fields, ∃ rest, d.1 = Path.normalForm key :: rest := by
  rw [writtenBelow_eq, List.mem_flatMap] at h
  obtain ⟨⟨key, v⟩, hm, hd⟩ := h
  cases key with
  | text key =>
    rw [writtenBelow] at hd
    split at hd
    · cases hd
    · rename_i hres
      rw [writtenBelow, List.append_nil] at hd
      obtain ⟨rest, he, _⟩ := mem_under_iff.1 (show (d.1, d.2) ∈ _ from hd)
      exact ⟨key, List.mem_filterMap.2 ⟨_, hm, by simp [hres]⟩, rest, he⟩
  | _ => cases hd

section Reading

variable {drives : Bool} {before after : Fields} {p q : Path} {v : Value}

/-- A mapping of which a key is taken apart. -/
def slashed (before after : Fields) (p q : Path) (v : Value) : Value :=
  .map (before ++ [(.text (p ++ '/' :: q), v)] ++ after)

/-- The mapping with the key taken apart. -/
def nested (before after : Fields) (p q : Path) (v : Value) : Value :=
  .map (before ++ [(.text p, .map [(.text q, v)])] ++ after)

/-- Whether a key with a slash can be taken apart where it stands: all keys of the mapping are
in normal form and occur once, the two parts are keys in normal form, and the first one is not
a key of the mapping already. -/
structure CanNest (drives : Bool) (before after : Fields) (p q : Path) : Prop where
  normal : ∀ key ∈ targetKeys before ++ (p ++ '/' :: q) :: targetKeys after,
    Path.normalize drives key = .ok key
  distinct : (targetKeys before ++ (p ++ '/' :: q) :: targetKeys after).Nodup
  first : Path.normalize drives p = .ok p ∧ p ≠ [] ∧ isReserved p = false
  second : Path.normalize drives q = .ok q ∧ q ≠ [] ∧ isReserved q = false
  new : p ∉ targetKeys before ++ targetKeys after

theorem normalPath_of_normalize {key : Path} (h : Path.normalize drives key = .ok key) :
    normalPath drives key = .ok key := by
  rw [normalPath, h]
  rfl

theorem normalForm_of_normalize {key : Path} (h : Path.normalize drives key = .ok key) :
    Path.normalForm key = key := (normalPath_eq_ok (normalPath_of_normalize h)).1.symm

/-- Fields whose keys are others are written elsewhere. -/
theorem areElsewhere_of_targetKeys {changed : List Path} {fields : Fields}
    (hnormal : ∀ key ∈ targetKeys fields, Path.normalForm key = key)
    (h : ∀ key ∈ changed, key ∉ targetKeys fields) :
    AreElsewhere changed [] (writtenBelow fields) := by
  intro d hd key hkey hp
  obtain ⟨first, hfirst, rest, he⟩ := exists_of_mem_writtenBelow hd
  rw [he, hnormal first hfirst, List.nil_append, List.cons_prefix_cons] at hp
  exact h key hkey (hp.1 ▸ hfirst)

theorem CanNest.areElsewhere (h : CanNest drives before after p q) :
    AreElsewhere [p, p ++ '/' :: q] [] (writtenBelow before) ∧
      AreElsewhere [p, p ++ '/' :: q] [] (writtenBelow after) := by
  have hd := h.distinct
  have hn := h.new
  rw [List.perm_middle.nodup_iff, List.nodup_cons, List.mem_append, not_or] at hd
  rw [List.mem_append, not_or] at hn
  constructor
  · refine areElsewhere_of_targetKeys (fun key hkey => ?_) ?_
    · exact normalForm_of_normalize (h.normal key (List.mem_append_left _ hkey))
    · simpa using ⟨hn.1, hd.1.1⟩
  · refine areElsewhere_of_targetKeys (fun key hkey => ?_) ?_
    · exact normalForm_of_normalize
        (h.normal key (List.mem_append_right _ (List.mem_cons_of_mem _ hkey)))
    · simpa using ⟨hn.2, hd.1.2⟩

theorem isReserved_append {key : Text} (hne : key ≠ []) (rest : Text) :
    isReserved (key ++ rest) = isReserved key := by
  obtain ⟨c, more, rfl⟩ := List.exists_cons_of_ne_nil hne
  by_cases hc : c = '~'
  · rw [hc]
    rfl
  · simp [isReserved, hc]

/-- At a place without dot lines the two parts of a key lead where the key leads. -/
theorem join_nested {names : List Name} (hn : ∀ name ∈ names, IsPlain name) (hp : IsPlainPath p)
    (hq : IsPlainPath q) (hpq : IsPlainPath (p ++ '/' :: q)) :
    join [join [ofSegments names, p], q] = join [ofSegments names, p ++ '/' :: q] := by
  rw [← hp.eq, join_ofSegments hn hp.plain, ← hq.eq,
    join_ofSegments (isPlain_append hn hp.plain) hq.plain, hp.eq, hq.eq, ← hpq.eq,
    join_ofSegments hn hpq.plain, components_append_slash, List.append_assoc]

/-- Without dot lines in the key, it and its two parts are plain. -/
theorem CanNest.isPlainPath (h : CanNest drives before after p q)
    (hfree : ∀ name ∈ components (p ++ '/' :: q), ¬ IsDotLine name) :
    IsPlainPath p ∧ IsPlainPath q ∧ IsPlainPath (p ++ '/' :: q) := by
  have hplain : ∀ {key : Path}, Path.normalize drives key = .ok key →
      (∀ name ∈ components key, ¬ IsDotLine name) → IsPlainPath key := by
    intro key hkey hline
    rw [← normalForm_of_normalize hkey] at hline ⊢
    exact isPlainPath_normalForm hline
  have hparts := hfree
  rw [components_append_slash, List.forall_mem_append] at hparts
  exact ⟨hplain h.first.1 hparts.1, hplain h.second.1 hparts.2,
    hplain (h.normal _ (by simp)) hfree⟩

/-- The mapping is read alike with the key taken apart. -/
theorem rel_read_nested (h : CanNest drives before after p q) {place : Path}
    (hplace : join [join [place, p], q] = join [place, p ++ '/' :: q]) (isAlone : Prop) :
    Except.Rel (Reading.EditedAt (Nests p q) isAlone [])
      (read drives place (slashed before after p q v)).outcome
      (read drives place (nested before after p q v)).outcome := by
  obtain ⟨hbefore, hafter⟩ := h.areElsewhere
  refine rel_read_map (concerns_nests p q) (fun _ => hafter) fun done hdone => ?_
  have hres : isReserved (p ++ '/' :: q) = false :=
    (isReserved_append h.first.2.1 _).trans h.first.2.2
  rw [readFields_target v hres, readFields_target _ h.first.2.2,
    normalPath_of_normalize (h.normal _ (by simp)), normalPath_of_normalize h.first.1,
    Except.ok_bind, Except.ok_bind, read, readFields_target v h.second.2.2,
    normalPath_of_normalize h.second.1, Except.ok_bind, hplace, Functor.map_map]
  refine (Except.Rel.refl (R := Eq) fun _ => rfl).map ?_
  rintro child _ rfl
  refine ⟨rfl, ?_, fun _ => ?_⟩
  · rfl
  · have hspares := spares_nil_iff.1 (hbefore.spares (gathers_children hdone))
    have hadd : ∀ (key : Path) (r : Reading), key ∈ [p, p ++ '/' :: q] →
        (done.addChild key r).tree.children = done.tree.children ++ [(key, r.tree)] := by
      intro key r hkey
      exact mergeChildren_single_of_none (childOf_eq_none_iff.2 (hspares key hkey))
    rw [hadd _ _ (by simp), hadd _ _ (by simp)]
    have hhere := @EditedAt.here (Nests p q) done.tree.children _ _ [] ⟨child.tree, rfl, rfl⟩
      (by simpa [and_comm] using hspares)
    rw [List.append_nil, List.append_nil] at hhere
    exact hhere

/-- A place inside frames is made of the names in their keys. -/
theorem placeFrom_ofSegments {names : List Name} (hn : ∀ name ∈ names, IsPlain name)
    {frames : List Frame} (hkeys : ∀ key ∈ Frame.keys frames, IsPlainPath key) :
    Frame.placeFrom (ofSegments names) frames =
      ofSegments (names ++ (Frame.keys frames).flatMap components) := by
  induction frames generalizing names with
  | nil =>
    rw [Frame.keys, List.map_nil, List.flatMap_nil, List.append_nil]
    rfl
  | cons f rest ih =>
    obtain ⟨hfirst, hrest⟩ := List.forall_mem_cons.1 hkeys
    have hjoin := join_ofSegments hn hfirst.plain
    rw [hfirst.eq] at hjoin
    rw [Frame.placeFrom, List.foldl_cons, hjoin]
    refine (ih (isPlain_append hn hfirst.plain) hrest).trans ?_
    rw [List.append_assoc]
    rfl

end Reading

section Written

variable {drives : Bool} {frames : List Frame} {before after : Fields} {p q : Path} {v : Value}

/-- What is written with a key taken apart is what was written, under the two parts of the key
instead of it, and the first part, for which nothing is declared. -/
theorem CanNest.exists_written (h : CanNest drives before after p q)
    (hframes : ∀ f ∈ frames, isReserved f.key = false) (v : Value) :
    ∃ first last,
      written (Frame.fillAll frames (slashed before after p q v)) =
        first ++ (written v).map (fun d => (Frame.keys frames ++ (p ++ '/' :: q) :: d.1, d.2)) ++
          last ∧
      written (Frame.fillAll frames (nested before after p q v)) =
        first ++ (Frame.keys frames ++ [p], Attributes.empty) ::
          (written v).map (fun d => (Frame.keys frames ++ p :: q :: d.1, d.2)) ++ last := by
  obtain ⟨first, last, hall⟩ := exists_written_fillAll hframes
  have hfill : ∀ (key : Text) (w : Value),
      Value.map (before ++ [(.text key, w)] ++ after) = Frame.fill ⟨before, key, after⟩ w :=
    fun _ _ => rfl
  have hbelow : written (.map [(.text q, v)]) = ([], Attributes.empty) :: under q (written v) := by
    have hw : written (.map [(.text q, v)]) = _ := written_fill ⟨[], q, []⟩ h.second.2.2 v
    rw [hw, normalForm_of_normalize h.second.1]
    simp [writtenBelow]
  have hres := (isReserved_append h.first.2.1 ('/' :: q)).trans h.first.2.2
  refine ⟨first ++ (([], (before ++ after).foldl setField .empty) ::
    writtenBelow before).map (fun d => (Frame.keys frames ++ d.1, d.2)),
    (writtenBelow after).map (fun d => (Frame.keys frames ++ d.1, d.2)) ++ last, ?_, ?_⟩
  · rw [hall, slashed, hfill, written_fill _ hres, normalForm_of_normalize (h.normal _ (by simp))]
    simp [under, Function.comp_def]
  · rw [hall, nested, hfill, written_fill _ h.first.2.2, hbelow, normalForm_of_normalize h.first.1]
    simp [under, Function.comp_def]

/-- The same places are declared at or below. -/
theorem CanNest.exists_prefix_iff (h : CanNest drives before after p q)
    (hframes : ∀ f ∈ frames, isReserved f.key = false) (place : List Name) :
    (∃ d ∈ written (Frame.fillAll frames (nested before after p q v)),
        place <+: d.1.flatMap components) ↔
      ∃ d ∈ written (Frame.fillAll frames (slashed before after p q v)),
        place <+: d.1.flatMap components := by
  obtain ⟨first, last, hw, hw'⟩ := h.exists_written hframes v
  have hmid : place <+: (Frame.keys frames ++ [p]).flatMap components →
      ∃ d ∈ written v, place <+: (Frame.keys frames).flatMap components ++
        (components p ++ (components q ++ d.1.flatMap components)) := by
    intro hp
    obtain ⟨a, ha⟩ := root_mem_written v
    refine ⟨_, ha, hp.trans ?_⟩
    rw [List.flatMap_append, List.flatMap_singleton, ← List.append_assoc]
    exact List.prefix_append _ _
  rw [hw, hw']
  simp only [List.mem_append, List.mem_cons, List.mem_map, or_and_right, exists_or, exists_eq_left,
    exists_exists_and_eq_and, List.flatMap_append, List.flatMap_cons, components_append_slash,
    List.append_assoc, List.flatMap_nil, List.append_nil] at hmid ⊢
  rw [or_iff_right_of_imp hmid]

/-- Taking a key apart brings no dot lines. -/
theorem CanNest.isFreeOfDotLines (h : CanNest drives before after p q)
    (hframes : ∀ f ∈ frames, isReserved f.key = false)
    (hfree : IsFreeOfDotLines (Frame.fillAll frames (slashed before after p q v))) :
    IsFreeOfDotLines (Frame.fillAll frames (nested before after p q v)) := by
  obtain ⟨first, last, hw, hw'⟩ := h.exists_written hframes v
  rw [IsFreeOfDotLines, hw] at hfree
  rw [IsFreeOfDotLines, hw']
  obtain ⟨a, ha⟩ := root_mem_written v
  simp only [List.forall_mem_append, List.forall_mem_cons, List.forall_mem_map,
    components_append_slash] at hfree ⊢
  obtain ⟨⟨hfirst, hmid⟩, hlast⟩ := hfree
  obtain ⟨⟨hkeys, ⟨hp, _⟩, _⟩, _⟩ := hmid _ ha
  refine ⟨⟨hfirst, ⟨⟨hkeys, hp, by simp⟩, by simp [Attributes.empty]⟩, fun d hd => ?_⟩, hlast⟩
  obtain ⟨⟨_, ⟨_, hq⟩, hrest⟩, hsource⟩ := hmid d hd
  exact ⟨⟨hkeys, hp, hq, hrest⟩, hsource⟩

end Written

end Declaration

open Declaration

section Profiles

variable {drives : Bool} {document document' : Value} {profile profile' : Profile}
  {frames : List Frame} {before after : Fields} {p q : Path} {v : Value}

/-- Two documents that declare the same places, and for each of them decide alike, have the same
in their trees of components. -/
theorem Profile.reorders_of_decideAlike
    (hread : (Profile.read drives document).outcome = .ok profile)
    (hread' : (Profile.read drives document').outcome = .ok profile')
    (hplaces : ∀ place, (∃ d ∈ written document', place <+: d.1.flatMap components) ↔
      ∃ d ∈ written document, place <+: d.1.flatMap components)
    (h : ∀ place, DecideAlike (declaredFor place (gatheredOrder (written document)))
      (declaredFor place (gatheredOrder (written document')))) :
    ProfileTree.Reorders true profile.declarations.byComponent
      profile'.declarations.byComponent := by
  intro place
  have hg := Profile.gathers_declarations hread
  have hg' := Profile.gathers_declarations hread'
  have hsome : (profile'.declarations.byComponent.attributesAt? place).isSome =
      (profile.declarations.byComponent.attributesAt? place).isSome := by
    rw [Bool.eq_iff_iff, hg.isSome_byComponent_iff (written_ne_nil document),
      hg'.isSome_byComponent_iff (written_ne_nil document')]
    exact hplaces place
  have hlast := Attributes.lastWins_mergeAll (declaredFor place (gatheredOrder (written document)))
  have hlast' := (lastWins_iff_decideAlike (Attributes.lastWins_mergeAll
    (declaredFor place (gatheredOrder (written document'))))).2 (h place)
  rw [← hg.getD_byComponent] at hlast
  rw [← hg'.getD_byComponent] at hlast'
  generalize profile.declarations.byComponent.attributesAt? place = x at hsome hlast ⊢
  generalize profile'.declarations.byComponent.attributesAt? place = y at hsome hlast' ⊢
  cases x with
  | none =>
    obtain rfl := Option.isSome_eq_false_iff.1 hsome |> Option.isNone_iff_eq_none.1
    exact .none
  | some a =>
    obtain ⟨a', rfl⟩ := Option.isSome_iff_exists.1 hsome
    have hglobs : a'.globs = a.globs :=
      congrArg GlobList.mk (hlast'.globs.trans hlast.globs.symm)
    exact .some ⟨hlast'.source.trans hlast.source.symm, hlast'.method.trans hlast.method.symm,
      hlast'.recursive.trans hlast.recursive.symm, hglobs ▸ .refl _⟩

theorem Profile.eq_entries_of_reorders
    (hread : (Profile.read drives document).outcome = .ok profile)
    (hread' : (Profile.read drives document').outcome = .ok profile')
    (hfree : IsFreeOfDotLines document) (hfree' : IsFreeOfDotLines document')
    (h : ProfileTree.Reorders true profile.declarations.byComponent
      profile'.declarations.byComponent) :
    profile'.entries.outcome.isOk = profile.entries.outcome.isOk ∧
      ∀ entries entries', profile.entries.outcome = .ok entries →
        profile'.entries.outcome = .ok entries' → entries' = entries := by
  constructor
  · rw [Bool.eq_iff_iff, Profile.isOk_entries_iff, Profile.isOk_entries_iff, h.isOpen_iff]
  · intro entries entries' hentries hentries'
    have hsame := Profile.reorders_entries h (Profile.isPlainTree hread hfree)
      (Profile.isPlainTree hread' hfree') hentries hentries'
    have heq := hsame.imp fun e e' he => he.eq.symm
    rw [List.forall₂_eq_eq_eq] at heq
    exact heq.symm

/-- The two documents are read alike. -/
theorem Declaration.CanNest.rel_read (h : CanNest drives before after p q)
    (hframes : ∀ f ∈ frames, isReserved f.key = false)
    (hfree : ∀ d ∈ written (Frame.fillAll frames (slashed before after p q v)), ∀ key ∈ d.1,
      ∀ name ∈ components key, ¬ IsDotLine name) :
    Except.Rel
      (Reading.EditedAt (Nests p q) (AreElsewhere [p, p ++ '/' :: q] (Frame.keys frames)
        (written (Frame.fillAll frames .null))) (Frame.keys frames))
      (Declaration.read drives [] (Frame.fillAll frames (slashed before after p q v))).outcome
      (Declaration.read drives [] (Frame.fillAll frames (nested before after p q v))).outcome := by
  obtain ⟨a, ha⟩ : ∃ a, (Frame.keys frames ++ [p ++ '/' :: q], a) ∈
      written (Frame.fillAll frames (slashed before after p q v)) := by
    obtain ⟨first, last, hw, _⟩ := h.exists_written hframes v
    obtain ⟨a, ha⟩ := root_mem_written v
    refine ⟨a, ?_⟩
    rw [hw]
    exact List.mem_append_left _ (List.mem_append_right _ (List.mem_map.2 ⟨_, ha, rfl⟩))
  have hplain := List.forall_mem_append.1 (hfree _ ha)
  have hkeys : ∀ key ∈ Frame.keys frames, IsPlainPath key := by
    intro key hkey
    obtain ⟨f, hf, rfl⟩ := List.mem_map.1 hkey
    exact isPlainPath_normalForm (hplain.1 _ hkey)
  have hnames : ∀ name ∈ (Frame.keys frames).flatMap components, IsPlain name := by
    intro name hname
    obtain ⟨key, hkey, hm⟩ := List.mem_flatMap.1 hname
    exact (hkeys key hkey).plain name hm
  obtain ⟨hp, hq, hpq⟩ := h.isPlainPath (hplain.2 _ (List.mem_singleton_self _))
  have hplace := join_nested hnames hp hq hpq
  rw [← List.nil_append ((Frame.keys frames).flatMap components),
    ← placeFrom_ofSegments (by simp) hkeys] at hplace
  have hrel := rel_read_fillAll (concerns_nests p q) hframes (by rw [List.append_nil]; exact id)
    (rel_read_nested (v := v) h hplace
      (AreElsewhere [p, p ++ '/' :: q] (Frame.keys frames) (written (Frame.fillAll frames .null))))
  rwa [List.append_nil] at hrel

end Profiles

/-- A key with a slash can be taken apart. The two documents are read alike, with the same
remarks or the same failure. They have the same entries, or the same failure, if nothing outside
of the mapping is declared for the first part of the key or for all of it; and otherwise still
if for every target the declarations in gathered order decide alike. -/
theorem Profile.read_nested {drives : Bool} {frames : List Frame} {before after : Fields}
    {p q : Path} {v : Value} (hframes : ∀ f ∈ frames, isReserved f.key = false)
    (h : CanNest drives before after p q)
    (hfree : ∀ d ∈ written (Frame.fillAll frames (slashed before after p q v)), ∀ key ∈ d.1,
      ∀ name ∈ components key, ¬ IsDotLine name) :
    Except.Rel
      (fun profile profile' => profile'.diagnostics = profile.diagnostics ∧
        (AreElsewhere [p, p ++ '/' :: q] (Frame.keys frames)
            (written (Frame.fillAll frames .null)) →
          profile'.entries.outcome = profile.entries.outcome) ∧
        (IsFreeOfDotLines (Frame.fillAll frames (slashed before after p q v)) →
          (∀ place, DecideAlike
            (declaredFor place (gatheredOrder
              (written (Frame.fillAll frames (slashed before after p q v)))))
            (declaredFor place (gatheredOrder
              (written (Frame.fillAll frames (nested before after p q v)))))) →
          profile'.entries.outcome.isOk = profile.entries.outcome.isOk ∧
            ∀ entries entries', profile.entries.outcome = .ok entries →
              profile'.entries.outcome = .ok entries' → entries' = entries))
      (Profile.read drives (Frame.fillAll frames (slashed before after p q v))).outcome
      (Profile.read drives (Frame.fillAll frames (nested before after p q v))).outcome := by
  have hrel : Except.Rel
      (fun profile profile' => profile'.diagnostics = profile.diagnostics ∧
        (AreElsewhere [p, p ++ '/' :: q] (Frame.keys frames)
            (written (Frame.fillAll frames .null)) →
          profile'.declarations.byComponent = profile.declarations.byComponent))
      (Profile.read drives (Frame.fillAll frames (slashed before after p q v))).outcome
      (Profile.read drives (Frame.fillAll frames (nested before after p q v))).outcome := by
    rw [Profile.read, Profile.read, Traced.outcome_bind, Traced.outcome_bind]
    refine (h.rel_read hframes hfree).bind fun r r' hr => .ok ⟨hr.diagnostics, fun halone => ?_⟩
    obtain ⟨⟨own, children⟩, _⟩ := r
    obtain ⟨⟨own', children'⟩, _⟩ := r'
    obtain rfl : own' = own := hr.attributes
    exact (hr.children halone).byComponent_eq
  refine hrel.attach.imp ?_
  rintro profile profile' ⟨⟨hdiagnostics, htree⟩, hread, hread'⟩
  refine ⟨hdiagnostics, fun halone => ?_, fun hlines halike => ?_⟩
  · rw [Profile.entries, Profile.entries, htree halone]
  · exact Profile.eq_entries_of_reorders hread hread' hlines (h.isFreeOfDotLines hframes hlines)
      (Profile.reorders_of_decideAlike hread hread' (h.exists_prefix_iff hframes) halike)

/-- A directory with a key in it that has a slash, beside other spellings of the same targets. -/
def sharedPrefix : Frame where
  before := [(.text "a/p".toList, .scalar (.text "<link>".toList))]
  key := "a".toList
  after := [(.text "a/p/q/r".toList, .null)]

/-- Other spellings of its keys do not matter to a mapping. -/
theorem Profile.read_nested_sharedPrefix :
    ∃ profile profile',
      (Profile.read false (Frame.fillAll [sharedPrefix] (slashed
        [(.text "~source".toList, .scalar (.text "s".toList)), (.text "p/x".toList, .null)] []
        "p".toList "q".toList (.scalar (.text "<copy>".toList))))).outcome = .ok profile ∧
      (Profile.read false (Frame.fillAll [sharedPrefix] (nested
        [(.text "~source".toList, .scalar (.text "s".toList)), (.text "p/x".toList, .null)] []
        "p".toList "q".toList (.scalar (.text "<copy>".toList))))).outcome = .ok profile' ∧
      profile'.entries.outcome = profile.entries.outcome ∧
      profile.entries.outcome.isOk = false := by
  have hrel := @Profile.read_nested false [sharedPrefix]
    [(.text "~source".toList, .scalar (.text "s".toList)), (.text "p/x".toList, .null)] []
    "p".toList "q".toList (.scalar (.text "<copy>".toList)) (by decide)
    ⟨by decide, by decide, ⟨rfl, by decide, rfl⟩, ⟨rfl, by decide, rfl⟩, by decide⟩
    (by decide +kernel)
  obtain ⟨profile', hread', _, hsame, _⟩ := hrel.exists_of_eq_ok rfl
  refine ⟨_, profile', rfl, hread', hsame ?_, ?_⟩
  · unfold AreElsewhere
    decide +kernel
  · decide +kernel

/-- A directory that is written under two spellings of its name. -/
def twoSpellings : Frame where
  before := [(.text "a".toList, .map [
    (.text "p".toList, .map [(.text "q".toList, .scalar (.text "x".toList))]),
    (.text "p/q".toList, .scalar (.text "y".toList))])]
  key := "a/".toList
  after := []

/-- In the second mapping of a directory the two ways of writing a key come to different places:
one of them before what the first mapping declares last, the other after it. -/
theorem Profile.not_read_nested :
    CanNest false [] [] "p".toList "q".toList ∧
    IsFreeOfDotLines (Frame.fillAll [twoSpellings]
      (slashed [] [] "p".toList "q".toList (.scalar (.text "z".toList)))) ∧
    ∃ profile profile',
      (Profile.read false (Frame.fillAll [twoSpellings]
        (slashed [] [] "p".toList "q".toList (.scalar (.text "z".toList))))).outcome =
          .ok profile ∧
      (Profile.read false (Frame.fillAll [twoSpellings]
        (nested [] [] "p".toList "q".toList (.scalar (.text "z".toList))))).outcome =
          .ok profile' ∧
      profile.entries.outcome = .ok [⟨"a/p/q".toList, "z".toList, .copy, false, ⟨[]⟩⟩] ∧
      profile'.entries.outcome = .ok [⟨"a/p/q".toList, "y".toList, .copy, false, ⟨[]⟩⟩] :=
  ⟨⟨by decide, by decide, ⟨rfl, by decide, rfl⟩, ⟨rfl, by decide, rfl⟩, by decide⟩,
    by decide +kernel, _, _, rfl, rfl,
    Profile.entries_of_perm rfl (.refl _) (by decide +kernel),
    Profile.entries_of_perm rfl (.refl _) (by decide +kernel)⟩

end Dotfiles
