import Dotfiles.Proofs.Profile.Components
import Dotfiles.Proofs.Profile.GatheredOrder

/-!
Which of several declarations of one target decides. Reading brings together what is
written under the same keys, and only then are the keys taken apart into components. So the
last declaration in the gathered order decides; it is the last one of the document whenever
no keys are written twice.
-/

namespace Dotfiles

namespace ProfileTree

/-- What is declared for a place, however the keys spell it, in order. -/
def declaredFor (place : List Name) (declared : List (List Path × Attributes)) :
    List Attributes :=
  (declared.filter fun d => decide (d.1.flatMap Path.components = place)).map (·.2)

/-- Two orders of declarations decide in the same way. -/
structure DecideAlike (first second : List Attributes) : Prop where
  source : Attributes.lastSet (·.source) first = Attributes.lastSet (·.source) second
  method : Attributes.lastSet (·.method) first = Attributes.lastSet (·.method) second
  recursive : Attributes.lastSet (·.recursive) first = Attributes.lastSet (·.recursive) second
  globs : first.flatMap (·.globs.globs) = second.flatMap (·.globs.globs)

/-- Attributes that follow one order of declarations follow another one exactly if the two
decide alike. -/
theorem lastWins_iff_decideAlike {a : Attributes} {first second : List Attributes}
    (h : Attributes.LastWins a second) :
    Attributes.LastWins a first ↔ DecideAlike first second := by
  constructor
  · intro ha
    refine ⟨?_, ?_, ?_, ?_⟩
    · rw [← ha.source, h.source]
    · rw [← ha.method, h.method]
    · rw [← ha.recursive, h.recursive]
    · rw [← ha.globs, h.globs]
  · intro hd
    refine ⟨?_, ?_, ?_, ?_⟩
    · rw [hd.source, h.source]
    · rw [hd.method, h.method]
    · rw [hd.recursive, h.recursive]
    · rw [hd.globs, h.globs]

section Gathered

variable {tree : ProfileTree} {declared : List (List Path × Attributes)} {place : List Name}

theorem declaredAt_flatten (tree : ProfileTree) (place : List Name) :
    declaredAt place (flatten [] tree) = declaredFor place (outline tree) := by
  rw [declaredAt, flatten_eq, declaredFor, List.filter_map, List.map_map]
  rfl

theorem flatMap_filter {α β : Type} (p : α → Bool) (f : α → List β) (items : List α) :
    (items.flatMap fun x => if p x then f x else []) = (items.filter p).flatMap f := by
  induction items with
  | nil => rfl
  | cons x rest ih =>
    rw [List.flatMap_cons, ih, List.filter_cons]
    cases p x with
    | true => rw [if_pos rfl, if_pos rfl, List.flatMap_cons]
    | false => rfl

/-- What is gathered for a place comes from the nodes whose keys spell it, one after another. -/
theorem Gathers.declaredFor_gatheredOrder (h : Gathers tree declared) (place : List Name) :
    declaredFor place (gatheredOrder declared) =
      ((outline tree).filter fun d => decide (d.1.flatMap Path.components = place)).flatMap
        fun d => declaredAt d.1 declared := by
  rw [declaredFor, h.gatheredOrder_eq, List.filter_flatMap, List.map_flatMap, ← flatMap_filter]
  apply List.flatMap_congr
  intro d _
  cases hp : decide (d.1.flatMap Path.components = place) with
  | true =>
    rw [if_pos rfl, declaredAt, List.filter_eq_self.2]
    intro e he
    rw [of_decide_eq_true (List.mem_filter.1 he).2]
    exact hp
  | false =>
    rw [if_neg (by simp), List.map_eq_nil_iff, List.filter_eq_nil_iff]
    intro e he hk
    rw [of_decide_eq_true (List.mem_filter.1 he).2, hp] at hk
    cases hk

/-- The tree of components holds at a place what the last one of the gathered declarations
sets. -/
theorem Gathers.getD_byComponent (h : Gathers tree declared) (place : List Name) :
    (tree.byComponent.attributesAt? place).getD .empty =
      Attributes.mergeAll (declaredFor place (gatheredOrder declared)) := by
  have hnodes : (((outline tree).filter fun d =>
      decide (d.1.flatMap Path.components = place)).map fun d =>
        Attributes.mergeAll (declaredAt d.1 declared)) =
      (declaredFor place (outline tree)).map fun a => Attributes.empty.merge a := by
    rw [declaredFor, List.map_map]
    apply List.map_congr_left
    intro d hd
    have ha := (mem_outline_iff h.keyed d.1 d.2).1 (List.mem_filter.1 hd).1
    rw [← h.merged, ha]
    rfl
  rw [getD_attributesAt?_byComponent, declaredAt_flatten, h.declaredFor_gatheredOrder,
    Attributes.mergeAll_flatMap, hnodes, Attributes.mergeAll_map_merge_empty]

/-- The tree of components has a node where a declaration is at or below. -/
theorem Gathers.isSome_byComponent_iff (h : Gathers tree declared) (hne : declared ≠ [])
    (place : List Name) :
    (tree.byComponent.attributesAt? place).isSome = true ↔
      ∃ d ∈ declared, place <+: d.1.flatMap Path.components := by
  rw [isSome_attributesAt?_byComponent, flatten_eq]
  constructor
  · rintro ⟨x, hx, hp⟩
    obtain ⟨d, hd, rfl⟩ := List.mem_map.1 hx
    rw [List.nil_append] at hp
    rcases h.exists_of_mem_outline hd with hroot | ⟨e, he, hprefix⟩
    · rw [hroot] at hp
      obtain ⟨e, others, rfl⟩ := List.exists_cons_of_ne_nil hne
      exact ⟨e, List.mem_cons_self, hp.trans List.nil_prefix⟩
    · obtain ⟨rest, hrest⟩ := hprefix
      refine ⟨e, he, hp.trans ?_⟩
      rw [← hrest, List.flatMap_append]
      exact List.prefix_append _ _
  · rintro ⟨d, hd, hp⟩
    obtain ⟨a, ha⟩ := h.exists_mem_outline hd
    exact ⟨_, List.mem_map.2 ⟨(d.1, a), ha, rfl⟩, hp⟩

end Gathered

end ProfileTree

namespace Declaration

open ProfileTree

section WrittenOnce

variable {drives : Bool}

theorem root_mem_written (v : Value) : ∃ a, ([], a) ∈ written v := by
  unfold written
  split
  · exact ⟨_, List.mem_singleton_self _⟩
  · exact ⟨_, List.mem_cons_self⟩
  · exact ⟨_, List.mem_singleton_self _⟩

theorem outlineBelow_append (first second : List (Text × ProfileTree)) :
    outlineBelow (first ++ second) = outlineBelow first ++ outlineBelow second := by
  rw [outlineBelow_eq, outlineBelow_eq, outlineBelow_eq, List.flatMap_append]

theorem childOf_eq_none_of_not_mem {key : Text} {children : List (Text × ProfileTree)}
    (h : [key] ∉ (outlineBelow children).map (·.1)) : childOf key children = none := by
  rw [Option.eq_none_iff_forall_ne_some]
  intro tree htree
  obtain ⟨own, below⟩ := tree
  have hm : ([key], own) ∈ outlineBelow children := by
    rw [outlineBelow_eq, List.mem_flatMap]
    exact ⟨_, mem_of_childOf htree, mem_under_iff.2 ⟨[], rfl, List.mem_cons_self⟩⟩
  exact h (List.mem_map_of_mem hm)

/-- A child whose key is new goes to the end. -/
theorem children_addChild {done child : Reading} {key : Path}
    (h : childOf key done.tree.children = none) :
    (done.addChild key child).tree.children = done.tree.children ++ [(key, child.tree)] := by
  show mergeChildren done.tree.children [(key, child.tree)] = _
  rw [mergeChildren, h]
  rfl

mutual

/-- Where no keys are written twice, a tree lists its keys as they are written. -/
theorem outline_read {r : Reading} {place : Path} : ∀ {v : Value},
    (read drives place v).outcome = .ok r → ((written v).map (·.1)).Nodup →
      (outline r.tree).map (·.1) = (written v).map (·.1)
  | .scalar .null, h, hn => by
    simp only [read, Traced.outcome_pure, Except.ok.injEq] at h
    subst h
    rfl
  | .scalar (.text t), h, hn => by
    rw [read, Traced.outcome_bind_eq_ok_iff] at h
    obtain ⟨a, ha, h⟩ := h
    cases h
    rfl
  | .map fields, h, hn => by
    rw [read] at h
    rw [written, List.map_cons, List.nodup_cons] at hn
    have hbelow := outlineBelow_readFields h hn.2
    obtain ⟨⟨own, children⟩, _⟩ := r
    rw [outline, written, List.map_cons, List.map_cons]
    exact congrArg _ hbelow
  | .list items, h, hn => by simp [read] at h
  | .scalar (.bool b), h, hn => by simp [read] at h
  | .scalar (.int n), h, hn => by simp [read] at h
  | .scalar (.float x), h, hn => by simp [read] at h
  | .scalar .nan, h, hn => by simp [read] at h
  | .scalar (.bytes data), h, hn => by simp [read] at h
  | .scalar (.date year month day), h, hn => by simp [read] at h
  | .scalar (.moment m), h, hn => by simp [read] at h
  | .set members, h, hn => by simp [read] at h
  | .pair a b, h, hn => by simp [read] at h
  | .endless, h, hn => by simp [read] at h

theorem outlineBelow_readFields {r done : Reading} {place : Path} :
    ∀ {fields : List (Scalar × Value)},
      (readFields drives place done fields).outcome = .ok r →
      ((outlineBelow done.tree.children).map (·.1) ++ (writtenBelow fields).map (·.1)).Nodup →
      (outlineBelow r.tree.children).map (·.1) =
        (outlineBelow done.tree.children).map (·.1) ++ (writtenBelow fields).map (·.1)
  | [], h, hn => by
    cases h
    rw [writtenBelow, List.map_nil, List.append_nil]
  | (key, value) :: rest, h, hn => by
    obtain ⟨t, rfl, ⟨hres, next, hchildren, _, h⟩ | ⟨hres, below, child, hc, h⟩⟩ :=
      readFields_cons_eq_ok h
    · rw [writtenBelow, if_pos hres, ← hchildren] at hn ⊢
      exact outlineBelow_readFields h hn
    · rw [writtenBelow, if_neg (by simp [hres]), List.map_append, map_fst_under,
        ← List.append_assoc] at hn ⊢
      obtain ⟨_, hvalue, hapart⟩ := List.nodup_append.1 (List.nodup_append.1 hn).1
      -- a key that was there before would have been written before
      have hnew : childOf (Path.normalForm t) done.tree.children = none := by
        apply childOf_eq_none_of_not_mem
        intro hm
        obtain ⟨a, ha⟩ := root_mem_written value
        exact hapart _ hm _ (List.mem_map_of_mem (List.mem_map_of_mem ha)) rfl
      have hkeys := outline_read hc (List.Nodup.of_map _ hvalue)
      have hlisted : (outlineBelow (done.addChild (Path.normalForm t) child).tree.children).map
          (·.1) = (outlineBelow done.tree.children).map (·.1) ++
            ((written value).map (·.1)).map (Path.normalForm t :: ·) := by
        rw [children_addChild hnew, outlineBelow_append, List.map_append, outlineBelow,
          outlineBelow, List.append_nil, map_fst_under, hkeys]
      rw [outlineBelow_readFields h (hlisted ▸ hn), hlisted]

end

/-- A document that writes no keys twice is gathered in its own order. -/
theorem gatheredOrder_eq_self {r : Reading} {place : Path} {v : Value}
    (h : (read drives place v).outcome = .ok r) (hn : ((written v).map (·.1)).Nodup) :
    gatheredOrder (written v) = written v := by
  have hsorted := (gathers_read h).pairwise_outline
  have hkeys : ((outline r.tree).map (·.1)).Pairwise fun a b =>
      ranks (written v) a < ranks (written v) b := by
    rw [List.pairwise_map]
    exact hsorted
  rw [outline_read h hn, List.pairwise_map] at hkeys
  apply List.mergeSort_of_pairwise
  refine hkeys.imp ?_
  intro d e hlt
  rw [decide_eq_true_eq]
  exact le_of_lt hlt

end WrittenOnce

end Declaration

namespace Profile

open ProfileTree Declaration

variable {drives : Bool} {document : Value} {profile : Profile}

/-- Which declaration decides. The component node of a place follows the declarations of the
place in gathered order; it follows them in document order exactly if the two orders decide
alike, and so in every document that writes no keys twice. -/
theorem byComponent_lastWins (h : (Profile.read drives document).outcome = .ok profile)
    (place : List Name) :
    ((profile.declarations.byComponent.attributesAt? place).isSome = true ↔
        ∃ d ∈ written document, place <+: d.1.flatMap Path.components) ∧
      Attributes.LastWins ((profile.declarations.byComponent.attributesAt? place).getD .empty)
        (declaredFor place (gatheredOrder (written document))) ∧
      (Attributes.LastWins ((profile.declarations.byComponent.attributesAt? place).getD .empty)
          (declaredFor place (written document)) ↔
        DecideAlike (declaredFor place (written document))
          (declaredFor place (gatheredOrder (written document)))) ∧
      (((written document).map (·.1)).Nodup →
        Attributes.LastWins ((profile.declarations.byComponent.attributesAt? place).getD .empty)
          (declaredFor place (written document))) := by
  have hgathers := Profile.gathers_declarations h
  have hlast : Attributes.LastWins
      ((profile.declarations.byComponent.attributesAt? place).getD .empty)
      (declaredFor place (gatheredOrder (written document))) := by
    rw [hgathers.getD_byComponent]
    exact Attributes.lastWins_mergeAll _
  refine ⟨hgathers.isSome_byComponent_iff (written_ne_nil document) place, hlast,
    lastWins_iff_decideAlike hlast, ?_⟩
  intro hn
  rw [Profile.read, Traced.outcome_bind_eq_ok_iff] at h
  obtain ⟨reading, hr, _⟩ := h
  rwa [gatheredOrder_eq_self hr hn] at hlast

/-- Two spellings of one target, each written once: the one that is written last decides. -/
theorem byComponent_lastWins_two_spellings :
    ∃ profile, (Profile.read false (.map [
        (.text "a/b".toList, .scalar (.text "x".toList)),
        (.text "a".toList, .map [(.text "b".toList, .scalar (.text "y".toList))])])).outcome =
          .ok profile ∧
      ((profile.declarations.byComponent.attributesAt? ["a".toList, "b".toList]).getD
        .empty).source = some "y".toList := by
  refine ⟨_, rfl, ?_⟩
  have h := @byComponent_lastWins false (.map [
    (.text "a/b".toList, .scalar (.text "x".toList)),
    (.text "a".toList, .map [(.text "b".toList, .scalar (.text "y".toList))])]) _ rfl
    ["a".toList, "b".toList]
  exact (h.2.2.2 (by decide +kernel)).source

/-- A mapping that is written again under the same key in another spelling, with a third
declaration between the two: the one in the middle decides. -/
theorem byComponent_not_lastWins :
    ∃ profile, (Profile.read false (.map [
        (.text "a".toList, .map [(.text "b".toList, .scalar (.text "x".toList))]),
        (.text "a/b".toList, .scalar (.text "y".toList)),
        (.text "a/".toList, .map [(.text "b".toList, .scalar (.text "z".toList))])])).outcome =
          .ok profile ∧
      ¬ Attributes.LastWins
        ((profile.declarations.byComponent.attributesAt? ["a".toList, "b".toList]).getD .empty)
        (declaredFor ["a".toList, "b".toList] (written (.map [
          (.text "a".toList, .map [(.text "b".toList, .scalar (.text "x".toList))]),
          (.text "a/b".toList, .scalar (.text "y".toList)),
          (.text "a/".toList, .map [(.text "b".toList, .scalar (.text "z".toList))])]))) := by
  refine ⟨_, rfl, ?_⟩
  intro h
  exact absurd h.source (by decide +kernel)

end Profile

end Dotfiles
