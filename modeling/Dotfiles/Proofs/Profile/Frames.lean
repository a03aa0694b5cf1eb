import Dotfiles.Proofs.Profile.Edited
import Dotfiles.Proofs.Profile.Written

/-!
Documents that differ in one of their mappings. Around the mapping they are read alike: they
have the same remarks and fail in the same way, and their trees differ in what becomes of the
mapping, as long as nothing else is declared for the keys that it writes differently.
-/

namespace Dotfiles

/-- A mapping with a gap in the place of the value of one of its fields. -/
structure Frame where
  before : Fields
  key : Text
  after : Fields

namespace Frame

/-- The mapping with a value in the gap. -/
def fill (f : Frame) (v : Value) : Value := .map (f.before ++ [(.text f.key, v)] ++ f.after)

/-- A value inside frames, the outermost one first. -/
def fillAll (frames : List Frame) (v : Value) : Value := frames.foldr fill v

/-- The keys of the gaps, in normal form. -/
def keys (frames : List Frame) : List Path := frames.map fun f => Path.normalForm f.key

/-- The place of what is inside frames at the given place. -/
def placeFrom (place : Path) (frames : List Frame) : Path :=
  frames.foldl (fun p f => Path.join [p, Path.normalForm f.key]) place

end Frame

namespace Declaration

open ProfileTree

/-- Whether a reading is another one with one edit at the end of the given keys, as long as
nothing else is in the way of the edit. -/
structure Reading.EditedAt (Edit : List (Text × ProfileTree) → List (Text × ProfileTree) → Prop)
    (isAlone : Prop) (keys : List Path) (r r' : Reading) : Prop where
  attributes : r'.tree.attributes = r.tree.attributes
  diagnostics : r'.diagnostics = r.diagnostics
  children : isAlone → ProfileTree.EditedAt Edit keys r.tree.children r'.tree.children

/-- Whether declarations are for other keys than the given ones at the end of a place. -/
def AreElsewhere (changed keys : List Path) (declared : List (List Path × Attributes)) : Prop :=
  ∀ d ∈ declared, ∀ key ∈ changed, ¬ keys ++ [key] <+: d.1

variable {Edit : List (Text × ProfileTree) → List (Text × ProfileTree) → Prop} {isAlone : Prop}
  {changed keys : List Path} {drives : Bool} {place : Path} {done done' : Reading}

section Elsewhere

variable {first second declared : List (List Path × Attributes)} {key : Path}

theorem areElsewhere_append_iff : AreElsewhere changed keys (first ++ second) ↔
    AreElsewhere changed keys first ∧ AreElsewhere changed keys second := List.forall_mem_append

theorem areElsewhere_under_iff : AreElsewhere changed (key :: keys) (under key declared) ↔
    AreElsewhere changed keys declared := by
  refine List.forall_mem_map.trans ?_
  simp only [List.cons_append, List.cons_prefix_cons, true_and]
  rfl

theorem AreElsewhere.spares {children : List (Text × ProfileTree)}
    (h : AreElsewhere changed keys declared) (hg : Gathers (.node .empty children) declared) :
    Spares changed keys children := by
  intro key hkey
  rw [← Option.not_isSome_iff_eq_none, hg.isSome_iff]
  rintro (he | ⟨d, hd, hp⟩)
  · simp at he
  · exact h d hd key hkey hp

end Elsewhere

section Fields

variable {before block block' after : Fields}

theorem Reading.EditedAt.readField (h : done.EditedAt Edit isAlone keys done')
    (hedit : Concerns changed Edit) {field : Scalar × Value}
    (hs : isAlone → AreElsewhere changed keys (writtenBelow [field])) :
    Except.Rel (Reading.EditedAt Edit isAlone keys) (readFields drives place done [field]).outcome
      (readFields drives place done' [field]).outcome := by
  obtain ⟨key, value⟩ := field
  cases key with
  | text key =>
    cases hres : isReserved key with
    | true =>
      cases hslot : AttributeKey.ofText? key with
      | some slot =>
        rw [readFields_slot value hres hslot, readFields_slot value hres hslot, h.attributes]
        refine (Except.rel_eq_iff.2 rfl).map ?_
        rintro a _ rfl
        exact ⟨rfl, h.diagnostics, h.children⟩
      | none =>
        rw [readFields_unknown value hres hslot, readFields_unknown value hres hslot]
        exact .ok ⟨h.attributes, congrArg (· ++ _) h.diagnostics, h.children⟩
    | false =>
      rw [readFields_target value hres, readFields_target value hres]
      cases ht : normalPath drives key with
      | error e => exact .error e
      | ok target =>
        rw [Except.ok_bind, Except.ok_bind]
        cases hc : (read drives (Path.join [place, target]) value).outcome with
        | error e => exact .error e
        | ok child =>
          refine .ok ⟨h.attributes, congrArg (· ++ _) h.diagnostics, fun halone => ?_⟩
          have hg := (gathers_read hc).under (written_ne_nil value) target
          refine (h.children halone).merge_right hedit hg.keyed (AreElsewhere.spares ?_ hg)
          have hbelow := hs halone
          rwa [writtenBelow, if_neg (by simp [hres]), writtenBelow, List.append_nil,
            ← (normalPath_eq_ok ht).1] at hbelow
  | _ => exact .error _

/-- The fields that come after an edit leave it as it is. -/
theorem Reading.EditedAt.readFields (h : done.EditedAt Edit isAlone keys done')
    (hedit : Concerns changed Edit) (hs : isAlone → AreElsewhere changed keys (writtenBelow after)) :
    Except.Rel (Reading.EditedAt Edit isAlone keys)
      (Declaration.readFields drives place done after).outcome
      (Declaration.readFields drives place done' after).outcome := by
  induction after generalizing done done' with
  | nil => exact .ok h
  | cons field rest ih =>
    rw [writtenBelow_cons] at hs
    rw [readFields_cons field rest, readFields_cons field rest]
    refine (h.readField hedit fun halone => (areElsewhere_append_iff.1 (hs halone)).1).bind ?_
    intro next next' hnext
    exact ih hnext fun halone => (areElsewhere_append_iff.1 (hs halone)).2

/-- Mappings are read alike that differ in some fields, if these are. -/
theorem rel_read_map (hedit : Concerns changed Edit)
    (hafter : isAlone → AreElsewhere changed keys (writtenBelow after))
    (hblock : ∀ done, (readFields drives place ⟨.empty, []⟩ before).outcome = .ok done →
      Except.Rel (Reading.EditedAt Edit isAlone keys) (readFields drives place done block).outcome
        (readFields drives place done block').outcome) :
    Except.Rel (Reading.EditedAt Edit isAlone keys)
      (read drives place (.map (before ++ block ++ after))).outcome
      (read drives place (.map (before ++ block' ++ after))).outcome := by
  rw [read, read, readFields_append, readFields_append, readFields_append (before ++ block'),
    readFields_append before block']
  cases hb : (readFields drives place ⟨.empty, []⟩ before).outcome with
  | error e => exact .error e
  | ok done => exact (hblock done hb).bind fun next next' hnext => hnext.readFields hedit hafter

/-- The children that are read from some fields gather what these declare. -/
theorem gathers_children (h : (readFields drives place ⟨.empty, []⟩ before).outcome = .ok done) :
    Gathers (.node .empty done.tree.children) (writtenBelow before) :=
  (gathers_readFields h gathers_nil).2

end Fields

section Frames

variable {v v' : Value}

/-- A value inside a mapping. -/
theorem rel_read_fill (hedit : Concerns changed Edit) {f : Frame}
    (hres : isReserved f.key = false)
    (hs : isAlone → AreElsewhere changed (Path.normalForm f.key :: keys)
      (writtenBelow f.before ++ writtenBelow f.after))
    (h : Except.Rel (Reading.EditedAt Edit isAlone keys)
      (read drives (Path.join [place, Path.normalForm f.key]) v).outcome
      (read drives (Path.join [place, Path.normalForm f.key]) v').outcome) :
    Except.Rel (Reading.EditedAt Edit isAlone (Path.normalForm f.key :: keys))
      (read drives place (f.fill v)).outcome (read drives place (f.fill v')).outcome := by
  refine rel_read_map hedit (fun halone => (areElsewhere_append_iff.1 (hs halone)).2) ?_
  intro done hdone
  rw [readFields_target v hres, readFields_target v' hres]
  cases ht : normalPath drives f.key with
  | error e => exact .error e
  | ok target =>
    obtain rfl := (normalPath_eq_ok ht).1
    refine h.map fun child child' hchild => ⟨rfl, ?_, fun halone => ?_⟩
    · exact congrArg (done.diagnostics ++ ·) hchild.diagnostics
    · obtain ⟨⟨own, children⟩, _⟩ := child
      obtain ⟨⟨own', children'⟩, _⟩ := child'
      obtain rfl : own' = own := hchild.attributes
      have hg := gathers_children hdone
      have hspares := (areElsewhere_append_iff.1 (hs halone)).1.spares hg
      have hsingle : ProfileTree.EditedAt Edit (Path.normalForm f.key :: keys)
          ([] ++ [(Path.normalForm f.key, .node own' children)] ++ [])
          ([] ++ [(Path.normalForm f.key, .node own' children')] ++ []) :=
        .inside (by simp) (hchild.children halone)
      exact hsingle.merge_left hedit hg.keyed hspares

/-- A mapping writes what is around a gap and, under the key, what is inside. -/
theorem written_fill (f : Frame) (hres : isReserved f.key = false) (v : Value) :
    written (f.fill v) = ([], (f.before ++ f.after).foldl setField .empty) ::
      (writtenBelow f.before ++ under (Path.normalForm f.key) (written v) ++
        writtenBelow f.after) := by
  rw [Frame.fill, written, List.foldl_append, List.foldl_append, List.foldl_cons,
    setField_of_none (ofText?_eq_none hres), List.foldl_nil, ← List.foldl_append,
    writtenBelow_append, writtenBelow_append, writtenBelow, if_neg (by simp [hres]), writtenBelow,
    List.append_nil]

/-- A document writes around frames always the same, and what is inside under their keys. -/
theorem exists_written_fillAll {frames : List Frame} (hres : ∀ f ∈ frames, isReserved f.key = false) :
    ∃ first last, ∀ v, written (Frame.fillAll frames v) =
      first ++ (written v).map (fun d => (Frame.keys frames ++ d.1, d.2)) ++ last := by
  induction frames with
  | nil => exact ⟨[], [], fun v => by simp [Frame.fillAll, Frame.keys]⟩
  | cons f rest ih =>
    rw [List.forall_mem_cons] at hres
    obtain ⟨first, last, h⟩ := ih hres.2
    refine ⟨([], (f.before ++ f.after).foldl setField .empty) ::
      (writtenBelow f.before ++ under (Path.normalForm f.key) first),
      under (Path.normalForm f.key) last ++ writtenBelow f.after, fun v => ?_⟩
    rw [show Frame.fillAll (f :: rest) v = f.fill (Frame.fillAll rest v) from rfl,
      written_fill f hres.1, h v]
    simp [under, Frame.keys, Function.comp_def]

/-- A value inside several mappings. What is written outside of it is what the mappings write
around nothing. -/
theorem rel_read_fillAll (hedit : Concerns changed Edit) {frames : List Frame}
    (hres : ∀ f ∈ frames, isReserved f.key = false)
    (hs : isAlone → AreElsewhere changed (Frame.keys frames ++ keys)
      (written (Frame.fillAll frames .null)))
    (h : Except.Rel (Reading.EditedAt Edit isAlone keys)
      (read drives (Frame.placeFrom place frames) v).outcome
      (read drives (Frame.placeFrom place frames) v').outcome) :
    Except.Rel (Reading.EditedAt Edit isAlone (Frame.keys frames ++ keys))
      (read drives place (Frame.fillAll frames v)).outcome
      (read drives place (Frame.fillAll frames v')).outcome := by
  induction frames generalizing place with
  | nil => exact h
  | cons f rest ih =>
    rw [List.forall_mem_cons] at hres
    have hparts : isAlone → AreElsewhere changed (Path.normalForm f.key :: (Frame.keys rest ++ keys))
        (writtenBelow f.before ++ writtenBelow f.after) ∧
        AreElsewhere changed (Frame.keys rest ++ keys) (written (Frame.fillAll rest .null)) := by
      intro halone
      have hw := written_fill f hres.1 (Frame.fillAll rest .null)
      have hall := hs halone
      rw [show Frame.fillAll (f :: rest) .null = f.fill (Frame.fillAll rest .null) from rfl, hw] at hall
      obtain ⟨hfirst, hafter⟩ := areElsewhere_append_iff.1 (List.forall_mem_cons.1 hall).2
      obtain ⟨hbefore, hinner⟩ := areElsewhere_append_iff.1 hfirst
      exact ⟨areElsewhere_append_iff.2 ⟨hbefore, hafter⟩, areElsewhere_under_iff.1 hinner⟩
    exact rel_read_fill hedit hres.1 (fun halone => (hparts halone).1)
      (ih hres.2 (fun halone => (hparts halone).2) h)

end Frames

end Declaration

end Dotfiles
