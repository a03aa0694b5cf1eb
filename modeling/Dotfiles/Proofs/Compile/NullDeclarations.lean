import Dotfiles.Proofs.Compile.Redundancy
import Dotfiles.Proofs.Profile.AddedNode
import Dotfiles.Proofs.Profile.DocumentOrder
import Dotfiles.Proofs.Profile.Frames

/-!
Nulls that are declared for names in a directory. Such a declaration says only what holds anyway,
if the directory is gone through and the name is in it and not ignored: its target takes over
everything from the directory, and is compiled apart to the same actions.
-/

namespace Dotfiles

open Dotfiles.Path ProfileTree Compilation

namespace Declaration

/-- The fields of a mapping in whose place a value stands: a null says nothing, and a text sets the
one attribute that a field would set. -/
inductive StandsFor : Value → Fields → Prop
  | map (fields : Fields) : StandsFor (.map fields) fields
  | null : StandsFor .null []
  | source {t : Text} (h : t.head? ≠ some '<') :
      StandsFor (.scalar (.text t)) [(.text AttributeKey.source.text, .scalar (.text t))]
  | method {t : Text} {m : Method} (h : bracketedName? t = some m.name) :
      StandsFor (.scalar (.text ('<' :: t)))
        [(.text AttributeKey.method.text, .scalar (.text m.name))]

/-- Whether a document is another one with a null declared for a place, under one more key of one
of its mappings, which may have been left to a value that stands for it. -/
inductive DeclaresNull (drives : Bool) (place : List Name) : Value → Value → Prop
  | intro {frames : List Frame} {before after : Fields} {v : Value} {key : Text} {target : Path}
      (reserved : ∀ f ∈ frames, isReserved f.key = false) (stands : StandsFor v (before ++ after))
      (free : isReserved key = false) (accepted : normalPath drives key = .ok target)
      (leads : (Frame.keys frames ++ [target]).flatMap components = place) :
      DeclaresNull drives place (Frame.fillAll frames v)
        (Frame.fillAll frames (.map (before ++ [(.text key, .null)] ++ after)))

section StandingFor

variable {drives : Bool} {place : Path} {v : Value} {fields : Fields} {t : Text}

theorem setAttribute_source (h : t.head? ≠ some '<') :
    setAttribute drives place .empty .source (.scalar (.text t)) = attributesOfText drives t := by
  have hsource : attributesOfText drives t = Attributes.ofSource <$> normalPath drives t := by
    unfold attributesOfText
    split
    · exact absurd rfl h
    · rfl
  rw [hsource, setAttribute]
  cases normalPath drives t <;> rfl

theorem setAttribute_method {m : Method} (h : bracketedName? t = some m.name) :
    setAttribute drives place .empty .method (.scalar (.text m.name)) =
      attributesOfText drives ('<' :: t) := by
  have hname : Method.ofName? m.name = some m := by cases m <;> rfl
  simp only [attributesOfText, h, setAttribute, methodOf, hname]
  rfl

/-- A text is read as the mapping that sets its attribute. -/
theorem outcome_read_text {slot : AttributeKey} {value : Value}
    (h : setAttribute drives place .empty slot value = attributesOfText drives t) :
    (read drives place (.scalar (.text t))).outcome =
      (read drives place (.map [(.text slot.text, value)])).outcome := by
  have hown : (Reading.mk .empty []).tree.attributes = .empty := rfl
  rw [read, read, readFields_slot value (isReserved_text slot) (ofText?_text slot), hown,
    Traced.outcome_bind, Traced.outcome_ofExcept, ← h]
  cases setAttribute drives place .empty slot value <;> rfl

theorem written_text {slot : AttributeKey} {value : Value}
    (h : setAttribute false [] .empty slot value = attributesOfText false t) :
    written (.scalar (.text t)) = written (.map [(.text slot.text, value)]) := by
  simp only [written, List.foldl_cons, List.foldl_nil, setField, ofText?_text, textAttributes, h,
    writtenBelow, isReserved_text, if_true]

theorem StandsFor.outcome_read (h : StandsFor v fields) :
    (read drives place v).outcome = (read drives place (.map fields)).outcome := by
  cases h with
  | map => rfl
  | null => rfl
  | source h => exact outcome_read_text (setAttribute_source h)
  | method h => exact outcome_read_text (setAttribute_method h)

theorem StandsFor.written_eq (h : StandsFor v fields) : written v = written (.map fields) := by
  cases h with
  | map => rfl
  | null => rfl
  | source h => exact written_text (setAttribute_source h)
  | method h => exact written_text (setAttribute_method h)

end StandingFor

section Reading

variable {drives : Bool} {place target : Path} {before after : Fields} {key : Text}

/-- The edit that adds a child which declares nothing. -/
def AddsEmpty (key : Path) (block block' : List (Text × ProfileTree)) : Prop :=
  block = [] ∧ block' = [(key, .empty)]

theorem concerns_addsEmpty (key : Path) : Concerns [key] (AddsEmpty key) := by
  refine ⟨?_, ?_⟩
  · rintro _ _ ⟨rfl, rfl⟩
    simp
  · rintro _ _ ⟨rfl, rfl⟩
    simp

/-- A mapping with a null under one more key, in which nothing else is declared for the key. -/
theorem rel_read_null (free : isReserved key = false) (accepted : normalPath drives key = .ok target)
    (hbefore : AreElsewhere [target] [] (writtenBelow before))
    (hafter : AreElsewhere [target] [] (writtenBelow after)) :
    Except.Rel (Reading.EditedAt (AddsEmpty target) True [])
      (read drives place (.map (before ++ after))).outcome
      (read drives place (.map (before ++ [(.text key, .null)] ++ after))).outcome := by
  have hblock : ∀ done, (readFields drives place ⟨.empty, []⟩ before).outcome = .ok done →
      Except.Rel (Reading.EditedAt (AddsEmpty target) True [])
        (readFields drives place done []).outcome
        (readFields drives place done [(.text key, .null)]).outcome := by
    intro done hdone
    have hspares := spares_nil_iff.1 (hbefore.spares (gathers_children hdone))
    have hadd : (done.addChild target ⟨.empty, []⟩).tree.children =
        done.tree.children ++ [(target, .empty)] :=
      mergeChildren_single_of_none (childOf_eq_none_iff.2 (hspares target (by simp)))
    rw [readFields_target .null free, accepted]
    refine .ok ⟨rfl, List.append_nil _, fun _ => ?_⟩
    rw [hadd]
    have hhere := @EditedAt.here (AddsEmpty target) done.tree.children [] _ [] ⟨rfl, rfl⟩
      (by simpa using hspares)
    simpa using hhere
  have hrel := rel_read_map (concerns_addsEmpty target) (fun _ => hafter) hblock
  rwa [List.append_nil] at hrel

/-- A null under one more key of a mapping inside frames, where nothing is declared for the key. -/
theorem rel_read_fillAll_null {frames : List Frame} {v : Value}
    (reserved : ∀ f ∈ frames, isReserved f.key = false) (stands : StandsFor v (before ++ after))
    (free : isReserved key = false) (accepted : normalPath drives key = .ok target)
    (h : AreElsewhere [target] (Frame.keys frames) (written (Frame.fillAll frames v))) :
    Except.Rel (Reading.EditedAt (AddsEmpty target) True (Frame.keys frames))
      (read drives place (Frame.fillAll frames v)).outcome
      (read drives place
        (Frame.fillAll frames (.map (before ++ [(.text key, .null)] ++ after)))).outcome := by
  obtain ⟨first, last, hw⟩ := exists_written_fillAll reserved
  rw [hw, stands.written_eq, areElsewhere_append_iff, areElsewhere_append_iff] at h
  obtain ⟨⟨hfirst, hmapping⟩, hlast⟩ := h
  have hbelow : AreElsewhere [target] [] (writtenBelow (before ++ after)) := by
    intro d hd k hk hp
    refine hmapping (Frame.keys frames ++ d.1, d.2) ?_ k hk ?_
    · rw [written]
      exact List.mem_map.2 ⟨d, List.mem_cons_of_mem _ hd, rfl⟩
    · exact (List.prefix_append_right_inj _).2 hp
  have houter : AreElsewhere [target] (Frame.keys frames) (written (Frame.fillAll frames .null)) := by
    have hnull : written .null = [([], .empty)] := rfl
    rw [hw, hnull, areElsewhere_append_iff, areElsewhere_append_iff]
    refine ⟨⟨hfirst, ?_⟩, hlast⟩
    intro d hd k _ hp
    rw [List.mem_singleton.1 hd] at hp
    have hlength := hp.length_le
    simp only [List.length_append, List.length_singleton, List.length_nil] at hlength
    omega
  rw [writtenBelow_append, areElsewhere_append_iff] at hbelow
  have hrel := @rel_read_fillAll _ True [target] [] drives place _ _ (concerns_addsEmpty target)
    frames reserved (fun _ => by rwa [List.append_nil])
    (stands.outcome_read ▸ rel_read_null free accepted hbelow.1 hbelow.2)
  rwa [List.append_nil] at hrel

end Reading

end Declaration

namespace Profile

open Declaration

variable {drives : Bool} {document document' : Value} {profile : Profile} {place : List Name}

/-- A document with a null declared for a place for which nothing was declared: one declaration
more, which declares nothing. -/
theorem exists_of_declaresNull (hread : (Profile.read drives document).outcome = .ok profile)
    (h : DeclaresNull drives place document document')
    (hnew : profile.declarations.byComponent.attributesAt? place = none) :
    ∃ profile' first last, (Profile.read drives document').outcome = .ok profile' ∧
      profile'.diagnostics = profile.diagnostics ∧
      flatten [] profile.declarations = first ++ last ∧
      flatten [] profile'.declarations = first ++ (place, .empty) :: last := by
  have hg := Profile.gathers_declarations hread
  cases h with
  | @intro frames before after v key target reserved stands free accepted leads =>
    have helsewhere : AreElsewhere [target] (Frame.keys frames)
        (written (Frame.fillAll frames v)) := by
      rintro d hd _ hkey ⟨rest, hrest⟩
      rw [List.mem_singleton.1 hkey] at hrest
      have hprefix : place <+: d.1.flatMap components := by
        rw [← hrest, List.flatMap_append, leads]
        exact List.prefix_append _ _
      have hsome := (hg.isSome_byComponent_iff (written_ne_nil _) place).2 ⟨d, hd, hprefix⟩
      rw [hnew] at hsome
      cases hsome
    rw [Profile.read, Traced.outcome_bind_eq_ok_iff] at hread
    obtain ⟨⟨⟨own, children⟩, _⟩, hr, he⟩ := hread
    cases he
    obtain ⟨⟨⟨own', children'⟩, _⟩, hr', hattributes, hdiagnostics, hchildren⟩ :=
      (rel_read_fillAll_null reserved stands free accepted helsewhere).exists_of_eq_ok hr
    cases hattributes
    cases hdiagnostics
    obtain ⟨_, _, first, last, ⟨rfl, rfl⟩, hflat, hflat'⟩ := (hchildren trivial).flatten []
    refine ⟨⟨.node own children', _⟩, ([], own) :: first, last, ?_, rfl, ?_, ?_⟩
    · exact Traced.outcome_bind_eq_ok_iff.2 ⟨_, hr', rfl⟩
    · refine (congrArg (([], own) :: ·) hflat).trans ?_
      simp [flattenChildren]
    · refine (congrArg (([], own) :: ·) hflat').trans ?_
      simp [flattenChildren, ProfileTree.flatten, ProfileTree.empty, ← leads]

variable {w : World} {settings : Settings} {compilation : Compilation} {entries : List Entry}
  {entry : Entry} {name : Name}

/-- A null that is declared for a name in a directory changes nothing. Where an entry goes through
a directory without links, with a name in it that is not ignored and for which nothing is
declared, a null may be declared for that name: the document is read and compiled with the same
remarks, and every target has the same action. -/
theorem compile_declaresNull (hread : (Profile.read drives document).outcome = .ok profile)
    (hfree : IsFreeOfDotLines document) (hfs : ∀ name ∈ w.files.root.names, IsPlain name)
    (hlinks : w.files.root.hasNoLinks = true) (hsource : IsPlainRoot settings.source)
    (htarget : IsPlainRoot settings.target)
    (hcompile : (profile.compile w settings).outcome = .ok compilation)
    (hentries : profile.entries.outcome = .ok entries) (hentry : entry ∈ entries)
    (hthrough : GoesThrough w settings entry name)
    (hnew : profile.declarations.byComponent.attributesAt? (components entry.target ++ [name]) = none)
    (h : DeclaresNull drives (components entry.target ++ [name]) document document') :
    ∃ profile' compilation', (Profile.read drives document').outcome = .ok profile' ∧
      (profile'.compile w settings).outcome = .ok compilation' ∧
      (∀ target, compilation'.table.action? target = compilation.table.action? target) ∧
      compilation'.table.Perm compilation.table ∧
      compilation'.diagnostics = compilation.diagnostics := by
  have ht := Profile.isPlainTree hread hfree
  have hlaw := (mem_entries_iff hentries ht _ entry).1 ⟨hentry, rfl⟩
  have hparent := ((isSome_inherited?_iff _).1 (Option.isSome_iff_exists.2 ⟨entry, hlaw⟩)).1
  obtain ⟨listed, hlist, hin⟩ := hthrough.listed
  have hname : IsPlain name := hfs name ((FileSystem.list_eq_ok hlist).2 name hin)
  obtain ⟨profile', first, last, hread', hremarks, hflat, hflat'⟩ :=
    exists_of_declaresNull hread h hnew
  have hgrows := grows_byComponent hflat hflat' hparent hnew
  have ht' := hgrows.isPlainTree hflat' hflat ht hname
  obtain ⟨earlier, between, later, rfl, hentries'⟩ :=
    entries_of_grows hgrows ht ht' hentries hentry rfl hthrough.expanded
  obtain ⟨_, hsame, hrun, hdiagnostics⟩ := compile_eq_ok_iff.1 hcompile
  cases hentries.symm.trans hsame
  have hsorted := isSorted_entries ht hentries
  have hsorted' := isSorted_entries ht' hentries'
  have hcontinues := continues_of_isPlainPath hsource (hsorted.plain entry hentry)
    (ht.source_of_inherited? hlaw) hname
  obtain ⟨table', hrun', hperm⟩ :=
    recordedBy_continued hfs hlinks htarget hcontinues hthrough hsorted' hrun
  refine ⟨profile', ⟨table', profile'.diagnostics⟩, hread',
    compile_eq_ok_iff.2 ⟨_, hentries', hrun', rfl⟩, fun target => ?_, hperm,
    hremarks.trans hdiagnostics.symm⟩
  ext action
  rw [action?_eq_some_iff (recordedBy_functional hfs htarget hsorted' hrun'),
    action?_eq_some_iff (recordedBy_functional hfs htarget hsorted hrun), hperm.mem_iff]

/-- A file below a directory of a copied directory. -/
def copiedTree : World where
  files := ⟨.dir [("x".toList, .dir [("s".toList, .dir [
    ("d".toList, .dir [("f".toList, .file (.bytes []))])])])], []⟩
  environment := []
  users := []
  uid := 0
  platform := .posix

/-- The inner directory may be declared where only the source of the outer one was written. -/
theorem compile_declaresNull_inner :
    ∃ profile compilation profile' compilation',
      (Profile.read false (.map [(.text "a".toList, .scalar (.text "s".toList))])).outcome =
        .ok profile ∧
      (profile.compile copiedTree ⟨"/x".toList, "/t".toList, 0⟩).outcome = .ok compilation ∧
      (Profile.read false (.map [(.text "a".toList, .map [
        (.text "~source".toList, .scalar (.text "s".toList)),
        (.text "d".toList, .null)])])).outcome = .ok profile' ∧
      (profile'.compile copiedTree ⟨"/x".toList, "/t".toList, 0⟩).outcome = .ok compilation' ∧
      compilation'.table.action? "/t/a/d/f".toList = some ⟨"/x/s/d/f".toList, .copy⟩ := by
  obtain ⟨profile, hread, hentries, hnew⟩ : ∃ profile,
      (Profile.read false (.map [(.text "a".toList, .scalar (.text "s".toList))])).outcome =
        .ok profile ∧
      profile.entries.outcome = .ok [⟨"a".toList, "s".toList, .copy, false, ⟨[]⟩⟩] ∧
      profile.declarations.byComponent.attributesAt? ["a".toList, "d".toList] = none :=
    ⟨_, rfl, entries_of_perm rfl (.refl _) (by decide +kernel), rfl⟩
  have hrecorded : recordedBy copiedTree ⟨"/x".toList, "/t".toList, 0⟩
      [⟨"a".toList, "s".toList, .copy, false, ⟨[]⟩⟩] =
      .ok [("/t/a/d/f".toList, ⟨"/x/s/d/f".toList, .copy⟩)] := by
    decide +kernel
  have hcompile : (profile.compile copiedTree ⟨"/x".toList, "/t".toList, 0⟩).outcome =
      .ok ⟨[("/t/a/d/f".toList, ⟨"/x/s/d/f".toList, .copy⟩)], profile.diagnostics⟩ :=
    compile_eq_ok_iff.2 ⟨_, hentries, hrecorded, rfl⟩
  have hthrough : GoesThrough copiedTree ⟨"/x".toList, "/t".toList, 0⟩
      ⟨"a".toList, "s".toList, .copy, false, ⟨[]⟩⟩ "d".toList := by
    refine ⟨rfl, ⟨["d".toList], by decide +kernel, by decide⟩, ?_⟩
    rintro matcher hm
    cases hm
    rfl
  have hdeclares : DeclaresNull false ["a".toList, "d".toList]
      (.map [(.text "a".toList, .scalar (.text "s".toList))])
      (.map [(.text "a".toList, .map [(.text "~source".toList, .scalar (.text "s".toList)),
        (.text "d".toList, .null)])]) :=
    @DeclaresNull.intro false _ [⟨[], "a".toList, []⟩]
      [(.text "~source".toList, .scalar (.text "s".toList))] [] _ _ _ (by decide)
      (.source (by decide)) rfl rfl (by decide)
  obtain ⟨profile', compilation', hread', hcompile', hsame, _⟩ :=
    compile_declaresNull hread (by decide +kernel) (by decide +kernel) (by decide)
      ⟨rfl, by decide, by decide, by decide⟩ ⟨rfl, by decide, by decide, by decide⟩ hcompile
      hentries (List.mem_singleton_self _) hthrough hnew hdeclares
  exact ⟨profile, _, profile', compilation', hread, hcompile, hread', hcompile', (hsame _).trans rfl⟩

end Profile

end Dotfiles
