import Dotfiles.Profile.Resolution
import Dotfiles.Proofs.Profile.Outline
import Dotfiles.Proofs.Profile.Written

/-!
The tree of components of a profile that has been read from a document. Unless a
component is one or two dots with a line feed after them, its keys are plain names and
its sources are plain paths.
-/

namespace Dotfiles

open Dotfiles.Path ProfileTree

/-- No component of a key or a source is one or two dots with a line feed after them. -/
def Declaration.IsFreeOfDotLines (document : Value) : Prop :=
  ∀ d ∈ written document,
    (∀ key ∈ d.1, ∀ name ∈ components key, ¬ IsDotLine name) ∧
      ∀ source ∈ d.2.source, ∀ name ∈ components source, ¬ IsDotLine name

instance (document : Value) : Decidable (Declaration.IsFreeOfDotLines document) :=
  inferInstanceAs (Decidable (∀ _ ∈ Declaration.written document, _ ∧ _))

/-- A tree keyed by plain names whose sources are plain paths. -/
structure ProfileTree.IsPlainTree (tree : ProfileTree) : Prop where
  keyed : IsKeyed IsPlain tree
  source : ∀ place a source, tree.attributesAt? place = some a → a.source = some source →
    IsPlainPath source

variable {drives : Bool} {document : Value} {profile : Profile}

theorem Profile.gathers_declarations (h : (Profile.read drives document).outcome = .ok profile) :
    Gathers profile.declarations (Declaration.written document) := by
  rw [Profile.read, Traced.outcome_bind_eq_ok_iff] at h
  obtain ⟨reading, hr, h⟩ := h
  cases h
  exact Declaration.gathers_read hr

/-- What is declared at some keys of a tree was written at or below them. -/
theorem ProfileTree.Gathers.exists_of_mem_outline {tree : ProfileTree}
    {declared : List (List Text × Attributes)} (h : Gathers tree declared)
    {keys : List Text} {a : Attributes} (hm : (keys, a) ∈ outline tree) :
    keys = [] ∨ ∃ d ∈ declared, keys <+: d.1 := by
  have ha := (mem_outline_iff h.keyed keys a).1 hm
  rw [← h.isSome_iff, ha]
  rfl

/-- A source of a gathered tree is one that was declared at its place. -/
theorem ProfileTree.Gathers.source_mem {tree : ProfileTree}
    {declared : List (List Text × Attributes)} (h : Gathers tree declared)
    {keys : List Text} {a : Attributes} (hm : (keys, a) ∈ outline tree) {source : Path}
    (hs : a.source = some source) : ∃ d ∈ declared, d.2.source = some source := by
  have ha := (mem_outline_iff h.keyed keys a).1 hm
  have hmerged := h.merged keys
  rw [ha, Option.getD_some] at hmerged
  have hlast := (Attributes.lastWins_mergeAll (declaredAt keys declared)).source
  rw [← hmerged] at hlast
  have hsource : (Attributes.empty.merge a).source = some source := by
    simp [Attributes.merge, hs]
  obtain ⟨b, hb, hbs⟩ := Attributes.exists_of_lastSet (hlast.symm.trans hsource)
  exact ⟨(keys, b), mem_declaredAt_iff.1 hb, hbs⟩

/-- Every name in the tree of components was written in a key. -/
theorem Profile.isKeyed_of_written (h : (Profile.read drives document).outcome = .ok profile)
    {P : Name → Prop} (hkeys : ∀ d ∈ Declaration.written document, ∀ key ∈ d.1,
      ∀ name ∈ components key, P name) :
    IsKeyed P profile.declarations.byComponent := by
  have hgathers := Profile.gathers_declarations h
  apply isKeyed_byComponent
  intro d hd name hname
  rw [flatten_eq, List.mem_map] at hd
  obtain ⟨⟨keys, a⟩, hm, rfl⟩ := hd
  rw [List.nil_append, List.mem_flatMap] at hname
  obtain ⟨key, hkey, hname⟩ := hname
  rcases hgathers.exists_of_mem_outline hm with rfl | ⟨w, hw, hbegins⟩
  · cases hkey
  · exact hkeys w hw key (hbegins.subset hkey) name hname

/-- Every source in the tree of components was written in a declaration. -/
theorem Profile.source_mem_written (h : (Profile.read drives document).outcome = .ok profile)
    {place : List Name} {a : Attributes} {source : Path}
    (ha : profile.declarations.byComponent.attributesAt? place = some a)
    (hs : a.source = some source) :
    ∃ d ∈ Declaration.written document, d.2.source = some source := by
  have hlast := (Attributes.lastWins_mergeAll
    (declaredAt place (flatten [] profile.declarations))).source
  rw [← getD_attributesAt?_byComponent, ha, Option.getD_some] at hlast
  obtain ⟨b, hb, hbs⟩ := Attributes.exists_of_lastSet (hlast.symm.trans hs)
  rw [mem_declaredAt_iff, flatten_eq, List.mem_map] at hb
  obtain ⟨⟨keys, c⟩, hm, he⟩ := hb
  cases he
  exact (Profile.gathers_declarations h).source_mem hm hbs

/-- The keys of a tree of components are plain names if no dot lines are written in keys. -/
theorem Profile.isKeyed_plain (h : (Profile.read drives document).outcome = .ok profile)
    (hfree : ∀ d ∈ Declaration.written document, ∀ key ∈ d.1, ∀ name ∈ components key,
      ¬ IsDotLine name) : IsKeyed IsPlain profile.declarations.byComponent := by
  apply Profile.isKeyed_of_written h
  intro d hd key hkey name hname
  obtain ⟨p, rfl⟩ := (Declaration.isNormal_of_mem_written hd).1 key hkey
  exact (isPlainPath_normalForm (hfree d hd _ hkey)).plain name hname

/-- The tree of components of a document without dots before line feeds is plain. -/
theorem Profile.isPlainTree (h : (Profile.read drives document).outcome = .ok profile)
    (hfree : Declaration.IsFreeOfDotLines document) :
    IsPlainTree profile.declarations.byComponent := by
  refine ⟨Profile.isKeyed_plain h fun d hd => (hfree d hd).1, ?_⟩
  intro place a source ha hs
  obtain ⟨d, hd, hds⟩ := Profile.source_mem_written h ha hs
  obtain ⟨p, rfl⟩ := (Declaration.isNormal_of_mem_written hd).2 source hds
  exact isPlainPath_normalForm ((hfree d hd).2 _ hds)

end Dotfiles
