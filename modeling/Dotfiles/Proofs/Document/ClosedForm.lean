import Dotfiles.Proofs.Document.Imports
import Dotfiles.Proofs.Value.Consistency

/-!
Imports in closed form. Where a document and its imports agree on what kind of value stands
at every path, the merged document has there the last of the single values, all lists one
after the other, or a mapping with the keys of all mappings. As long as there are no nulls,
imports may be merged in groups.
-/

namespace Dotfiles.ProfileDocument

open Value

/-- What is loaded from consistent documents has the values that they have at a path
summarized there; if they hold no nulls, merging them is associative, and every grouping of
them gives the same content. -/
theorem content_summarizes {main : Part} {imports : List Part}
    (hkeyed : ∀ d ∈ documents main imports, d.isKeyed = true)
    (hkinds : AreConsistent (documents main imports)) :
    (∀ w source name, parts w source name = .ok (main, imports) →
      (load w source name).outcome = ofContent w main.file (content main imports)) ∧
    (∀ path, Summarizes (valuesAt path (documents main imports))
      ((map (content main imports)).at? path)) ∧
    (AreNullFree (documents main imports) →
      (∀ a ∈ documents main imports, ∀ b ∈ documents main imports,
        ∀ c ∈ documents main imports, merge (merge a b) c = merge a (merge b c)) ∧
      ∀ g : Grouping, g.documents = documents main imports →
        g.merged = map (content main imports)) := by
  refine ⟨?_, ?_, ?_⟩
  · intro w source name hparts
    rw [load_outcome, hparts]
    rfl
  · intro path
    rw [map_content]
    exact summarizes_at? hkeyed hkinds path
  · intro hnull
    have halike := areAlike_of_consistent hkinds hnull
    refine ⟨fun a ha b hb c hc => merge_assoc ha hb hc hkeyed halike, ?_⟩
    intro g hg
    have hmerged := g.merged?_documents (hg ▸ hkeyed) (hg ▸ halike)
    rw [hg, documents, List.map_cons, merged?, Option.some_inj] at hmerged
    rw [map_content, hmerged]

/-- A document with data and a profile. -/
def listingMain : Fields :=
  [(.text importSection, .list [.text "x.yaml".toList, .text "y.yaml".toList]),
    (.text dataSection, .map [(.text "n".toList, .scalar (.int 1)),
      (.text "l".toList, .list [.text "a".toList])]),
    (.text profileSection, .map [(.text "t".toList, .map [(.text "~source".toList,
      .text "f".toList)])])]

/-- An import that extends its data. -/
def dataImport : Fields :=
  [(.text dataSection, .map [(.text "l".toList, .list [.text "b".toList]),
    (.text "n".toList, .scalar (.int 2)), (.text "m".toList, .scalar (.bool true))])]

/-- An import that extends its profile, and sets a piece of data once more. -/
def profileImport : Fields :=
  [(.text profileSection, .map [(.text "t".toList, .map [(.text "~ignore".toList,
      .list [.text "*.bak".toList])])]),
    (.text dataSection, .map [(.text "n".toList, .scalar (.int 3))])]

/-- The three documents in their directory. -/
def listingWorld : World :=
  worldOf [("dbot.yaml".toList, listingMain), ("x.yaml".toList, dataImport),
    ("y.yaml".toList, profileImport)]

theorem parts_listingWorld : parts listingWorld "/s".toList fileName =
    .ok (partOf "/s/dbot.yaml".toList listingMain,
      [partOf "/s/x.yaml".toList dataImport, partOf "/s/y.yaml".toList profileImport]) := by
  have hfirst : importedPart listingWorld.files "/s".toList "/s/dbot.yaml".toList
      (.text "x.yaml".toList) = .ok (partOf "/s/x.yaml".toList dataImport) :=
    importedPart_eq_ok (by decide +kernel) rfl
  have hsecond : importedPart listingWorld.files "/s".toList "/s/dbot.yaml".toList
      (.text "y.yaml".toList) = .ok (partOf "/s/y.yaml".toList profileImport) :=
    importedPart_eq_ok (by decide +kernel) rfl
  refine parts_eq_ok listingMain (by decide +kernel) rfl rfl ?_
  rw [List.mapM_cons, hfirst, List.mapM_cons, hsecond]
  rfl

/-- The last number, both lists, and the keys of all mappings of data, in a profile and data
that come from three documents. -/
theorem content_summarizes_three :
    ∃ main first second,
      parts listingWorld "/s".toList fileName = .ok (main, [first, second]) ∧
      (map (content main [first, second])).at? [.text dataSection, .text "n".toList] =
        some (.scalar (.int 3)) ∧
      (map (content main [first, second])).at? [.text dataSection, .text "l".toList] =
        some (.list [.text "a".toList, .text "b".toList]) ∧
      (∃ data, (map (content main [first, second])).at? [.text dataSection] = some (.map data) ∧
        data.map (·.1) = ["n", "l", "m"].map fun key => .text key.toList) ∧
      merge (map main.sections) (merge (map first.sections) (map second.sections)) =
        map (content main [first, second]) := by
  refine ⟨_, _, _, parts_listingWorld, ?_⟩
  have h := @content_summarizes (partOf "/s/dbot.yaml".toList listingMain)
    [partOf "/s/x.yaml".toList dataImport, partOf "/s/y.yaml".toList profileImport]
    (by decide +kernel) (by decide +kernel)
  refine ⟨h.2.1 [.text dataSection, .text "n".toList],
    h.2.1 [.text dataSection, .text "l".toList], h.2.1 [.text dataSection], ?_⟩
  exact (h.2.2 (by decide +kernel)).2 (.both (.one _) (.both (.one _) (.one _))) rfl

end Dotfiles.ProfileDocument
