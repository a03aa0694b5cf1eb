import Dotfiles.Proofs.Document.Imports

/-!
Null in merged documents. Merged into a value it changes nothing, and a single value that is
merged into it takes its place. A list or a mapping does not: null is a value of another kind,
and so it is kept.
-/

namespace Dotfiles.ProfileDocument

open Value

variable {w : World} {source name : Path} {main next : Part} {imports earlier between : List Part}
  {path : List Scalar}

theorem merge_null_left (v : Value) :
    Value.null.merge v = if v.kind = .single then v else .null := by
  split
  · rename_i h
    exact merge_of_single h _
  · rename_i h
    apply merge_eq_left h
    cases hv : v.kind with
    | null => exact .inl rfl
    | single => exact absurd hv h
    | list => exact .inr (by simp [null, kind])
    | mapping => exact .inr (by simp [null, kind])

/-- Documents that give nothing that replaces a null leave it there. -/
theorem at?_content_eq_null (h : (map (content main earlier)).at? path = some .null)
    (hk : ∀ p ∈ between, (map p.sections).isKeyed = true)
    (hs : ∀ p ∈ between, (map p.sections).spares path = true)
    (hgiven : ∀ p ∈ between, ∀ v, (map p.sections).at? path = some v → v.kind ≠ .single) :
    (map (content main (earlier ++ between))).at? path = some .null := by
  induction between generalizing earlier with
  | nil => rwa [List.append_nil]
  | cons first rest ih =>
    rw [List.forall_mem_cons] at hk hs hgiven
    rw [List.append_cons]
    refine ih ?_ hk.2 hs.2 hgiven.2
    rw [at?_content_append h hk.1 hs.1]
    cases hv : (map first.sections).at? path with
    | none => rfl
    | some v => rw [Option.elim_some, merge_null_left, if_neg (hgiven.1 v hv)]

/-- Null is neutral on the right of a merge, and on the left of a single value. In a loaded
document, at a path that the documents reach through mappings, a null that earlier documents
leave stays as long as further ones give only null, lists and mappings there, and the first
other value takes its place. -/
theorem null_yields_to_single :
    (∀ v : Value, v.merge .null = v) ∧
    (∀ v : Value, Value.null.merge v = if v.kind = .single then v else .null) ∧
    ∀ {w : World} {source name : Path} {main : Part} {imports : List Part},
      parts w source name = .ok (main, imports) →
      (∀ p ∈ imports, (map p.sections).isKeyed = true) →
      (load w source name).outcome = ofContent w main.file (content main imports) ∧
      ∀ {path : List Scalar} {earlier between later : List Part} {next : Part},
        imports = earlier ++ between ++ next :: later →
        (map (content main earlier)).at? path = some .null →
        (∀ p ∈ between, (map p.sections).spares path = true ∧
          ∀ v, (map p.sections).at? path = some v → v.kind ≠ .single) →
        (map (content main (earlier ++ between))).at? path = some .null ∧
        ∀ v, (map next.sections).at? path = some v →
          (map (content main (earlier ++ between ++ [next]))).at? path =
            some (if v.kind = .single then v else .null) := by
  refine ⟨merge_null, merge_null_left, ?_⟩
  intro w source name main imports hparts hkeyed
  refine ⟨by rw [load_outcome, hparts]; rfl, ?_⟩
  intro path earlier between later next himports hnull hbetween
  subst himports
  have hleft := at?_content_eq_null hnull
    (fun p hp => hkeyed p (List.mem_append_left _ (List.mem_append_right _ hp)))
    (fun p hp => (hbetween p hp).1) (fun p hp => (hbetween p hp).2)
  refine ⟨hleft, ?_⟩
  intro v hv
  rw [at?_content_append hleft (hkeyed next (by simp)) (spares_of_at? hv), hv, Option.elim_some,
    merge_null_left]

/-- A document that leaves its profile and a piece of its data empty. -/
def emptyMain : Fields :=
  [(.text importSection, .text "x.yaml".toList), (.text profileSection, .null),
    (.text dataSection, .map [(.text "k".toList, .null)])]

/-- An import that fills both. -/
def fillingImport : Fields :=
  [(.text profileSection, .map [(.text "a".toList, .text "b".toList)]),
    (.text dataSection, .map [(.text "k".toList, .text "v".toList)])]

/-- The two documents in their directory. -/
def emptySections : World :=
  worldOf [("dbot.yaml".toList, emptyMain), ("x.yaml".toList, fillingImport)]

theorem parts_emptySections : parts emptySections "/s".toList fileName =
    .ok (partOf "/s/dbot.yaml".toList emptyMain, [partOf "/s/x.yaml".toList fillingImport]) := by
  have himport : importedPart emptySections.files "/s".toList "/s/dbot.yaml".toList
      (.text "x.yaml".toList) = .ok (partOf "/s/x.yaml".toList fillingImport) :=
    importedPart_eq_ok (by decide +kernel) rfl
  refine parts_eq_ok emptyMain (by decide +kernel) rfl rfl ?_
  rw [List.mapM_cons, himport]
  rfl

/-- A section that a document leaves empty does not take in the mapping of an import. -/
theorem null_keeps_out_mapping :
    ∃ main extra v, parts emptySections "/s".toList fileName = .ok (main, [extra]) ∧
      (map main.sections).at? [.text profileSection] = some .null ∧
      (map extra.sections).at? [.text profileSection] = some v ∧ v ≠ .null ∧
      Value.null.merge v ≠ v ∧
      (map (content main [extra])).at? [.text profileSection] ≠ some v :=
  ⟨_, _, .map [(.text "a".toList, .text "b".toList)], parts_emptySections, rfl, rfl, nofun, nofun,
    nofun⟩

/-- A piece of data that a document leaves empty is taken from an import. -/
theorem null_yields_to_single_import :
    ∃ main extra, parts emptySections "/s".toList fileName = .ok (main, [extra]) ∧
      (map (content main [extra])).at? [.text dataSection, .text "k".toList] =
        some (.text "v".toList) := by
  refine ⟨_, _, parts_emptySections, ?_⟩
  obtain ⟨_, h⟩ := null_yields_to_single.2.2 parts_emptySections (by decide +kernel)
  have htaken := (@h [.text dataSection, .text "k".toList] [] [] [] _ rfl rfl (by simp)).2
  exact htaken (.text "v".toList) rfl

end Dotfiles.ProfileDocument
