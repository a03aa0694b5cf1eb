import Dotfiles.Proofs.Value.TakingPart

/-!
Documents that agree on what kind of value stands where. What such documents merge to is
known at every path from the values that they have there, and if there is no null among
these, merging them is associative.
-/

namespace Dotfiles.Value

/-- The values that documents have at a path. -/
def valuesAt (path : List Scalar) (docs : List Value) : List Value := docs.filterMap (at? path)

/-- Whether values are of one kind, apart from nulls, none of which comes first. -/
def OfOneKind : List Value → Prop
  | [] => True
  | first :: rest => first.kind ≠ .null ∧ ∀ v ∈ rest, v.kind = .null ∨ v.kind = first.kind

/-- At every path, the values of the documents are of one kind. -/
def AreConsistent (docs : List Value) : Prop := ∀ path, OfOneKind (valuesAt path docs)

/-- At no path does a document have a null. -/
def AreNullFree (docs : List Value) : Prop := ∀ path, ∀ v ∈ valuesAt path docs, v.kind ≠ .null

/-- What is found where documents have these values: the last single value, the items of all
lists, or a mapping with the keys of all mappings in the order in which they come first. -/
def Summarizes (values : List Value) (found : Option Value) : Prop :=
  match values with
  | [] => found = none
  | first :: _ =>
    match first.kind with
    | .null => False
    | .single => found = (values.filter fun v => v.kind ≠ .null).getLast?
    | .list => found = some (.list (values.flatMap items))
    | .mapping => ∃ fields, found = some (.map fields) ∧
        fields.map (·.1) =
          (values.flatMap fun v => v.fields.map (·.1)).eraseDupsBy Scalar.sameKey

section Deciding

instance : (values : List Value) → Decidable (OfOneKind values)
  | [] => .isTrue trivial
  | first :: rest =>
    inferInstanceAs (Decidable (first.kind ≠ .null ∧
      ∀ v ∈ rest, v.kind = .null ∨ v.kind = first.kind))

/-- What holds of no values holds of the values at every path if it does at the paths of the
documents. -/
theorem forall_valuesAt_iff {P : List Value → Prop} (hnil : P []) (docs : List Value) :
    (∀ path, P (valuesAt path docs)) ↔ ∀ path ∈ docs.flatMap paths, P (valuesAt path docs) := by
  refine ⟨fun h path _ => h path, fun h path => ?_⟩
  cases hvalues : valuesAt path docs with
  | nil => exact hnil
  | cons v rest =>
    have hv : v ∈ valuesAt path docs := by simp [hvalues]
    obtain ⟨d, hd, hv⟩ := List.mem_filterMap.1 hv
    obtain ⟨own, hown, hsame⟩ := exists_mem_paths hv
    have hthere := h own (List.mem_flatMap.2 ⟨d, hd, hown⟩)
    rwa [valuesAt, at?_congr hsame, ← valuesAt, hvalues] at hthere

instance (docs : List Value) : Decidable (AreConsistent docs) :=
  decidable_of_iff _ (forall_valuesAt_iff (P := OfOneKind) trivial docs).symm

instance (docs : List Value) : Decidable (AreNullFree docs) :=
  decidable_of_iff _ (forall_valuesAt_iff (P := fun l => ∀ v ∈ l, v.kind ≠ .null) nofun docs).symm

end Deciding

section Descending

variable {docs : List Value}

theorem valuesAt_cons (key : Scalar) (path : List Scalar) (docs : List Value) :
    valuesAt (key :: path) docs = valuesAt path (under key docs) := by
  simp only [valuesAt, under, List.filterMap_map, List.filterMap_filterMap]
  rfl

theorem areConsistent_under (h : AreConsistent docs) (key : Scalar) :
    AreConsistent (under key docs) := by
  intro path
  rw [← valuesAt_cons]
  exact h (key :: path)

end Descending

section ClosedForm

variable {v w : Value} {rest docs : List Value}

theorem kind_merge (h : w.kind = .null ∨ w.kind = v.kind) : (merge v w).kind = v.kind := by
  cases hw : w.kind with
  | null => rw [merge_eq_left (by simp [hw]) (.inl hw)]
  | single =>
    rw [merge_of_single hw]
    exact h.resolve_left (by simp [hw])
  | list =>
    have hv : v.kind = .list := by simpa [hw, eq_comm] using h
    rw [eq_list_of_kind hv, merge_list_left _ (by simp [hw])]
    rfl
  | mapping =>
    have hv : v.kind = .mapping := by simpa [hw, eq_comm] using h
    rw [eq_map_of_kind hv, merge_map_left _ (by simp [hw])]
    rfl

theorem kind_mergeAll (h : ∀ w ∈ rest, w.kind = .null ∨ w.kind = v.kind) :
    (mergeAll v rest).kind = v.kind := by
  induction rest generalizing v with
  | nil => rfl
  | cons w more ih =>
    obtain ⟨hw, hmore⟩ := List.forall_mem_cons.1 h
    have hkind := kind_merge hw
    rw [mergeAll_cons, ih (by rwa [hkind]), hkind]

theorem kind_ne_single (hv : v.kind ≠ .single)
    (h : ∀ w ∈ rest, w.kind = .null ∨ w.kind = v.kind) : ∀ w ∈ rest, w.kind ≠ .single := by
  intro w hw hsingle
  rcases h w hw with hk | hk
  · simp [hk] at hsingle
  · exact hv (hk.symm.trans hsingle)

theorem mergeAll_single (hv : v.kind = .single)
    (h : ∀ w ∈ rest, w.kind = .null ∨ w.kind = .single) :
    some (mergeAll v rest) = ((v :: rest).filter fun w => w.kind ≠ .null).getLast? := by
  induction rest generalizing v with
  | nil => simp [mergeAll, hv]
  | cons w more ih =>
    obtain ⟨hw, hmore⟩ := List.forall_mem_cons.1 h
    rw [mergeAll_cons, List.filter_cons_of_pos (by simp [hv])]
    rcases hw with hw | hw
    · rw [merge_eq_left (by simp [hw]) (.inl hw), ih hv hmore,
        List.filter_cons_of_pos (by simp [hv]), List.filter_cons_of_neg (by simp [hw])]
    · rw [merge_of_single hw, ih hw hmore, List.filter_cons_of_pos (by simp [hw]),
        List.getLast?_cons_cons]

/-- Values of one kind are summarized by what they merge to. -/
theorem summarizes_merged? (hkeyed : ∀ d ∈ docs, d.isKeyed = true) (h : OfOneKind docs) :
    Summarizes docs (merged? docs) := by
  cases docs with
  | nil => rfl
  | cons v rest =>
    obtain ⟨hnull, hrest⟩ := h
    rw [Summarizes, merged?]
    cases hv : v.kind with
    | null => exact hnull hv
    | single => exact mergeAll_single hv (hv ▸ hrest)
    | list =>
      show some (mergeAll v rest) = _
      rw [eq_list_of_kind hv, mergeAll_list _ (kind_ne_single (by simp [hv]) hrest)]
      rfl
    | mapping =>
      refine ⟨combine ((v :: rest).map fields), ?_, ?_⟩
      · rw [mergeAll_eq_combine hkeyed ((kind_mergeAll hrest).trans hv)]
      · rw [map_fst_combine (hasDistinctKeys_map_fields hkeyed), List.flatMap_map]

/-- Where documents are consistent, either all values at a path take part in what stands
there, or there are none. -/
theorem takingPart_eq (h : AreConsistent docs) (path : List Scalar) :
    takingPart path docs = valuesAt path docs := by
  induction path generalizing docs with
  | nil => exact List.filterMap_some.symm
  | cons key path ih =>
    cases docs with
    | nil => rfl
    | cons v rest =>
      have hkinds : OfOneKind (v :: rest) := by simpa [valuesAt, at?] using h []
      rw [takingPart_cons, kind_mergeAll hkinds.2, valuesAt_cons]
      split
      · exact ih (areConsistent_under h key)
      · rename_i hv
        rw [under_eq_nil, valuesAt, List.filterMap_nil]
        intro w hw
        rcases List.mem_cons.1 hw with rfl | hw
        · exact hv
        · rcases hkinds.2 w hw with hk | hk
          · simp [hk]
          · rwa [hk]

/-- Consistent documents merge to a document in which, at every path, the values that they
have there are summarized. -/
theorem summarizes_at? (hkeyed : ∀ d ∈ v :: rest, d.isKeyed = true)
    (h : AreConsistent (v :: rest)) (path : List Scalar) :
    Summarizes (valuesAt path (v :: rest)) ((mergeAll v rest).at? path) := by
  have hat := at?_merged? hkeyed path
  rw [merged?, Option.bind_some, takingPart_eq h] at hat
  rw [hat]
  refine summarizes_merged? ?_ (h path)
  intro u hu
  obtain ⟨d, hd, hu⟩ := List.mem_filterMap.1 hu
  exact isKeyed_of_at? (hkeyed d hd) hu

end ClosedForm

section Grouping

variable {v w x y : Value} {docs some? xs ys : List Value}

/-- At every path, the values of the documents are of one kind, and not null. -/
def AreAlike (docs : List Value) : Prop :=
  ∀ path, ∀ u ∈ valuesAt path docs, ∀ v ∈ valuesAt path docs, u.kind ≠ .null ∧ v.kind = u.kind

theorem areAlike_of_consistent (h : AreConsistent docs) (hnull : AreNullFree docs) :
    AreAlike docs := by
  intro path u hu v hv
  have hkinds := h path
  have hfree := hnull path
  refine ⟨hfree u hu, ?_⟩
  cases hvalues : valuesAt path docs with
  | nil => simp [hvalues] at hu
  | cons first rest =>
    rw [hvalues] at hkinds hfree hu hv
    have hfirst : ∀ w ∈ first :: rest, w.kind = first.kind := by
      intro w hw
      rcases List.mem_cons.1 hw with rfl | hrest
      · rfl
      · exact (hkinds.2 w hrest).resolve_left (hfree w hw)
    rw [hfirst u hu, hfirst v hv]

theorem AreAlike.of_subset (h : AreAlike docs) (hsub : xs ⊆ docs) : AreAlike xs := by
  have hvalues : ∀ path, valuesAt path xs ⊆ valuesAt path docs := by
    intro path u hu
    obtain ⟨d, hd, hu⟩ := List.mem_filterMap.1 hu
    exact List.mem_filterMap.2 ⟨d, hsub hd, hu⟩
  intro path u hu v hv
  exact h path u (hvalues path hu) v (hvalues path hv)

theorem AreAlike.under (h : AreAlike docs) (key : Scalar) : AreAlike (under key docs) := by
  intro path
  rw [← valuesAt_cons]
  exact h (key :: path)

theorem AreAlike.kind_eq (h : AreAlike docs) (hv : v ∈ docs) (hw : w ∈ docs) :
    v.kind ≠ .null ∧ w.kind = v.kind :=
  h [] v (List.mem_filterMap.2 ⟨v, hv, rfl⟩) w (List.mem_filterMap.2 ⟨w, hw, rfl⟩)

theorem merged?_append (h : merged? xs = some x) (ys : List Value) :
    merged? (xs ++ ys) = some (mergeAll x ys) := by
  cases xs with
  | nil => cases h
  | cons first rest =>
    cases h
    rw [List.cons_append, merged?, mergeAll, mergeAll, mergeAll, List.foldl_append]

/-- Mappings may be grouped if what they have under every key may be. -/
theorem mergeAll_eq_merge_of_mapping {vs ws : List Value}
    (hkind : ∀ d ∈ v :: vs ++ w :: ws, d.kind = .mapping)
    (hkeyed : ∀ d ∈ v :: vs ++ w :: ws, d.isKeyed = true)
    (hunder : ∀ key x y, merged? (Value.under key (v :: vs)) = some x →
      merged? (Value.under key (w :: ws)) = some y →
      mergeAll x (Value.under key (w :: ws)) = merge x y) :
    mergeAll (mergeAll v vs) (w :: ws) = merge (mergeAll v vs) (mergeAll w ws) := by
  have hsingle : ∀ d ∈ v :: vs ++ w :: ws, d.kind ≠ .single := fun d hd => by simp [hkind d hd]
  have hmapping : ∀ u us, u :: us ⊆ v :: vs ++ w :: ws → (mergeAll u us).kind = .mapping := by
    intro u us hsub
    refine kind_mergeAll_eq_mapping_iff.2 ⟨hkind u (hsub List.mem_cons_self), ?_⟩
    intro d hd
    exact hsingle d (hsub (List.mem_cons_of_mem u hd))
  have hkeyed' := List.forall_mem_append.1 hkeyed
  have hfirst := mergeAll_eq_combine hkeyed'.1 (hmapping v vs (List.subset_append_left _ _))
  have hsecond := mergeAll_eq_combine hkeyed'.2 (hmapping w ws (List.subset_append_right _ _))
  have hboth : mergeAll v (vs ++ w :: ws) = map (combine ((v :: vs ++ w :: ws).map fields)) :=
    mergeAll_eq_combine hkeyed (hmapping v _ (List.Subset.refl _))
  calc mergeAll (mergeAll v vs) (w :: ws)
      = mergeAll v (vs ++ w :: ws) := by rw [mergeAll, mergeAll, mergeAll, List.foldl_append]
    _ = map (combine ((v :: vs).map fields ++ (w :: ws).map fields)) := by
      rw [hboth, ← List.map_append]
    _ = map (mergeFields (combine ((v :: vs).map fields)) (combine ((w :: ws).map fields))) := by
      rw [mergeFields_combine (hasDistinctKeys_map_fields hkeyed'.1)
        (hasDistinctKeys_map_fields hkeyed'.2) hunder]
    _ = merge (mergeAll v vs) (mergeAll w ws) := by rw [hfirst, hsecond, merge_map]

theorem mergeAll_eq_merge (hx : merged? xs = some x) (hy : merged? ys = some y)
    (hkeyed : ∀ d ∈ xs ++ ys, d.isKeyed = true) (h : AreAlike (xs ++ ys)) :
    mergeAll x ys = merge x y := by
  -- on the height of the documents, as what stands under a key has a smaller one
  obtain ⟨n, hn⟩ := exists_height_lt (xs ++ ys)
  induction n generalizing xs ys x y with
  | zero =>
    cases xs with
    | nil => cases hx
    | cons v vs => exact absurd (hn v (by simp)) (Nat.not_lt_zero _)
  | succ n ih =>
    obtain _ | ⟨v, vs⟩ := xs
    · cases hx
    obtain _ | ⟨w, ws⟩ := ys
    · cases hy
    cases hx
    cases hy
    have hkind : ∀ d ∈ v :: vs ++ w :: ws, d.kind = v.kind :=
      fun d hd => (h.kind_eq (by simp) hd).2
    have hvs : ∀ d ∈ vs, d.kind = .null ∨ d.kind = v.kind :=
      fun d hd => .inr (hkind d (by simp [hd]))
    have hw : w.kind = v.kind := hkind w (by simp)
    have hws : ∀ d ∈ ws, d.kind = .null ∨ d.kind = w.kind :=
      fun d hd => .inr (by rw [hw, hkind d (by simp [hd])])
    cases hv : v.kind with
    | null => exact absurd hv (h.kind_eq (w := v) (by simp) (by simp)).1
    | single =>
      rw [hv] at hw
      rw [mergeAll_cons, merge_of_single hw, merge_of_single ((kind_mergeAll hws).trans hw)]
    | list =>
      rw [hv] at hw
      have hsingle := kind_ne_single (by simp [hw]) hws
      rw [eq_list_of_kind ((kind_mergeAll hvs).trans hv), mergeAll_list, eq_list_of_kind hw,
        mergeAll_list _ hsingle, merge_list]
      · rfl
      · simpa [hw] using hsingle
    | mapping =>
      apply mergeAll_eq_merge_of_mapping (fun d hd => (hkind d hd).trans hv) hkeyed
      intro key x y hx hy
      apply ih hx hy
      · rw [← under_append]
        exact isKeyed_under hkeyed key
      · rw [← under_append]
        exact h.under key
      · rw [← under_append]
        exact height_under_lt hn key

/-- Documents put together, two groups at a time. -/
inductive Grouping where
  | one (document : Value)
  | both (first second : Grouping)

namespace Grouping

/-- The documents in their order. -/
def documents : Grouping → List Value
  | one document => [document]
  | both first second => first.documents ++ second.documents

/-- The second group of every two merged into the first. -/
def merged : Grouping → Value
  | one document => document
  | both first second => first.merged.merge second.merged

/-- However documents of the same shape are grouped, they merge to the same. -/
theorem merged?_documents (g : Grouping) (hkeyed : ∀ d ∈ g.documents, d.isKeyed = true)
    (h : AreAlike g.documents) : merged? g.documents = some g.merged := by
  induction g with
  | one document => rfl
  | both first second ihFirst ihSecond =>
    have hparts := List.forall_mem_append.1 hkeyed
    have hfirst := ihFirst hparts.1 (h.of_subset (List.subset_append_left _ _))
    have hsecond := ihSecond hparts.2 (h.of_subset (List.subset_append_right _ _))
    rw [documents, merged?_append hfirst, mergeAll_eq_merge hfirst hsecond hkeyed h]
    rfl

end Grouping

/-- Merging any three documents of the same shape is associative. -/
theorem merge_assoc {a b c : Value} (ha : a ∈ docs) (hb : b ∈ docs) (hc : c ∈ docs)
    (hkeyed : ∀ d ∈ docs, d.isKeyed = true) (h : AreAlike docs) :
    merge (merge a b) c = merge a (merge b c) := by
  have hsub : [a] ++ [b, c] ⊆ docs := by simp [ha, hb, hc]
  have hfirst : merged? [a] = some a := rfl
  exact mergeAll_eq_merge hfirst rfl (fun d hd => hkeyed d (hsub hd)) (h.of_subset hsub)

end Grouping

end Dotfiles.Value
