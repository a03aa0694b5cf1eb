import Dotfiles.Proofs.Value.Keys
import Dotfiles.Value.Merge

/-!
Merging documents in closed form. Fields that are merged one after another keep every key
at the place where it comes first, and hold under it what the values of all documents under
that key merge to.
-/

namespace Dotfiles.Value

/-- The kinds of values that merging tells apart. -/
inductive Kind where
  | null
  /-- A value that replaces what it is merged into. -/
  | single
  | list
  | mapping
  deriving DecidableEq

/-- The kind of a value. -/
def kind : Value → Kind
  | .scalar .null => .null
  | .list _ => .list
  | .map _ => .mapping
  | _ => .single

/-- The fields of a mapping. No other value has any. -/
def fields : Value → Fields
  | .map fields => fields
  | _ => []

/-- The items of a list. No other value has any. -/
def items : Value → List Value
  | .list items => items
  | _ => []

/-- What all the given values merge to, the first of them being there at the beginning. -/
def merged? : List Value → Option Value
  | [] => none
  | first :: rest => some (mergeAll first rest)

/-- The fields of several documents together. A key stands where it comes first, with what
all values under it merge to. -/
def combine : List Fields → Fields
  | [] => []
  | first :: rest =>
    first.map (fun f => (f.1, mergeAll f.2 (rest.filterMap (Fields.get? f.1)))) ++
      (combine rest).filter fun f => (Fields.get? f.1 first).isNone

section Kinds

variable {u v : Value} {values : List Value}

theorem eq_list_of_kind (h : v.kind = .list) : v = .list v.items := by
  cases v with
  | list items => rfl
  | scalar s => cases s <;> cases h
  | _ => cases h

theorem eq_map_of_kind (h : v.kind = .mapping) : v = .map v.fields := by
  cases v with
  | map fields => rfl
  | scalar s => cases s <;> cases h
  | _ => cases h

theorem fields_of_kind_ne (h : v.kind ≠ .mapping) : v.fields = [] := by
  cases v with
  | map fields => exact absurd rfl h
  | _ => rfl

theorem merge_of_single (h : v.kind = .single) (u : Value) : merge u v = v := by
  cases v with
  | scalar s =>
    cases s with
    | null => cases h
    | _ => simp [merge]
  | list items => cases h
  | map fields => cases h
  | set members => simp [merge]
  | pair first second => simp [merge]
  | endless => simp [merge]

/-- A value that is not replaced stays what it is, unless it can take the other one in. -/
theorem merge_eq_left (hv : v.kind ≠ .single) (hu : v.kind = .null ∨ u.kind ≠ v.kind) :
    merge u v = u := by
  cases v with
  | scalar s =>
    cases s with
    | null => exact merge_null u
    | _ => exact absurd rfl hv
  | list items =>
    cases u with
    | list others => simp [kind] at hu
    | _ => simp [merge]
  | map fields =>
    cases u with
    | map others => simp [kind] at hu
    | _ => simp [merge]
  | _ => exact absurd rfl hv

/-- Null, or a value of a kind of its own, takes nothing in. -/
theorem mergeAll_eq_left (hu : u.kind = .null ∨ u.kind = .single)
    (h : ∀ v ∈ values, v.kind ≠ .single) : mergeAll u values = u := by
  induction values with
  | nil => rfl
  | cons v rest ih =>
    obtain ⟨hv, hrest⟩ := List.forall_mem_cons.1 h
    have hstep : merge u v = u := by
      apply merge_eq_left hv
      by_cases hn : v.kind = .null
      · exact .inl hn
      · refine .inr fun he => ?_
        rcases hu with hu | hu
        · exact hn (he ▸ hu)
        · exact hv (he ▸ hu)
    rw [mergeAll, List.foldl_cons, hstep]
    exact ih hrest

/-- Of the values of a kind of their own the last one is left. -/
theorem mergeAll_append_cons {before after : List Value} (hv : v.kind = .single)
    (h : ∀ w ∈ after, w.kind ≠ .single) (u : Value) :
    mergeAll u (before ++ v :: after) = v := by
  rw [mergeAll, List.foldl_append, List.foldl_cons, merge_of_single hv]
  exact mergeAll_eq_left (.inr hv) h

theorem merge_list_left (items : List Value) (hv : v.kind ≠ .single) :
    merge (.list items) v = .list (items ++ v.items) := by
  cases v with
  | list others => exact merge_list items others
  | scalar s =>
    cases s with
    | null => simp [Value.items, merge]
    | _ => exact absurd rfl hv
  | map fields => simp [Value.items, merge]
  | _ => exact absurd rfl hv

theorem merge_map_left (fields : Fields) (hv : v.kind ≠ .single) :
    merge (.map fields) v = .map (mergeFields fields v.fields) := by
  cases v with
  | map others => exact merge_map fields others
  | scalar s =>
    cases s with
    | null => simp [Value.fields, merge, mergeFields]
    | _ => exact absurd rfl hv
  | list items => simp [Value.fields, merge, mergeFields]
  | _ => exact absurd rfl hv

theorem mergeAll_list (items : List Value) (h : ∀ v ∈ values, v.kind ≠ .single) :
    mergeAll (.list items) values = .list (items ++ values.flatMap Value.items) := by
  induction values generalizing items with
  | nil => simp [mergeAll]
  | cons v rest ih =>
    obtain ⟨hv, hrest⟩ := List.forall_mem_cons.1 h
    rw [mergeAll, List.foldl_cons, merge_list_left items hv, List.flatMap_cons,
      ← List.append_assoc]
    exact ih _ hrest

theorem mergeAll_map (fields : Fields) (h : ∀ v ∈ values, v.kind ≠ .single) :
    mergeAll (.map fields) values = .map ((values.map Value.fields).foldl mergeFields fields) := by
  induction values generalizing fields with
  | nil => rfl
  | cons v rest ih =>
    obtain ⟨hv, hrest⟩ := List.forall_mem_cons.1 h
    rw [mergeAll, List.foldl_cons, merge_map_left fields hv, List.map_cons, List.foldl_cons]
    exact ih _ hrest

end Kinds

section Fields

open Fields

variable {earlier later : Fields} {key : Scalar}

/-- A value with what later fields have under its key merged into it. -/
def mergedWith (later : Fields) (key : Scalar) (value : Value) : Value :=
  match get? key later with
  | some v => merge value v
  | none => value

theorem mergedWith_cons (key k : Scalar) (value v : Value) (rest : Fields) :
    mergedWith ((k, v) :: rest) key value =
      if k.sameKey key then merge value v else mergedWith rest key value := by
  unfold mergedWith
  rw [get?]
  cases k.sameKey key <;> rfl

theorem mergedWith_of_none {value : Value} (h : get? key later = none) :
    mergedWith later key value = value := by
  rw [mergedWith, h]

theorem insert_eq_map (h : HasDistinctKeys earlier) {old : Value}
    (hk : get? key earlier = some old) (change : Value → Value) :
    Fields.insert key (change old) earlier =
      earlier.map fun f => (f.1, if f.1.sameKey key then change f.2 else f.2) := by
  induction earlier with
  | nil => cases hk
  | cons field rest ih =>
    obtain ⟨hfield, hrest⟩ := List.pairwise_cons.1 h
    rw [get?] at hk
    rw [Fields.insert, List.map_cons]
    split
    · rename_i hs
      rw [if_pos hs] at hk
      cases hk
      congr 1
      -- no other field has the same key
      refine (List.map_id' rest).symm.trans (List.map_congr_left fun f hf => ?_)
      have hne := hfield f hf
      rw [Scalar.sameKey_congr hs, Scalar.sameKey_comm] at hne
      simp [hne]
    · rename_i hs
      rw [if_neg hs] at hk
      rw [ih hrest hk]

/-- Merged fields are the earlier ones, with what the later ones hold under the same keys
merged into them, and then those of the later ones that are new. -/
theorem mergeFields_eq (he : HasDistinctKeys earlier) (hl : HasDistinctKeys later) :
    mergeFields earlier later =
      earlier.map (fun f => (f.1, mergedWith later f.1 f.2)) ++
        later.filter fun f => (get? f.1 earlier).isNone := by
  induction later generalizing earlier with
  | nil => simp [mergeFields, mergedWith, get?]
  | cons field rest ih =>
    obtain ⟨key, value⟩ := field
    obtain ⟨hfield, hrest⟩ := List.pairwise_cons.1 hl
    have hnew : get? key rest = none := by
      apply get?_eq_none_iff.2
      intro f hf
      rw [Scalar.sameKey_comm]
      exact hfield f hf
    rw [mergeFields]
    cases hk : get? key earlier with
    | some old =>
      have hkeys : (earlier.map fun f => (f.1, if f.1.sameKey key then merge f.2 value else f.2)).map
          (·.1) = earlier.map (·.1) := by simp [Function.comp_def]
      simp only
      rw [insert_eq_map he hk fun v => merge v value, ih _ hrest, List.map_map,
        List.filter_cons_of_neg (by simp [hk])]
      · congr 1
        · apply List.map_congr_left
          intro f _
          rw [mergedWith_cons, Scalar.sameKey_comm key, Function.comp_apply]
          split
          · rename_i hs
            rw [mergedWith_of_none (by rw [get?_congr hs, hnew])]
          · rfl
        · apply List.filter_congr
          intro f _
          rw [isNone_get?, isNone_get?, hkeys]
      · rw [hasDistinctKeys_iff, hkeys]
        exact hasDistinctKeys_iff.1 he
    | none =>
      have hfree := get?_eq_none_iff.1 hk
      simp only
      rw [ih _ hrest, List.map_append, List.filter_cons_of_pos (by simp [hk]),
        List.append_assoc]
      · congr 1
        · apply List.map_congr_left
          intro f hf
          rw [mergedWith_cons, Scalar.sameKey_comm key, hfree f hf]
          rfl
        · rw [List.map_singleton, mergedWith_of_none hnew, List.singleton_append]
          congr 1
          apply List.filter_congr
          intro f hf
          rw [get?_append, get?, hfield f hf]
          cases get? f.1 earlier <;> simp [get?]
      · refine List.pairwise_append.2 ⟨he, List.pairwise_singleton _ _, ?_⟩
        intro f hf g hg
        cases List.mem_singleton.1 hg
        exact hfree f hf

theorem map_fst_mergeFields (he : HasDistinctKeys earlier) (hl : HasDistinctKeys later) :
    (mergeFields earlier later).map (·.1) = earlier.map (·.1) ++
      (later.map (·.1)).filter fun k => (get? k earlier).isNone := by
  rw [mergeFields_eq he hl, List.map_append, List.map_map, List.filter_map]
  rfl

theorem hasDistinctKeys_mergeFields (he : HasDistinctKeys earlier) (hl : HasDistinctKeys later) :
    HasDistinctKeys (mergeFields earlier later) := by
  rw [hasDistinctKeys_iff, map_fst_mergeFields he hl, List.pairwise_append]
  refine ⟨hasDistinctKeys_iff.1 he, (hasDistinctKeys_iff.1 hl).filter _, ?_⟩
  intro k hk l hm
  obtain ⟨f, hf, rfl⟩ := List.mem_map.1 hk
  have hfree := (List.mem_filter.1 hm).2
  rw [Option.isNone_iff_eq_none, get?_eq_none_iff] at hfree
  exact hfree f hf

theorem get?_mergeFields (hl : HasDistinctKeys later) (key : Scalar) (earlier : Fields) :
    get? key (mergeFields earlier later) =
      Option.merge merge (get? key earlier) (get? key later) := by
  induction later generalizing earlier with
  | nil => cases h : get? key earlier <;> simp [mergeFields, get?, h]
  | cons field rest ih =>
    obtain ⟨k, value⟩ := field
    obtain ⟨hfield, hrest⟩ := List.pairwise_cons.1 hl
    have hnew : k.sameKey key = true → get? key rest = none := by
      intro hk
      apply get?_eq_none_iff.2
      intro f hf
      rw [Scalar.sameKey_comm, ← Scalar.sameKey_congr hk]
      exact hfield f hf
    rw [mergeFields, get?]
    cases hk : k.sameKey key with
    | true =>
      cases ho : get? k earlier with
      | some old =>
        simp only
        rw [ih hrest, get?_insert, hk, hnew hk, ← get?_congr hk, ho]
        rfl
      | none =>
        simp only
        rw [ih hrest, get?_append, get?, hk, hnew hk, ← get?_congr hk, ho]
        rfl
    | false =>
      cases get? k earlier with
      | some old =>
        simp only
        rw [ih hrest, get?_insert, hk]
        rfl
      | none =>
        simp only
        rw [ih hrest, get?_append, get?, hk]
        cases get? key earlier <;> rfl

end Fields

section Combining

open Fields

variable {first : Fields} {rest : List Fields}

theorem mergeAll_cons (u v : Value) (values : List Value) :
    mergeAll u (v :: values) = mergeAll (merge u v) values := rfl

/-- A value takes in what one document has under its key, and then what the further ones
have. -/
theorem mergeAll_mergedWith (key : Scalar) (value : Value) (next : Fields) :
    mergeAll (mergedWith next key value) (rest.filterMap (get? key)) =
      mergeAll value ((next :: rest).filterMap (get? key)) := by
  rw [List.filterMap_cons, mergedWith]
  cases get? key next with
  | none => rfl
  | some v => rw [mergeAll_cons]

theorem foldl_mergeFields (hf : HasDistinctKeys first) (hr : ∀ d ∈ rest, HasDistinctKeys d) :
    rest.foldl mergeFields first = combine (first :: rest) := by
  induction rest generalizing first with
  | nil => simp [combine, mergeAll]
  | cons next more ih =>
    obtain ⟨hnext, hmore⟩ := List.forall_mem_cons.1 hr
    rw [List.foldl_cons, ih (hasDistinctKeys_mergeFields hf hnext) hmore, combine, combine,
      combine, mergeFields_eq hf hnext, List.map_append, List.map_map, List.append_assoc,
      List.filter_append, List.filter_map, List.filter_filter, ← mergeFields_eq hf hnext]
    congr 1
    · apply List.map_congr_left
      intro f _
      simp only [Function.comp_apply, mergeAll_mergedWith]
    · congr 1
      apply List.filter_congr
      intro f _
      -- a key is new to both documents together if it is new to each of them
      rw [get?_mergeFields hnext]
      cases get? f.1 first <;> cases get? f.1 next <;> rfl

theorem mergeAll_filterMap_congr {key k : Scalar} (h : k.sameKey key = true) :
    (fun value => mergeAll value (rest.filterMap (get? k))) =
      fun value => mergeAll value (rest.filterMap (get? key)) := by
  funext value
  congr 2
  funext d
  exact get?_congr h d

theorem get?_combine (key : Scalar) (docs : List Fields) :
    get? key (combine docs) = merged? (docs.filterMap (get? key)) := by
  induction docs with
  | nil => rfl
  | cons first rest ih =>
    rw [combine, get?_append, get?_map fun k hk => mergeAll_filterMap_congr hk,
      get?_filter_free, ih, List.filterMap_cons]
    cases get? key first with
    | none => rfl
    | some value => simp [merged?]

/-- Documents combined with further ones are those, combined, with what the further ones have
under the same keys merged in, and then what is new in the further ones. -/
theorem combine_append (docs more : List Fields) :
    combine (docs ++ more) =
      (combine docs).map (fun f => (f.1, mergeAll f.2 (more.filterMap (get? f.1)))) ++
        (combine more).filter fun f => (get? f.1 (combine docs)).isNone := by
  induction docs with
  | nil => simp [combine, get?]
  | cons first rest ih =>
    rw [List.cons_append, combine, combine, ih, List.map_append, List.map_map,
      List.filter_append, List.filter_map, List.filter_filter, List.append_assoc]
    congr 1
    · apply List.map_congr_left
      intro f _
      rw [Function.comp_apply, List.filterMap_append, mergeAll, List.foldl_append]
      rfl
    · congr 1
      apply List.filter_congr
      intro f _
      rw [← combine, get?_combine, get?_combine, List.filterMap_cons]
      cases get? f.1 first <;> simp [merged?]

theorem filter_eraseDupsBy (keep : Scalar → Bool)
    (hkeep : ∀ a b : Scalar, a.sameKey b = true → keep a = keep b) (keys : List Scalar) :
    (keys.eraseDupsBy Scalar.sameKey).filter keep =
      (keys.filter keep).eraseDupsBy Scalar.sameKey := by
  match keys with
  | [] => rfl
  | k :: more =>
    rw [List.eraseDupsBy_cons, List.filter_cons, filter_eraseDupsBy keep hkeep _,
      List.filter_filter]
    by_cases hk : keep k = true
    · rw [if_pos hk, List.filter_cons_of_pos hk, List.eraseDupsBy_cons, List.filter_filter]
      simp only [Bool.and_comm]
    · rw [if_neg hk, List.filter_cons_of_neg hk]
      congr 1
      apply List.filter_congr
      intro b _
      -- what is the same key as the first one is not kept either
      cases hb : b.sameKey k with
      | true => simp [hkeep b k hb, hk]
      | false => simp
termination_by keys.length
decreasing_by exact Nat.lt_succ_of_le (List.length_filter_le _ _)

theorem eraseDupsBy_append {keys : List Scalar}
    (h : keys.Pairwise fun a b => a.sameKey b = false) (more : List Scalar) :
    (keys ++ more).eraseDupsBy Scalar.sameKey =
      keys ++ (more.filter fun k => keys.all fun b => !b.sameKey k).eraseDupsBy
        Scalar.sameKey := by
  induction keys generalizing more with
  | nil => simp
  | cons k rest ih =>
    obtain ⟨hk, hrest⟩ := List.pairwise_cons.1 h
    have hself : (rest.filter fun b => decide (b.sameKey k = false)) = rest :=
      List.filter_eq_self.2 fun b hb => by rw [Scalar.sameKey_comm, hk b hb]; rfl
    rw [List.cons_append, List.eraseDupsBy_cons, List.filter_append, hself, ih hrest,
      List.filter_filter, List.cons_append]
    congr 3
    apply List.filter_congr
    intro b _
    rw [List.all_cons, Scalar.sameKey_comm b, Bool.and_comm]
    cases k.sameKey b <;> rfl

/-- The keys of combined documents are those of all documents, in the order in which they
come first. -/
theorem map_fst_combine {docs : List Fields} (h : ∀ d ∈ docs, HasDistinctKeys d) :
    (combine docs).map (·.1) =
      (docs.flatMap fun d => d.map (·.1)).eraseDupsBy Scalar.sameKey := by
  induction docs with
  | nil => rfl
  | cons first rest ih =>
    obtain ⟨hfirst, hrest⟩ := List.forall_mem_cons.1 h
    have hkeep : ∀ a b : Scalar, a.sameKey b = true →
        (get? a first).isNone = (get? b first).isNone := by
      intro a b hab
      rw [get?_congr hab]
    have hnew : (fun f : Scalar × Value => (get? f.1 first).isNone) =
        (fun k => (get? k first).isNone) ∘ (·.1) := rfl
    have hfree : (fun k => (get? k first).isNone) =
        fun k => (first.map (·.1)).all fun b => !b.sameKey k := by
      funext k
      rw [isNone_get?]
    rw [combine, List.map_append, List.map_map, hnew, ← List.filter_map, ih hrest,
      filter_eraseDupsBy _ hkeep, List.flatMap_cons,
      eraseDupsBy_append (hasDistinctKeys_iff.1 hfirst), hfree]
    rfl

theorem hasDistinctKeys_combine {docs : List Fields} (h : ∀ d ∈ docs, HasDistinctKeys d) :
    HasDistinctKeys (combine docs) := by
  induction docs with
  | nil => exact .nil
  | cons first rest ih =>
    obtain ⟨hfirst, hrest⟩ := List.forall_mem_cons.1 h
    rw [hasDistinctKeys_iff, combine, List.map_append, List.map_map, List.pairwise_append]
    refine ⟨hasDistinctKeys_iff.1 hfirst, ?_, ?_⟩
    · exact hasDistinctKeys_iff.1 ((ih hrest).filter _)
    · intro k hk l hl
      obtain ⟨f, hf, rfl⟩ := List.mem_map.1 hk
      obtain ⟨g, hg, rfl⟩ := List.mem_map.1 hl
      have hfree := (List.mem_filter.1 hg).2
      rw [Option.isNone_iff_eq_none, get?_eq_none_iff] at hfree
      exact hfree f hf

/-- Combined documents are merged to all of them combined, if merging may be regrouped like
that under every key. -/
theorem mergeFields_combine {docs more : List Fields} (hdocs : ∀ d ∈ docs, HasDistinctKeys d)
    (hmore : ∀ d ∈ more, HasDistinctKeys d)
    (h : ∀ key x y, merged? (docs.filterMap (get? key)) = some x →
      merged? (more.filterMap (get? key)) = some y →
      mergeAll x (more.filterMap (get? key)) = merge x y) :
    mergeFields (combine docs) (combine more) = combine (docs ++ more) := by
  have hdistinct := hasDistinctKeys_combine hdocs
  rw [mergeFields_eq hdistinct (hasDistinctKeys_combine hmore), combine_append]
  congr 1
  apply List.map_congr_left
  intro f hf
  congr 1
  rw [mergedWith, get?_combine]
  cases hfound : merged? (more.filterMap (get? f.1)) with
  | none =>
    cases hvalues : more.filterMap (get? f.1) with
    | nil => rfl
    | cons first rest =>
      rw [hvalues] at hfound
      cases hfound
  | some y =>
    have hself : f.1.sameKey f.1 = true := by
      rw [← get?_combine] at hfound
      exact sameKey_self_of_get? hfound
    have hx := get?_of_mem hdistinct hf hself
    rw [get?_combine] at hx
    exact (h f.1 f.2 y hx hfound).symm

end Combining

end Dotfiles.Value
