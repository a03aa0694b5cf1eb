import Dotfiles.Proofs.Profile.Resolving

/-!
Which node stops a tree from resolving: the first one, in the order in which nodes are visited,
that has children although it is a link or a template which is not expanded. A node is visited
before the nodes below it, and what makes it refuse its children may be declared far above it.
-/

namespace Dotfiles.ProfileTree

open Dotfiles.Path

/-- The method of the nearest node at or above a place that declares one. -/
def methodAt (tree : ProfileTree) (place : List Name) : Option Method :=
  (nearest? (·.method) tree place).map (·.1)

/-- Whether directories are expanded, by the nearest node at or above a place that says so. -/
def recursionAt (tree : ProfileTree) (place : List Name) : Option Bool :=
  (nearest? (·.recursive) tree place).map (·.1)

/-- Whether the node at a place has a child that it must not have, being a link or a template
that is not expanded. -/
def HasUnexpectedChildren (tree : ProfileTree) (place : List Name) : Prop :=
  tree.keysAt place ≠ [] ∧
    (methodAt tree place = some .link ∨ methodAt tree place = some .template) ∧
    recursionAt tree place ≠ some true

instance (tree : ProfileTree) (place : List Name) : Decidable (HasUnexpectedChildren tree place) :=
  inferInstanceAs (Decidable (_ ∧ _ ∧ _))

/-- The places of all nodes. Each comes before the places below it, and children come in their
order. -/
def places (tree : ProfileTree) : List (List Text) := (outline tree).map (·.1)

section Visiting

variable {own parent : Attributes} {children siblings : List (Text × ProfileTree)} {name : Name}

theorem hasUnexpectedChildren_iff (tree : ProfileTree) (place : List Name) :
    HasUnexpectedChildren tree place ↔ tree.keysAt place ≠ [] ∧ isSealedAt tree place = true := by
  simp [HasUnexpectedChildren, isSealedAt, isSealed, methodAt, recursionAt]

theorem hasUnexpectedChildren_nil : HasUnexpectedChildren (.node own children) [] ↔
    (isSealed own && !children.isEmpty) = true := by
  rw [hasUnexpectedChildren_iff, isSealedAt_nil]
  simp [keysAt, at?, ProfileTree.children, and_comm]

/-- A child that has taken over what its parent declares refuses children as the node at its
place. -/
theorem hasUnexpectedChildren_inherit {source : Option Path}
    (hc : childOf name siblings = some (.node own children)) (rest : List Name) :
    HasUnexpectedChildren (.node (inherit parent own source) children) rest ↔
      HasUnexpectedChildren (.node parent siblings) (name :: rest) := by
  have hkeys : (ProfileTree.node (inherit parent own source) children).keysAt rest =
      (ProfileTree.node parent siblings).keysAt (name :: rest) := by
    rw [keysAt, keysAt, at?_cons, hc, Option.bind_some]
    cases rest <;> rfl
  rw [hasUnexpectedChildren_iff, hasUnexpectedChildren_iff, isSealedAt_inherit hc, hkeys]

theorem map_fst_outlineBelow_cons (name : Name) (child : ProfileTree)
    (rest : List (Text × ProfileTree)) : (outlineBelow ((name, child) :: rest)).map (·.1) =
      (places child).map (name :: ·) ++ (outlineBelow rest).map (·.1) := by
  rw [outlineBelow, List.map_append, map_fst_under]
  rfl

/-- The first of some places at which a tree has children that it must not have. -/
def firstUnexpected? (tree : ProfileTree) (places : List (List Name)) : Option (List Name) :=
  places.find? fun place => HasUnexpectedChildren tree place

theorem firstUnexpected?_eq_some_iff {tree : ProfileTree} {places : List (List Name)}
    {place : List Name} : firstUnexpected? tree places = some place ↔
      ∃ before after, places = before ++ place :: after ∧
        (∀ other ∈ before, ¬ HasUnexpectedChildren tree other) ∧
        HasUnexpectedChildren tree place := by
  simp only [firstUnexpected?, List.find?_eq_some_iff_append, decide_eq_true_eq,
    Bool.not_eq_true', decide_eq_false_iff_not]
  constructor
  · rintro ⟨hplace, before, after, hsplit, hbefore⟩
    exact ⟨before, after, hsplit, hbefore, hplace⟩
  · rintro ⟨before, after, hsplit, hbefore, hplace⟩
    exact ⟨hplace, before, after, hsplit, hbefore⟩

theorem firstUnexpected?_cons (tree : ProfileTree) (place : List Name) (rest : List (List Name)) :
    firstUnexpected? tree (place :: rest) =
      if HasUnexpectedChildren tree place then some place else firstUnexpected? tree rest := by
  rw [firstUnexpected?, List.find?_cons]
  by_cases h : HasUnexpectedChildren tree place <;> simp [h, firstUnexpected?]

theorem firstUnexpected?_append (tree : ProfileTree) (first second : List (List Name)) :
    firstUnexpected? tree (first ++ second) =
      (firstUnexpected? tree first).or (firstUnexpected? tree second) :=
  List.find?_append

/-- Below a child it is sought as below the node at its place. -/
theorem firstUnexpected?_map_cons (source : Option Path)
    (hc : childOf name siblings = some (.node own children)) (places : List (List Name)) :
    firstUnexpected? (.node parent siblings) (places.map (name :: ·)) =
      (firstUnexpected? (.node (inherit parent own source) children) places).map (name :: ·) := by
  rw [firstUnexpected?, List.find?_map, firstUnexpected?]
  congr 2
  funext place
  exact decide_eq_decide.2 (hasUnexpectedChildren_inherit hc place).symm

mutual

/-- A node fails to resolve at the first place at or below it with children that it must not
have. -/
theorem failure?_resolveAt (parent : Attributes) (above : List Name) (source : Option Path) :
    ∀ {tree : ProfileTree}, IsKeyed IsPlain tree → (∀ name ∈ above, IsPlain name) →
      (resolveAt parent (ofSegments above) source tree).outcome.failure? =
        (firstUnexpected? (.node (inherit parent tree.attributes source) tree.children)
          (places tree)).map fun place => .unexpectedChildren (ofSegments (above ++ place))
  | .node own children, ht, habove => by
    have hchildren := failure?_resolveChildren (inherit parent own source) above
      (fun c hc => ⟨(childOf_eq_some_iff ht.distinct).2 hc, ht.child hc⟩) habove
    rw [outcome_resolveAt]
    show _ = (firstUnexpected? (.node (inherit parent own source) children)
      ([] :: (outlineBelow children).map (·.1))).map _
    rw [firstUnexpected?_cons]
    by_cases hroot : (isSealed (inherit parent own source) && !children.isEmpty) = true
    · rw [if_pos hroot, if_pos (hasUnexpectedChildren_nil.2 hroot), Option.map_some,
        List.append_nil]
      rfl
    · rw [if_neg hroot, if_neg (mt hasUnexpectedChildren_nil.1 hroot), Except.failure?_map,
        hchildren]

theorem failure?_resolveChildren (settled : Attributes) (above : List Name)
    {siblings : List (Text × ProfileTree)} :
    ∀ {children : List (Text × ProfileTree)},
      (∀ c ∈ children, childOf c.1 siblings = some c.2 ∧ IsPlain c.1 ∧ IsKeyed IsPlain c.2) →
      (∀ name ∈ above, IsPlain name) →
      (resolveChildren settled (ofSegments above) children).outcome.failure? =
        (firstUnexpected? (.node settled siblings) ((outlineBelow children).map (·.1))).map
          fun place => .unexpectedChildren (ofSegments (above ++ place))
  | [], _, _ => rfl
  | (name, .node own below) :: rest, hmem, habove => by
    obtain ⟨hc, hname, hkeyed⟩ := hmem (name, .node own below) (by simp)
    have hsingle : ∀ n ∈ [name], IsPlain n := by simpa using hname
    obtain ⟨source, hcons⟩ := outcome_resolveChildren_cons settled (ofSegments above) name
      (.node own below) rest
    have hplace := join_ofSegments_name habove hname
    have hfirst := failure?_resolveAt settled (above ++ [name]) source hkeyed
      (isPlain_append habove hsingle)
    have hrest := failure?_resolveChildren settled above
      (fun c hm => hmem c (List.mem_cons_of_mem _ hm)) habove
    rw [hcons, Except.failure?_both, hplace, hfirst, hrest, map_fst_outlineBelow_cons,
      firstUnexpected?_append, firstUnexpected?_map_cons source hc, Option.map_or,
      Option.map_map]
    simp only [List.append_assoc, List.singleton_append, Function.comp_def]
    rfl

end

end Visiting

section Settling

variable {own parent : Attributes} {children siblings : List (Text × ProfileTree)} {name : Name}

/-- Whether an entry is that of a place, as far as its target, its method and its recursion go. -/
structure IsEntryAt (e : Entry) (tree : ProfileTree) (above place : List Name) : Prop where
  target : e.target = ofSegments (above ++ place)
  method : e.method = (methodAt tree place).getD .copy
  recursive : e.recursive = (recursionAt tree place).getD false

/-- The entry of a child is that of its place. -/
theorem IsEntryAt.of_child {e : Entry} {above rest : List Name} {source : Option Path}
    (hc : childOf name siblings = some (.node own children))
    (h : IsEntryAt e (.node (inherit parent own source) children) (above ++ [name]) rest) :
    IsEntryAt e (.node parent siblings) above (name :: rest) := by
  have hmethod := map_nearest?_inherit (·.method) (·.1) (inherit parent own source) parent hc
    (fun rest => by simp [inherit, Option.map_or]) rest
  have hrecursive := map_nearest?_inherit (·.recursive) (·.1) (inherit parent own source) parent hc
    (fun rest => by simp [inherit, Option.map_or]) rest
  refine ⟨?_, ?_, ?_⟩
  · rw [h.target, List.append_assoc]
    rfl
  · rw [h.method, methodAt, methodAt, hmethod]
  · rw [h.recursive, recursionAt, recursionAt, hrecursive]

theorem isEntryAt_of_entryOf? {settled : Attributes} {above : List Name} {e : Entry}
    (h : entryOf? (ofSegments above) settled = some e) :
    IsEntryAt e (.node settled children) above [] := by
  obtain ⟨source, _, rfl⟩ := Option.map_eq_some_iff.1 h
  refine ⟨?_, ?_, ?_⟩
  · rw [List.append_nil]
  · simp [methodAt, nearest?_nil, Function.comp_def]
  · simp [recursionAt, nearest?_nil, Function.comp_def]

mutual

/-- Every entry is that of a node. -/
theorem exists_isEntryAt_resolveAt {parent : Attributes} (above : List Name)
    {source : Option Path} : ∀ {tree : ProfileTree} {entries : List Entry},
      IsKeyed IsPlain tree → (∀ name ∈ above, IsPlain name) →
      (resolveAt parent (ofSegments above) source tree).outcome = .ok entries →
      ∀ e ∈ entries, ∃ place ∈ places tree,
        IsEntryAt e (.node (inherit parent tree.attributes source) tree.children) above place
  | .node own children, entries, ht, habove, h => by
    obtain ⟨below, hbelow, rfl⟩ := resolveAt_eq_ok h
    have hchildren := exists_isEntryAt_resolveChildren above
      (fun c hc => ⟨(childOf_eq_some_iff ht.distinct).2 hc, ht.child hc⟩) habove hbelow
    intro e he
    rcases List.mem_append.1 he with he | he
    · obtain ⟨place, hplace, hat⟩ := hchildren e he
      exact ⟨place, List.mem_cons_of_mem _ hplace, hat⟩
    · exact ⟨[], List.mem_cons_self, isEntryAt_of_entryOf? (Option.mem_toList.1 he)⟩

theorem exists_isEntryAt_resolveChildren {settled : Attributes} (above : List Name)
    {siblings : List (Text × ProfileTree)} :
    ∀ {children : List (Text × ProfileTree)} {entries : List Entry},
      (∀ c ∈ children, childOf c.1 siblings = some c.2 ∧ IsPlain c.1 ∧ IsKeyed IsPlain c.2) →
      (∀ name ∈ above, IsPlain name) →
      (resolveChildren settled (ofSegments above) children).outcome = .ok entries →
      ∀ e ∈ entries, ∃ place ∈ (outlineBelow children).map (·.1),
        IsEntryAt e (.node settled siblings) above place
  | [], entries, _, _, h => by
    cases h
    simp
  | (name, .node own below) :: rest, entries, hmem, habove, h => by
    obtain ⟨source, first, others, _, hfirst, hothers, rfl⟩ := resolveChildren_cons_eq_ok h
    obtain ⟨hc, hname, hkeyed⟩ := hmem (name, .node own below) (by simp)
    have hsingle : ∀ n ∈ [name], IsPlain n := by simpa using hname
    have hplace := join_ofSegments_name habove hname
    rw [hplace] at hfirst
    have hbelow := exists_isEntryAt_resolveAt _ hkeyed (isPlain_append habove hsingle) hfirst
    have hrest := exists_isEntryAt_resolveChildren above
      (fun c hm => hmem c (List.mem_cons_of_mem _ hm)) habove hothers
    rw [map_fst_outlineBelow_cons]
    intro e he
    rcases List.mem_append.1 he with he | he
    · obtain ⟨place, hm, hat⟩ := hbelow e he
      exact ⟨name :: place, List.mem_append_left _ (List.mem_map_of_mem hm), hat.of_child hc⟩
    · obtain ⟨place, hm, hat⟩ := hrest e he
      exact ⟨place, List.mem_append_right _ hm, hat⟩

end

end Settling

section Trees

variable {tree : ProfileTree} {place : List Name}

theorem mem_places_iff (hk : IsKeyed IsPlain tree) :
    place ∈ places tree ↔ (tree.attributesAt? place).isSome = true := by
  rw [Option.isSome_iff_exists, places, List.mem_map]
  constructor
  · rintro ⟨⟨_, a⟩, hm, rfl⟩
    exact ⟨a, (mem_outline_iff hk _ _).1 hm⟩
  · rintro ⟨a, ha⟩
    exact ⟨(place, a), (mem_outline_iff hk place a).2 ha, rfl⟩

/-- Above a node there is a node. -/
theorem isSome_attributesAt?_of_append (more : List Name)
    (h : (tree.attributesAt? (place ++ more)).isSome = true) :
    (tree.attributesAt? place).isSome = true := by
  induction place generalizing tree with
  | nil =>
    obtain ⟨own, children⟩ := tree
    rfl
  | cons name rest ih =>
    obtain ⟨own, children⟩ := tree
    rw [List.cons_append, attributesAt?_cons] at h
    rw [attributesAt?_cons]
    cases hc : childOf name children with
    | none =>
      rw [hc] at h
      cases h
    | some child =>
      rw [hc, Option.bind_some] at h
      exact ih h

theorem HasUnexpectedChildren.mem_places (hk : IsKeyed IsPlain tree)
    (h : HasUnexpectedChildren tree place) : place ∈ places tree := by
  obtain ⟨key, hkey⟩ := List.exists_mem_of_ne_nil _ h.1
  exact (mem_places_iff hk).2 (isSome_attributesAt?_of_append _ ((mem_keysAt_iff tree place key).1 hkey))

theorem isSome_firstUnexpected?_iff (hk : IsKeyed IsPlain tree) :
    (firstUnexpected? tree (places tree)).isSome = true ↔
      ∃ place, HasUnexpectedChildren tree place := by
  rw [firstUnexpected?, List.find?_isSome]
  constructor
  · rintro ⟨place, _, h⟩
    exact ⟨place, of_decide_eq_true h⟩
  · rintro ⟨place, h⟩
    exact ⟨place, h.mem_places hk, decide_eq_true h⟩

/-- A node with another one below it has children. -/
theorem keysAt_ne_nil {name : Name} {more : List Name}
    (h : (tree.attributesAt? (place ++ name :: more)).isSome = true) :
    tree.keysAt place ≠ [] := by
  have hchild : (tree.attributesAt? (place ++ [name])).isSome = true := by
    refine isSome_attributesAt?_of_append more ?_
    rwa [List.append_assoc]
  exact List.ne_nil_of_mem ((mem_keysAt_iff tree place name).2 hchild)

end Trees

end Dotfiles.ProfileTree

namespace Dotfiles.Profile

open Dotfiles.Path ProfileTree

variable {drives : Bool} {document : Value} {profile : Profile} {entries : List Entry}

/-- The root takes over nothing. -/
theorem hasUnexpectedChildren_root (tree : ProfileTree) (source : Option Path)
    (place : List Name) :
    HasUnexpectedChildren (.node (inherit .empty tree.attributes source) tree.children) place ↔
      HasUnexpectedChildren tree place := by
  obtain ⟨own, children⟩ := tree
  have hsealed : isSealedAt (.node (inherit .empty own source) children) place =
      isSealedAt (.node own children) place :=
    isSealedAt_congr Option.or_none Option.or_none place
  have hkeys : (ProfileTree.node (inherit .empty own source) children).keysAt place =
      (ProfileTree.node own children).keysAt place := by
    cases place <;> rfl
  rw [hasUnexpectedChildren_iff, hasUnexpectedChildren_iff]
  show (ProfileTree.node (inherit .empty own source) children).keysAt place ≠ [] ∧
    isSealedAt (.node (inherit .empty own source) children) place = true ↔ _
  rw [hsealed, hkeys]

/-- A profile fails to resolve at the first node with children that it must not have. -/
theorem failure?_entries (hk : IsKeyed IsPlain profile.declarations.byComponent) :
    profile.entries.outcome.failure? =
      (firstUnexpected? profile.declarations.byComponent
        (places profile.declarations.byComponent)).map
          fun place => .unexpectedChildren (ofSegments place) := by
  have hroot := failure?_resolveAt .empty []
    profile.declarations.byComponent.attributes.source hk (by simp)
  have hsame : firstUnexpected? (.node (inherit .empty
      profile.declarations.byComponent.attributes
      profile.declarations.byComponent.attributes.source)
      profile.declarations.byComponent.children) =
      firstUnexpected? profile.declarations.byComponent := by
    funext places
    rw [firstUnexpected?, firstUnexpected?]
    congr 1
    funext place
    exact decide_eq_decide.2 (hasUnexpectedChildren_root _ _ place)
  rw [outcome_entries, Except.failure?_map]
  rw [hsame] at hroot
  exact hroot

theorem exists_isEntryAt (hk : IsKeyed IsPlain profile.declarations.byComponent)
    (h : profile.entries.outcome = .ok entries) {e : Entry} (he : e ∈ entries) :
    ∃ place ∈ places profile.declarations.byComponent,
      IsEntryAt e profile.declarations.byComponent [] place := by
  rw [outcome_entries] at h
  obtain ⟨found, hfound, rfl⟩ := Except.map_eq_ok_iff.1 h
  obtain ⟨place, hplace, hat⟩ := exists_isEntryAt_resolveAt [] hk (by simp) hfound e
    ((mem_sortOn _).1 he)
  refine ⟨place, hplace, ?_⟩
  generalize profile.declarations.byComponent = tree at hat
  obtain ⟨own, children⟩ := tree
  refine ⟨hat.target, ?_, ?_⟩
  · rw [hat.method, methodAt, methodAt, nearest?_congr (b := own) Option.or_none]
    rfl
  · rw [hat.recursive, recursionAt, recursionAt, nearest?_congr (b := own) Option.or_none]
    rfl

/-- An entry above another one is a copy or is expanded, unless its node has children that it must
not have. -/
theorem copy_or_recursive {tree : ProfileTree} (hk : IsKeyed IsPlain tree) {a b : Entry}
    {above below : List Name} (ha : IsEntryAt a tree [] above) (hb : IsEntryAt b tree [] below)
    (hplace : above ∈ places tree) (hplace' : below ∈ places tree)
    (hpath : components a.target <+: components b.target) (hne : a.target ≠ b.target)
    (hexpected : ¬ HasUnexpectedChildren tree above) : a.method = .copy ∨ a.recursive = true := by
  rw [mem_places_iff hk] at hplace hplace'
  rw [ha.target, hb.target, List.nil_append, List.nil_append] at hpath hne
  rw [components_ofSegments_plain (hk.of_isSome above hplace),
    components_ofSegments_plain (hk.of_isSome below hplace')] at hpath
  obtain ⟨more, rfl⟩ := hpath
  cases more with
  | nil => exact absurd (by rw [List.append_nil]) hne
  | cons name rest =>
    have hkeys := keysAt_ne_nil hplace'
    rw [ha.method, ha.recursive]
    rw [HasUnexpectedChildren, not_and_or, not_and_or, not_not, not_not] at hexpected
    rcases hexpected with hnone | hmethod | hrecursive
    · exact absurd hnone hkeys
    · left
      rcases hm : methodAt tree above with _ | _ | _ | _ <;> simp_all
    · right
      rw [hrecursive]
      rfl

/-- Unexpected children are what stops a profile, and nothing else about the tree: there is such a
failure just if some node has children although it is a link or a template which is not expanded,
and it names the first of these nodes. So in what a profile resolves to, an entry above another
one is a copy or is expanded. -/
theorem unexpectedChildren_iff (hread : (Profile.read drives document).outcome = .ok profile)
    (hfree : ∀ d ∈ Declaration.written document, ∀ key ∈ d.1,
      ∀ name ∈ components key, ¬ IsDotLine name) :
    ((∃ target, profile.entries.outcome = .error (.unexpectedChildren target)) ↔
      ∃ place, HasUnexpectedChildren profile.declarations.byComponent place) ∧
    (∀ target, profile.entries.outcome = .error (.unexpectedChildren target) ↔
      ∃ before place after,
        places profile.declarations.byComponent = before ++ place :: after ∧
        (∀ other ∈ before, ¬ HasUnexpectedChildren profile.declarations.byComponent other) ∧
        HasUnexpectedChildren profile.declarations.byComponent place ∧
        target = ofSegments place) ∧
    ∀ entries, profile.entries.outcome = .ok entries → ∀ a ∈ entries, ∀ b ∈ entries,
      components a.target <+: components b.target → a.target ≠ b.target →
        a.method = .copy ∨ a.recursive = true := by
  have hk := Profile.isKeyed_plain hread hfree
  have hfailure := failure?_entries hk
  have hfirst : ∀ target, profile.entries.outcome = .error (.unexpectedChildren target) ↔
      ∃ place, firstUnexpected? profile.declarations.byComponent
        (places profile.declarations.byComponent) = some place ∧ target = ofSegments place := by
    intro target
    rw [← Except.failure?_eq_some_iff, hfailure, Option.map_eq_some_iff]
    simp [eq_comm]
  have hsome := isSome_firstUnexpected?_iff hk
  refine ⟨?_, ?_, ?_⟩
  · rw [← hsome, Option.isSome_iff_exists, exists_congr hfirst]
    constructor
    · rintro ⟨_, place, hplace, _⟩
      exact ⟨place, hplace⟩
    · rintro ⟨place, hplace⟩
      exact ⟨_, place, hplace, rfl⟩
  · intro target
    rw [hfirst]
    simp only [firstUnexpected?_eq_some_iff]
    constructor
    · rintro ⟨place, ⟨before, after, hsplit, hbefore, hplace⟩, htarget⟩
      exact ⟨before, place, after, hsplit, hbefore, hplace, htarget⟩
    · rintro ⟨before, place, after, hsplit, hbefore, hplace, htarget⟩
      exact ⟨place, ⟨before, after, hsplit, hbefore, hplace⟩, htarget⟩
  · intro entries hentries a ha b hb hpath hne
    obtain ⟨above, habove, hata⟩ := exists_isEntryAt hk hentries ha
    obtain ⟨below, hbelow, hatb⟩ := exists_isEntryAt hk hentries hb
    refine copy_or_recursive hk hata hatb habove hbelow hpath hne fun hunexpected => ?_
    -- a profile that resolves has no such node
    obtain ⟨place, hplace⟩ := Option.isSome_iff_exists.1 (hsome.2 ⟨above, hunexpected⟩)
    rw [hentries, hplace] at hfailure
    cases hfailure

/-- Of two nodes with unexpected children the first is named, which has its method from above and
its recursion from itself. -/
theorem unexpectedChildren_iff_inheritedLink :
    ∃ profile,
      (Profile.read false (.map [
        (.text "a".toList, .map [(.text "~type".toList, .scalar (.text "link".toList)),
          (.text "~recursive".toList, .scalar (.bool true)),
          (.text "b".toList, .map [(.text "~recursive".toList, .scalar (.bool false)),
            (.text "c".toList, .scalar (.text "x".toList))])]),
        (.text "d".toList, .map [(.text "~type".toList, .scalar (.text "template".toList)),
          (.text "e".toList, .scalar (.text "y".toList))])])).outcome = .ok profile ∧
      profile.entries.outcome = .error (.unexpectedChildren "a/b".toList) := by
  refine ⟨_, rfl, ?_⟩
  have h := @unexpectedChildren_iff false (.map [
    (.text "a".toList, .map [(.text "~type".toList, .scalar (.text "link".toList)),
      (.text "~recursive".toList, .scalar (.bool true)),
      (.text "b".toList, .map [(.text "~recursive".toList, .scalar (.bool false)),
        (.text "c".toList, .scalar (.text "x".toList))])]),
    (.text "d".toList, .map [(.text "~type".toList, .scalar (.text "template".toList)),
      (.text "e".toList, .scalar (.text "y".toList))])]) _ rfl (by decide +kernel)
  have hfirst := (h.2.1 "a/b".toList).2
  refine hfirst ?_
  refine ⟨[[], ["a".toList]], ["a".toList, "b".toList],
    [["a".toList, "b".toList, "c".toList], ["d".toList], ["d".toList, "e".toList]], ?_⟩
  decide +kernel

end Dotfiles.Profile
