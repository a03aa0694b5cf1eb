import Dotfiles.Proofs.Profile.Inheritance

/-!
When a tree resolves. The only thing that stops it is a node made in one piece with something
declared below it, and whether a node is made so depends on what it takes over, not on the
order of the nodes.
-/

namespace Dotfiles.ProfileTree

open Dotfiles.Path

/-- Whether the node at a place is made in one piece: its method and its recursion are the
nearest ones. -/
def isSealedAt (tree : ProfileTree) (place : List Name) : Bool :=
  isSealed { Attributes.empty with
    method := (nearest? (·.method) tree place).map (·.1)
    recursive := (nearest? (·.recursive) tree place).map (·.1) }

/-- Whether no node that is made in one piece has a node below it. -/
def IsOpen (tree : ProfileTree) : Prop :=
  ∀ place name, (tree.attributesAt? (place ++ [name])).isSome = true →
    isSealedAt tree place = false

section Opening

variable {own parent : Attributes} {children siblings : List (Text × ProfileTree)} {name : Name}

theorem isSealedAt_nil : isSealedAt (.node own children) [] = isSealed own := by
  rw [isSealedAt, nearest?_nil, nearest?_nil]
  simp [isSealed, Function.comp_def]

theorem isSealedAt_congr {a b : Attributes} (hm : a.method = b.method)
    (hr : a.recursive = b.recursive) (place : List Name) :
    isSealedAt (.node a children) place = isSealedAt (.node b children) place := by
  rw [isSealedAt, isSealedAt, nearest?_congr hm, nearest?_congr hr]

/-- A child that has taken over what its parent declares is made as the node at its place. -/
theorem isSealedAt_inherit {source : Option Path}
    (hc : childOf name siblings = some (.node own children)) (rest : List Name) :
    isSealedAt (.node (inherit parent own source) children) rest =
      isSealedAt (.node parent siblings) (name :: rest) := by
  have hmethod := map_nearest?_inherit (·.method) (·.1) (inherit parent own source) parent hc
    (fun rest => by simp [inherit, Option.map_or]) rest
  have hrecursive := map_nearest?_inherit (·.recursive) (·.1) (inherit parent own source) parent hc
    (fun rest => by simp [inherit, Option.map_or]) rest
  rw [isSealedAt, isSealedAt, hmethod, hrecursive]

theorem isOpen_inherit_congr (source source' : Option Path) :
    IsOpen (.node (inherit parent own source) children) ↔
      IsOpen (.node (inherit parent own source') children) := by
  refine forall_congr' fun place => forall_congr' fun name => ?_
  have hsealed : isSealedAt (.node (inherit parent own source) children) place =
      isSealedAt (.node (inherit parent own source') children) place :=
    isSealedAt_congr (a := inherit parent own source) (b := inherit parent own source') rfl rfl
      place
  rw [isSome_attributesAt?_node _ (inherit parent own source'), hsealed]

/-- A tree is open if its root may have children or has none, and the children, which take over
what the root declares, are open. -/
theorem isOpen_node_iff (hd : (children.map (·.1)).Nodup) :
    IsOpen (.node own children) ↔ (isSealed own = true → children = []) ∧
      ∀ c ∈ children, IsOpen (.node (inherit own c.2.attributes none) c.2.children) := by
  constructor
  · intro h
    refine ⟨fun hs => ?_, ?_⟩
    · by_contra hne
      obtain ⟨⟨key, child⟩, rest, rfl⟩ := List.exists_cons_of_ne_nil hne
      have hopen := h [] key (by simp [childOf, attributesAt?, at?])
      rw [isSealedAt_nil, hs] at hopen
      cases hopen
    · rintro ⟨key, ⟨below, others⟩⟩ hm place name hsome
      have hc := (childOf_eq_some_iff hd).2 hm
      have hopen := h (key :: place) name
      show isSealedAt (.node (inherit own below none) others) place = false
      rw [isSealedAt_inherit hc]
      apply hopen
      rw [List.cons_append, attributesAt?_cons, hc, Option.bind_some]
      rwa [isSome_attributesAt?_node _ below] at hsome
  · rintro ⟨hroot, hbelow⟩ place name hsome
    cases place with
    | nil =>
      rw [isSealedAt_nil, ← Bool.not_eq_true]
      intro hs
      rw [hroot hs] at hsome
      simp [attributesAt?_cons, childOf] at hsome
    | cons key rest =>
      rw [List.cons_append, attributesAt?_cons] at hsome
      cases hc : childOf key children with
      | none =>
        rw [hc] at hsome
        cases hsome
      | some child =>
        obtain ⟨below, others⟩ := child
        have hopen := hbelow _ (mem_of_childOf hc) rest name
        rw [hc, Option.bind_some] at hsome
        rw [← isSealedAt_inherit hc]
        apply hopen
        rwa [isSome_attributesAt?_node _ below]

end Opening

section Resolving

variable {P : Text → Prop}

theorem exists_sourceBelow (above own : Option Path) (name : Name) :
    ∃ source, (sourceBelow above name own).outcome = .ok source := by
  unfold sourceBelow
  split
  · exact ⟨_, rfl⟩
  · exact ⟨_, rfl⟩
  · exact ⟨_, rfl⟩

/-- What a node is resolved to: its children are refused, or resolved before it. -/
theorem outcome_resolveAt (parent own : Attributes) (target : Path) (source : Option Path)
    (children : List (Text × ProfileTree)) :
    (resolveAt parent target source (.node own children)).outcome =
      if isSealed (inherit parent own source) && !children.isEmpty then
        .error (.unexpectedChildren target)
      else
        (fun below => below ++ (entryOf? target (inherit parent own source)).toList) <$>
          (resolveChildren (inherit parent own source) target children).outcome := by
  rw [resolveAt]
  split
  · rfl
  · simp only [Traced.outcome_bind, Traced.outcome_emit, Except.ok_bind]
    cases (resolveChildren (inherit parent own source) target children).outcome with
    | error e => rfl
    | ok below =>
      cases entryOf? target (inherit parent own source) with
      | some entry => rfl
      | none => exact congrArg Except.ok (List.append_nil below).symm

theorem outcome_resolveChildren_cons (parent : Attributes) (place : Path) (name : Name)
    (child : ProfileTree) (rest : List (Text × ProfileTree)) :
    ∃ source, (resolveChildren parent place ((name, child) :: rest)).outcome = do
      let first ← (resolveAt parent (join [place, name]) source child).outcome
      let others ← (resolveChildren parent place rest).outcome
      return first ++ others := by
  obtain ⟨source, hs⟩ := exists_sourceBelow parent.source child.attributes.source name
  refine ⟨source, ?_⟩
  rw [resolveChildren]
  simp only [Traced.outcome_bind, Traced.outcome_join, Except.ok_bind, hs]
  rfl

mutual

/-- A tree resolves just if it is open with what its root takes over. -/
theorem isOk_resolveAt_iff {parent : Attributes} {target : Path} {source : Option Path} :
    ∀ {tree : ProfileTree}, IsKeyed P tree →
      ((resolveAt parent target source tree).outcome.isOk = true ↔
        IsOpen (.node (inherit parent tree.attributes source) tree.children))
  | .node own children, ht => by
    obtain ⟨distinct, _, below⟩ := ht
    rw [outcome_resolveAt]
    show _ ↔ IsOpen (.node (inherit parent own source) children)
    rw [isOpen_node_iff distinct, ← isOk_resolveChildren_iff below]
    by_cases hs : isSealed (inherit parent own source) = true ∧ children ≠ []
    · rw [if_pos (by simp [hs])]
      exact iff_of_false Bool.false_ne_true fun h => hs.2 (h.1 hs.1)
    · rw [if_neg (by simpa using hs), Except.isOk_map]
      exact ⟨fun h => ⟨fun hseal => not_not.1 fun hne => hs ⟨hseal, hne⟩, h⟩, fun h => h.2⟩

theorem isOk_resolveChildren_iff {parent : Attributes} {place : Path} :
    ∀ {children : List (Text × ProfileTree)}, (∀ c ∈ children, IsKeyed P c.2) →
      ((resolveChildren parent place children).outcome.isOk = true ↔
        ∀ c ∈ children, IsOpen (.node (inherit parent c.2.attributes none) c.2.children))
  | [], _ => by simp [resolveChildren, Except.isOk, Except.toBool]
  | (name, child) :: rest, hk => by
    obtain ⟨source, h⟩ := outcome_resolveChildren_cons parent place name child rest
    have hchild : IsKeyed P child := hk (name, child) (by simp)
    have hrest : ∀ c ∈ rest, IsKeyed P c.2 := fun c hc => hk c (List.mem_cons_of_mem _ hc)
    have hboth : (resolveChildren parent place ((name, child) :: rest)).outcome.isOk =
        ((resolveAt parent (join [place, name]) source child).outcome.isOk &&
          (resolveChildren parent place rest).outcome.isOk) := by
      rw [h, Except.isOk_bind]
      intro first
      exact Except.isOk_bind (b := true) (fun _ => rfl) |>.trans (Bool.and_true _)
    rw [hboth, Bool.and_eq_true, isOk_resolveAt_iff hchild, isOk_resolveChildren_iff hrest,
      List.forall_mem_cons, isOpen_inherit_congr source none]

end

mutual

/-- Resolving fails in no other way. -/
theorem resolveAt_eq_error {parent : Attributes} {target : Path} {source : Option Path}
    {e : Error} : ∀ {tree : ProfileTree},
      (resolveAt parent target source tree).outcome = .error e → ∃ t, e = .unexpectedChildren t
  | .node own children, h => by
    rw [outcome_resolveAt] at h
    split at h
    · cases h
      exact ⟨target, rfl⟩
    · cases hc : (resolveChildren (inherit parent own source) target children).outcome with
      | ok below =>
        rw [hc] at h
        cases h
      | error e' =>
        rw [hc] at h
        cases h
        exact resolveChildren_eq_error hc

theorem resolveChildren_eq_error {parent : Attributes} {place : Path} {e : Error} :
    ∀ {children : List (Text × ProfileTree)},
      (resolveChildren parent place children).outcome = .error e → ∃ t, e = .unexpectedChildren t
  | [], h => by cases h
  | (name, child) :: rest, h => by
    obtain ⟨source, hcons⟩ := outcome_resolveChildren_cons parent place name child rest
    rw [hcons] at h
    cases hf : (resolveAt parent (join [place, name]) source child).outcome with
    | error e' =>
      rw [hf] at h
      cases h
      exact resolveAt_eq_error hf
    | ok first =>
      cases ho : (resolveChildren parent place rest).outcome with
      | error e' =>
        rw [hf, ho] at h
        cases h
        exact resolveChildren_eq_error ho
      | ok others =>
        rw [hf, ho] at h
        cases h

end

end Resolving

end Dotfiles.ProfileTree

namespace Dotfiles.Profile

open ProfileTree

variable {profile : Profile}

theorem outcome_entries : profile.entries.outcome = Path.sortOn Entry.target <$>
    (resolveAt .empty [] profile.declarations.byComponent.attributes.source
      profile.declarations.byComponent).outcome := by
  rw [Profile.entries, resolve, Traced.outcome_bind]
  rfl

/-- The root takes over nothing. -/
theorem isOpen_root (tree : ProfileTree) (source : Option Path) :
    IsOpen (.node (inherit .empty tree.attributes source) tree.children) ↔ IsOpen tree := by
  obtain ⟨own, children⟩ := tree
  refine forall_congr' fun place => forall_congr' fun name => ?_
  have hsealed : isSealedAt (.node (inherit .empty own source) children) place =
      isSealedAt (.node own children) place :=
    isSealedAt_congr Option.or_none Option.or_none place
  show ((ProfileTree.node (inherit .empty own source) children).attributesAt? _).isSome = true →
    isSealedAt (.node (inherit .empty own source) children) place = false ↔ _
  rw [hsealed, isSome_attributesAt?_node _ own]

/-- A profile resolves just if no node of its tree of components that is made in one piece has a
node below it. -/
theorem isOk_entries_iff : profile.entries.outcome.isOk = true ↔
    IsOpen profile.declarations.byComponent := by
  rw [outcome_entries, Except.isOk_map]
  have hkeyed : IsKeyed (fun _ => True) profile.declarations.byComponent :=
    isKeyed_byComponent fun _ _ _ _ => trivial
  rw [isOk_resolveAt_iff hkeyed, isOpen_root]

theorem entries_eq_error {e : Error} (h : profile.entries.outcome = .error e) :
    ∃ t, e = .unexpectedChildren t := by
  rw [outcome_entries] at h
  cases hr : (resolveAt .empty [] profile.declarations.byComponent.attributes.source
      profile.declarations.byComponent).outcome with
  | ok found =>
    rw [hr] at h
    cases h
  | error e' =>
    rw [hr] at h
    cases h
    exact resolveAt_eq_error hr

end Dotfiles.Profile
