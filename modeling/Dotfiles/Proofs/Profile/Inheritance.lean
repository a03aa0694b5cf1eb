import Dotfiles.Proofs.Path.Order
import Dotfiles.Proofs.Profile.Components
import Mathlib.Data.List.Infix

/-!
The law of inheritance. A place of the tree of components has an entry if a source is
declared at it or above it. The nearest source is continued by the names that lead to the
place, the nearest method and the nearest recursion are taken as they are, and the globs
of all nodes from the root down add up.
-/

namespace Dotfiles.ProfileTree

open Dotfiles.Path

/-- What the nearest node at or above a place declares, with the names that lead from that
node to the place. -/
def nearest? {α : Type} (field : Attributes → Option α) (tree : ProfileTree)
    (place : List Name) : Option (α × List Name) :=
  place.inits.reverse.findSome? fun above =>
    ((tree.attributesAt? above).bind field).map fun a => (a, place.drop above.length)

/-- The globs of all nodes from the root down to a place. -/
def globsDownTo (tree : ProfileTree) (place : List Name) : GlobList :=
  ⟨place.inits.flatMap fun above => ((tree.attributesAt? above).getD .empty).globs.globs⟩

/-- The entry that a node of the tree has by inheritance, unless nothing at it or above it
declares a source. -/
def inherited? (tree : ProfileTree) (target : Path) (place : List Name) : Option Entry :=
  if (tree.attributesAt? place).isSome then
    (nearest? (·.source) tree place).map fun (source, below) =>
      { target := target
        source := ofSegments (components source ++ below)
        method := ((nearest? (·.method) tree place).map (·.1)).getD .copy
        recursive := ((nearest? (·.recursive) tree place).map (·.1)).getD false
        ignore := globsDownTo tree place }
  else none

section Nearest

variable {α β : Type} {field : Attributes → Option α} {own : Attributes}
  {children : List (Text × ProfileTree)} {name : Name}

theorem nearest?_nil : nearest? field (.node own children) [] = (field own).map (·, []) := by
  simp [nearest?, List.inits]

/-- The nearest node is sought below the child that leads to the place, and then at the root. -/
theorem nearest?_cons (rest : List Name) :
    nearest? field (.node own children) (name :: rest) =
      ((childOf name children).bind fun child => nearest? field child rest).or
        ((field own).map (·, name :: rest)) := by
  unfold nearest?
  rw [List.inits_cons, List.reverse_cons, List.findSome?_append, ← List.map_reverse,
    List.findSome?_map]
  congr 1
  · cases hc : childOf name children with
    | none => simp [Function.comp_def, attributesAt?_cons, hc]
    | some child => simp [Function.comp_def, attributesAt?_cons, hc]
  · simp

/-- A node that has taken over what its parent declares can stand for both. -/
theorem map_nearest?_inherit (field : Attributes → Option α) (g : α × List Name → β)
    (settled parent : Attributes) {siblings : List (Text × ProfileTree)}
    (hc : childOf name siblings = some (.node own children))
    (hstep : ∀ rest, (field settled).map (fun a => g (a, rest)) =
      ((field own).map fun a => g (a, rest)).or ((field parent).map fun a => g (a, name :: rest)))
    (rest : List Name) :
    (nearest? field (.node settled children) rest).map g =
      (nearest? field (.node parent siblings) (name :: rest)).map g := by
  rw [nearest?_cons, hc, Option.bind_some]
  have hs := hstep rest
  cases rest with
  | nil =>
    rw [nearest?_nil, nearest?_nil, Option.map_or]
    simpa [Function.comp_def] using hs
  | cons next more =>
    rw [nearest?_cons, nearest?_cons, Option.or_assoc, Option.map_or, Option.map_or,
      Option.map_or]
    congr 1
    simpa [Function.comp_def] using hs

/-- What is nearest depends on what the nodes declare in the field. -/
theorem nearest?_eq_of_bind {tree tree' : ProfileTree}
    (h : ∀ above, (tree'.attributesAt? above).bind field = (tree.attributesAt? above).bind field)
    (place : List Name) : nearest? field tree' place = nearest? field tree place := by
  simp only [nearest?, h]

theorem globsDownTo_nil :
    globsDownTo (.node own children) [] = own.globs := by
  simp [globsDownTo, List.inits]

theorem globsDownTo_cons (rest : List Name) {child : ProfileTree}
    (hc : childOf name children = some child) :
    globsDownTo (.node own children) (name :: rest) =
      own.globs.union (globsDownTo child rest) := by
  simp [globsDownTo, GlobList.union, List.flatMap_map, attributesAt?_cons, hc]

/-- What is nearest depends on the root as far as the field goes. -/
theorem nearest?_congr {a b : Attributes} (h : field a = field b) (place : List Name) :
    nearest? field (.node a children) place = nearest? field (.node b children) place := by
  cases place with
  | nil => rw [nearest?_nil, nearest?_nil, h]
  | cons name rest => rw [nearest?_cons, nearest?_cons, h]

theorem globsDownTo_congr {a b : Attributes} (h : a.globs = b.globs) (place : List Name) :
    globsDownTo (.node a children) place = globsDownTo (.node b children) place := by
  cases place with
  | nil => rw [globsDownTo_nil, globsDownTo_nil, h]
  | cons name rest => simp [globsDownTo, List.flatMap_map, attributesAt?_cons, h]

end Nearest

section Settling

variable {parent own settled : Attributes} {children siblings : List (Text × ProfileTree)}
  {name : Name} {above : List Name} {target : Path}

theorem isSome_attributesAt?_node (a b : Attributes) (place : List Name) :
    ((ProfileTree.node a children).attributesAt? place).isSome =
      ((ProfileTree.node b children).attributesAt? place).isSome := by
  cases place with
  | nil => rfl
  | cons key rest => rw [attributesAt?_cons, attributesAt?_cons]

theorem globsDownTo_inherit {source : Option Path}
    (hc : childOf name siblings = some (.node own children)) (rest : List Name) :
    globsDownTo (.node (inherit parent own source) children) rest =
      globsDownTo (.node parent siblings) (name :: rest) := by
  have hglobs : (inherit parent own source).globs = parent.globs.union own.globs := rfl
  rw [globsDownTo_cons rest hc]
  cases rest with
  | nil => rw [globsDownTo_nil, globsDownTo_nil, hglobs]
  | cons next more =>
    simp [globsDownTo, GlobList.union, List.flatMap_map, attributesAt?_cons, hglobs]

/-- The source of a child: its own, or that of its parent continued by its name. -/
def continued (above : Option Path) (name : Name) (own : Option Path) : Option Path :=
  own.or (above.map fun p => ofSegments (components p ++ [name]))

theorem sourceBelow_eq_ok {above own source : Option Path}
    (habove : ∀ p, above = some p → IsPlainPath p) (hname : IsPlain name)
    (h : (sourceBelow above name own).outcome = .ok source) :
    source = continued above name own := by
  unfold sourceBelow at h
  split at h
  · cases h
    rfl
  · rename_i p
    have hp := habove p rfl
    have hjoin := join_ofSegments_name hp.plain hname
    rw [hp.eq] at hjoin
    cases h
    exact congrArg some hjoin
  · cases h
    rfl

theorem isPlainPath_continued {above own : Option Path} {source : Path}
    (habove : ∀ p, above = some p → IsPlainPath p) (hname : IsPlain name)
    (hown : ∀ p, own = some p → IsPlainPath p) (hs : continued above name own = some source) :
    IsPlainPath source := by
  rcases Option.or_eq_some_iff.1 hs with ho | ⟨_, ha⟩
  · exact hown source ho
  · obtain ⟨p, hp, rfl⟩ := Option.map_eq_some_iff.1 ha
    apply isPlainPath_ofSegments
    exact isPlain_append (habove p hp).plain (by simpa using hname)

theorem map_continued (hparent : ∀ p, parent.source = some p → IsPlainPath p)
    (hname : IsPlain name) (rest : List Name) :
    (continued parent.source name own.source).map (fun s => ofSegments (components s ++ rest)) =
      (own.source.map fun s => ofSegments (components s ++ rest)).or
        (parent.source.map fun s => ofSegments (components s ++ name :: rest)) := by
  rw [continued, Option.map_or, Option.map_map]
  congr 1
  apply Option.map_congr
  intro p hp
  have hplain := isPlain_append (hparent p hp).plain (b := [name]) (by simpa using hname)
  rw [Function.comp_apply, components_ofSegments_plain hplain, List.append_assoc]
  rfl

/-- The entry is made of what is nearest in each respect. -/
theorem inherited?_eq (tree : ProfileTree) (place : List Name) :
    inherited? tree target place =
      if (tree.attributesAt? place).isSome then
        ((nearest? (·.source) tree place).map fun x => ofSegments (components x.1 ++ x.2)).map
          fun source =>
            { target := target
              source := source
              method := ((nearest? (·.method) tree place).map (·.1)).getD .copy
              recursive := ((nearest? (·.recursive) tree place).map (·.1)).getD false
              ignore := globsDownTo tree place }
      else none := by
  rw [inherited?, Option.map_map]
  rfl

/-- The attributes of a child that has taken over what its parent declares. -/
def handedDown (parent : Attributes) (name : Name) (own : Attributes) : Attributes :=
  inherit parent own (continued parent.source name own.source)

/-- A child that has taken over what its parent declares has the entries of its place. -/
theorem inherited?_handedDown (hparent : ∀ p, parent.source = some p → IsPlainPath p)
    (hname : IsPlain name) (hc : childOf name siblings = some (.node own children))
    (rest : List Name) :
    inherited? (.node (handedDown parent name own) children) target rest =
      inherited? (.node parent siblings) target (name :: rest) := by
  have hsome : ((ProfileTree.node (handedDown parent name own) children).attributesAt?
      rest).isSome = ((ProfileTree.node parent siblings).attributesAt? (name :: rest)).isSome := by
    rw [attributesAt?_cons, hc, Option.bind_some]
    exact isSome_attributesAt?_node _ _ _
  have hsource := map_nearest?_inherit (·.source) (fun x => ofSegments (components x.1 ++ x.2))
    (handedDown parent name own) parent hc (fun rest => map_continued hparent hname rest) rest
  have hmethod := map_nearest?_inherit (·.method) (·.1) (handedDown parent name own) parent hc
    (fun rest => by simp [handedDown, inherit, Option.map_or]) rest
  have hrecursive := map_nearest?_inherit (·.recursive) (·.1) (handedDown parent name own) parent
    hc (fun rest => by simp [handedDown, inherit, Option.map_or]) rest
  have hglobs : globsDownTo (.node (handedDown parent name own) children) rest =
      globsDownTo (.node parent siblings) (name :: rest) := globsDownTo_inherit hc rest
  rw [inherited?_eq, inherited?_eq, hsome, hsource, hmethod, hrecursive, hglobs]

/-- A root entry is made of what is settled there. -/
theorem entryOf?_eq (hs : ∀ p, settled.source = some p → IsPlainPath p) :
    entryOf? target settled = inherited? (.node settled children) target [] := by
  rw [inherited?, attributesAt?_nil, Option.isSome_some, if_pos rfl, nearest?_nil,
    nearest?_nil, nearest?_nil, globsDownTo_nil, Option.map_map, entryOf?]
  apply Option.map_congr
  intro p hp
  simp [(hs p hp).eq, Function.comp_def]

end Settling

section Resolving

variable {entries : List Entry}

/-- The entries that the law of inheritance gives to the nodes of an outline, for a tree whose
root has the given target. -/
def lawful (tree : ProfileTree) (above : List Name) (nodes : List (List Name × Attributes)) :
    List Entry :=
  nodes.filterMap fun d => inherited? tree (ofSegments (above ++ d.1)) d.1

theorem IsPlainTree.child {own : Attributes} {children : List (Text × ProfileTree)}
    (h : IsPlainTree (.node own children)) {name : Name} {child : ProfileTree}
    (hc : childOf name children = some child) : IsPlain name ∧ IsPlainTree child := by
  obtain ⟨distinct, keys, below⟩ := h.keyed
  have hm := mem_of_childOf hc
  refine ⟨keys _ hm, below _ hm, ?_⟩
  intro place a source ha hs
  apply h.source (name :: place) a source _ hs
  rw [attributesAt?_cons, hc]
  exact ha

theorem IsPlainTree.withRoot {own settled : Attributes} {children : List (Text × ProfileTree)}
    (h : IsPlainTree (.node own children)) (hs : ∀ p, settled.source = some p → IsPlainPath p) :
    IsPlainTree (.node settled children) := by
  refine ⟨h.keyed.withRoot settled, ?_⟩
  intro place a source ha hsource
  cases place with
  | nil =>
    cases ha
    exact hs source hsource
  | cons name rest =>
    apply h.source (name :: rest) a source _ hsource
    rw [attributesAt?_cons] at ha ⊢
    exact ha

/-- What a node that resolves is resolved to. -/
theorem resolveAt_eq_ok {parent own : Attributes} {target : Path} {source : Option Path}
    {children : List (Text × ProfileTree)}
    (h : (resolveAt parent target source (.node own children)).outcome = .ok entries) :
    ∃ below, (resolveChildren (inherit parent own source) target children).outcome = .ok below ∧
      entries = below ++ (entryOf? target (inherit parent own source)).toList := by
  rw [resolveAt] at h
  split at h
  · obtain ⟨_, hfail, _⟩ := Traced.outcome_bind_eq_ok_iff.1 h
    cases hfail
  · obtain ⟨_, _, h⟩ := Traced.outcome_bind_eq_ok_iff.1 h
    obtain ⟨below, hbelow, h⟩ := Traced.outcome_bind_eq_ok_iff.1 h
    refine ⟨below, hbelow, ?_⟩
    cases he : entryOf? target (inherit parent own source) with
    | some entry =>
      rw [he] at h
      cases h
      rfl
    | none =>
      rw [he] at h
      cases h
      simp

/-- What a child and those after it are resolved to. -/
theorem resolveChildren_cons_eq_ok {parent : Attributes} {place : Path} {name : Name}
    {child : ProfileTree} {rest : List (Text × ProfileTree)}
    (h : (resolveChildren parent place ((name, child) :: rest)).outcome = .ok entries) :
    ∃ source first others,
      (sourceBelow parent.source name child.attributes.source).outcome = .ok source ∧
      (resolveAt parent (join [place, name]) source child).outcome = .ok first ∧
      (resolveChildren parent place rest).outcome = .ok others ∧ entries = first ++ others := by
  rw [resolveChildren] at h
  obtain ⟨target, ht, h⟩ := Traced.outcome_bind_eq_ok_iff.1 h
  obtain ⟨source, hs, h⟩ := Traced.outcome_bind_eq_ok_iff.1 h
  obtain ⟨first, hfirst, h⟩ := Traced.outcome_bind_eq_ok_iff.1 h
  obtain ⟨others, hothers, h⟩ := Traced.outcome_bind_eq_ok_iff.1 h
  cases h
  cases ht
  exact ⟨source, first, others, hs, hfirst, hothers, rfl⟩

/-- The entries of a child, under its name. -/
theorem lawful_under {parent own : Attributes} {siblings children : List (Text × ProfileTree)}
    {name : Name} (hparent : ∀ p, parent.source = some p → IsPlainPath p) (hname : IsPlain name)
    (hc : childOf name siblings = some (.node own children)) (above : List Name)
    (nodes : List (List Name × Attributes)) :
    lawful (.node parent siblings) above (under name nodes) =
      lawful (.node (handedDown parent name own) children) (above ++ [name]) nodes := by
  rw [lawful, under, List.filterMap_map]
  apply List.filterMap_congr
  intro d _
  rw [Function.comp_apply, List.append_assoc, List.singleton_append]
  exact (inherited?_handedDown hparent hname hc d.1).symm

mutual

/-- A resolved node has the entries that the law of inheritance gives. -/
theorem perm_resolveAt {parent : Attributes} {above : List Name} {source : Option Path} :
    ∀ {tree : ProfileTree} {entries : List Entry},
      IsPlainTree tree → (∀ name ∈ above, IsPlain name) →
      (∀ p, source = some p → IsPlainPath p) →
      (resolveAt parent (ofSegments above) source tree).outcome = .ok entries →
      entries.Perm (lawful (.node (inherit parent tree.attributes source) tree.children) above
        (outline tree))
  | .node own children, entries, ht, habove, hsource, h => by
    obtain ⟨below, hbelow, rfl⟩ := resolveAt_eq_ok h
    have hsettled : IsPlainTree (.node (inherit parent own source) children) :=
      ht.withRoot hsource
    have hchildren : ∀ c ∈ children, childOf c.1 children = some c.2 := by
      intro c hc
      obtain ⟨distinct, _, _⟩ := ht.keyed
      exact (childOf_eq_some_iff distinct).2 hc
    have hperm := perm_resolveChildren hsettled habove hchildren hbelow
    have hroot : entryOf? (ofSegments above) (inherit parent own source) =
        inherited? (.node (inherit parent own source) children) (ofSegments above) [] :=
      entryOf?_eq hsource
    rw [outline, lawful, List.filterMap_cons, List.append_nil]
    simp only [ProfileTree.attributes, ProfileTree.children, ← hroot]
    -- a node is resolved after everything below it, and the outline has it first
    cases entryOf? (ofSegments above) (inherit parent own source) with
    | none =>
      rw [Option.toList_none, List.append_nil]
      exact hperm
    | some entry => exact (List.perm_append_singleton entry below).trans (hperm.cons entry)

theorem perm_resolveChildren {settled : Attributes} {above : List Name}
    {siblings : List (Text × ProfileTree)} :
    ∀ {children : List (Text × ProfileTree)} {entries : List Entry},
      IsPlainTree (.node settled siblings) → (∀ name ∈ above, IsPlain name) →
      (∀ c ∈ children, childOf c.1 siblings = some c.2) →
      (resolveChildren settled (ofSegments above) children).outcome = .ok entries →
      entries.Perm (lawful (.node settled siblings) above (outlineBelow children))
  | [], entries, ht, habove, hmem, h => by
    cases h
    exact .nil
  | (name, .node own below) :: rest, entries, ht, habove, hmem, h => by
    obtain ⟨source, first, others, hs, hfirst, hothers, rfl⟩ := resolveChildren_cons_eq_ok h
    have hc := hmem (name, .node own below) (by simp)
    obtain ⟨hname, hchild⟩ := ht.child hc
    have hparent : ∀ p, settled.source = some p → IsPlainPath p :=
      fun p hp => ht.source [] settled p rfl hp
    have hown : ∀ p, own.source = some p → IsPlainPath p :=
      fun p hp => hchild.source [] own p rfl hp
    have hcontinued := sourceBelow_eq_ok hparent hname hs
    subst hcontinued
    have hplace := join_ofSegments_name habove hname
    rw [hplace] at hfirst
    have habove' := isPlain_append habove (b := [name]) (by simpa using hname)
    have hperm := perm_resolveAt hchild habove'
      (fun p hp => isPlainPath_continued hparent hname hown hp) hfirst
    have hrest := perm_resolveChildren ht habove
      (fun c hm => hmem c (List.mem_cons_of_mem _ hm)) hothers
    have hunder := lawful_under hparent hname hc above (outline (.node own below))
    rw [outlineBelow, lawful, List.filterMap_append]
    rw [lawful] at hunder
    rw [hunder]
    exact hperm.append hrest

end

end Resolving

section Entries

variable {tree : ProfileTree} {place : List Name} {entry : Entry}

/-- The root takes over nothing. -/
theorem inherited?_root (own : Attributes) (children : List (Text × ProfileTree))
    (target : Path) (place : List Name) :
    inherited? (.node (inherit .empty own own.source) children) target place =
      inherited? (.node own children) target place := by
  have hmethod : (inherit .empty own own.source).method = own.method := Option.or_none
  have hrecursive : (inherit .empty own own.source).recursive = own.recursive := Option.or_none
  have hsource : (inherit .empty own own.source).source = own.source := rfl
  have hglobs : (inherit .empty own own.source).globs = own.globs := rfl
  rw [inherited?, inherited?, globsDownTo_congr hglobs, nearest?_congr hmethod,
    nearest?_congr hrecursive, nearest?_congr hsource]
  rw [isSome_attributesAt?_node]

theorem target_of_inherited? {target : Path}
    (h : inherited? tree target place = some entry) : entry.target = target := by
  rw [inherited?] at h
  split at h
  · obtain ⟨x, _, rfl⟩ := Option.map_eq_some_iff.1 h
    rfl
  · cases h

theorem isSome_nearest?_iff {α : Type} {field : Attributes → Option α} :
    (nearest? field tree place).isSome = true ↔
      ∃ above a, above <+: place ∧ tree.attributesAt? above = some a ∧ (field a).isSome = true := by
  rw [nearest?, List.findSome?_isSome_iff]
  constructor
  · rintro ⟨above, hm, h⟩
    rw [Option.isSome_map, Option.isSome_bind, Option.any_eq_true] at h
    obtain ⟨a, ha, hf⟩ := h
    exact ⟨above, a, (List.mem_inits _ _).1 (List.mem_reverse.1 hm), ha, hf⟩
  · rintro ⟨above, a, hm, ha, hf⟩
    refine ⟨above, List.mem_reverse.2 ((List.mem_inits _ _).2 hm), ?_⟩
    rw [ha, Option.bind_some, Option.isSome_map]
    exact hf

theorem isSome_inherited?_iff (target : Path) :
    (inherited? tree target place).isSome = true ↔
      (tree.attributesAt? place).isSome = true ∧
        ∃ above a, above <+: place ∧ tree.attributesAt? above = some a ∧
          a.source.isSome = true := by
  rw [inherited?, ← isSome_nearest?_iff]
  split
  · rename_i h
    rw [Option.isSome_map]
    exact ⟨fun hs => ⟨h, hs⟩, fun hs => hs.2⟩
  · rename_i h
    constructor
    · intro hs
      cases hs
    · rintro ⟨hs, _⟩
      exact absurd hs h

theorem IsKeyed.of_isSome {P : Text → Prop} (hk : IsKeyed P tree) (place : List Name)
    (h : (tree.attributesAt? place).isSome = true) : ∀ name ∈ place, P name := by
  induction place generalizing tree with
  | nil => simp
  | cons key rest ih =>
    obtain ⟨distinct, keys, below⟩ := hk
    rw [attributesAt?_cons] at h
    rename_i children
    cases hc : childOf key children with
    | none =>
      rw [hc] at h
      cases h
    | some child =>
      rw [hc] at h
      have hm := mem_of_childOf hc
      intro name hn
      rcases List.mem_cons.1 hn with rfl | hn
      · exact keys _ hm
      · exact ih (below _ hm) h name hn

theorem IsPlainTree.components_place (h : IsPlainTree tree)
    (hs : (tree.attributesAt? place).isSome = true) : components (ofSegments place) = place :=
  components_ofSegments_plain (h.keyed.of_isSome place hs)

theorem IsPlainTree.components_of_mem_outline (h : IsPlainTree tree)
    {d : List Name × Attributes} (hd : d ∈ outline tree) :
    components (ofSegments d.1) = d.1 := by
  have ha := (mem_outline_iff h.keyed d.1 d.2).1 hd
  apply h.components_place
  rw [ha]
  rfl

/-- The nearest source and the names that lead on from it are plain. -/
theorem IsPlainTree.of_nearest? (ht : IsPlainTree tree)
    (hsome : (tree.attributesAt? place).isSome = true) {source : Path} {rest : List Name}
    (h : nearest? (·.source) tree place = some (source, rest)) :
    ∀ n ∈ components source ++ rest, IsPlain n := by
  obtain ⟨above, _, hat⟩ := List.exists_of_findSome?_eq_some h
  obtain ⟨found, hfound, he⟩ := Option.map_eq_some_iff.1 hat
  obtain ⟨own, hown, hsource⟩ := Option.bind_eq_some_iff.1 hfound
  cases he
  refine isPlain_append (ht.source above own source hown hsource).plain fun n hn => ?_
  exact ht.keyed.of_isSome place hsome n (List.drop_subset _ _ hn)

theorem IsPlainTree.source_of_inherited? {target : Path} {entry : Entry} (ht : IsPlainTree tree)
    (he : inherited? tree target place = some entry) : IsPlainPath entry.source := by
  rw [inherited?] at he
  split at he
  · rename_i hsome
    obtain ⟨⟨source, rest⟩, hsource, rfl⟩ := Option.map_eq_some_iff.1 he
    exact isPlainPath_ofSegments (ht.of_nearest? hsome hsource)
  · cases he

/-- A plain tree that resolves has one entry for every node with a source at or above it. -/
theorem perm_resolve {raw : List Entry} (h : IsPlainTree tree)
    (hr : (resolveAt .empty [] tree.attributes.source tree).outcome = .ok raw) :
    raw.Perm (lawful tree [] (outline tree)) := by
  obtain ⟨own, children⟩ := tree
  have habove : ∀ name ∈ ([] : List Name), IsPlain name := by simp
  have hperm := perm_resolveAt h habove (fun p hp => h.source [] own p rfl hp) hr
  have hroot : lawful (.node (inherit .empty own own.source) children) []
      (outline (.node own children)) = lawful (.node own children) []
        (outline (.node own children)) := by
    apply List.filterMap_congr
    intro d _
    exact inherited?_root own children _ _
  exact hroot ▸ hperm

theorem mem_lawful_iff (h : IsPlainTree tree) :
    entry ∈ lawful tree [] (outline tree) ∧ components entry.target = place ↔
      inherited? tree (ofSegments place) place = some entry := by
  rw [lawful, List.mem_filterMap]
  constructor
  · rintro ⟨⟨⟨keys, a⟩, hm, he⟩, rfl⟩
    have hplace := h.components_of_mem_outline hm
    have htarget := target_of_inherited? he
    rw [List.nil_append] at htarget
    rwa [htarget, hplace]
  · intro he
    have hsome : (tree.attributesAt? place).isSome = true := by
      have hs := (isSome_inherited?_iff _).1 (by rw [he]; rfl)
      exact hs.1
    obtain ⟨a, ha⟩ := Option.isSome_iff_exists.1 hsome
    refine ⟨⟨(place, a), (mem_outline_iff h.keyed place a).2 ha, he⟩, ?_⟩
    rw [target_of_inherited? he]
    exact h.components_place hsome

theorem nodup_lawful (h : IsPlainTree tree) :
    ((lawful tree [] (outline tree)).map fun e => components e.target).Nodup := by
  have hnodup := nodup_outline h.keyed
  rw [List.Nodup, List.pairwise_map] at hnodup ⊢
  rw [lawful, List.pairwise_filterMap]
  refine hnodup.imp_of_mem ?_
  intro d e hd he hne entry hentry other hother
  rw [target_of_inherited? hentry, target_of_inherited? hother, List.nil_append,
    List.nil_append, h.components_of_mem_outline hd, h.components_of_mem_outline he]
  exact hne

end Entries

end Dotfiles.ProfileTree

namespace Dotfiles.Profile

open Dotfiles.Path ProfileTree

variable {drives : Bool} {document : Value} {profile : Profile} {entries : List Entry}

/-- What resolving a profile gives: the lawful entries, sorted. -/
theorem entries_eq_ok (h : profile.entries.outcome = .ok entries)
    (ht : IsPlainTree profile.declarations.byComponent) :
    ∃ raw, raw.Perm (lawful profile.declarations.byComponent []
        (outline profile.declarations.byComponent)) ∧
      entries = sortOn Entry.target raw := by
  rw [Profile.entries, resolve, Traced.outcome_bind_eq_ok_iff] at h
  obtain ⟨raw, hr, h⟩ := h
  cases h
  exact ⟨raw, perm_resolve ht hr, rfl⟩

/-- Resolved entries come out in the one order in which their targets increase. -/
theorem entries_of_perm {raw : List Entry}
    (hr : (resolveAt .empty [] profile.declarations.byComponent.attributes.source
      profile.declarations.byComponent).outcome = .ok raw) (hperm : raw.Perm entries)
    (hs : entries.Pairwise fun a b => Path.before a.target b.target = true) :
    profile.entries.outcome = .ok entries := by
  refine Traced.outcome_bind_eq_ok_iff.2 ⟨raw, hr, ?_⟩
  exact congrArg Except.ok (sortOn_eq_of_perm Entry.target hperm hs)

/-- The entries come in the order of their targets, none of them twice. -/
theorem pairwise_entries (h : profile.entries.outcome = .ok entries)
    (ht : IsPlainTree profile.declarations.byComponent) :
    entries.Pairwise fun a b => components a.target < components b.target := by
  obtain ⟨raw, hperm, rfl⟩ := entries_eq_ok h ht
  apply pairwise_sortOn
  exact (hperm.map _).nodup_iff.2 (nodup_lawful ht)

/-- The entry of a place is the one that the law of inheritance gives it. -/
theorem mem_entries_iff (h : profile.entries.outcome = .ok entries)
    (ht : IsPlainTree profile.declarations.byComponent) (place : List Name) (entry : Entry) :
    entry ∈ entries ∧ components entry.target = place ↔
      inherited? profile.declarations.byComponent (ofSegments place) place = some entry := by
  obtain ⟨raw, hperm, rfl⟩ := entries_eq_ok h ht
  rw [mem_sortOn, hperm.mem_iff]
  exact mem_lawful_iff ht

theorem isPlainPath_source (h : profile.entries.outcome = .ok entries)
    (ht : IsPlainTree profile.declarations.byComponent) {entry : Entry} (he : entry ∈ entries) :
    IsPlainPath entry.source :=
  ht.source_of_inherited? ((mem_entries_iff h ht _ entry).1 ⟨he, rfl⟩)

/-- Resolution is inheritance. A profile that resolves has exactly one entry for every node
of its tree of components with a source at it or above it, in strictly increasing order of
the targets, and that entry has what the nearest nodes declare. -/
theorem entries_inherit (hread : (Profile.read drives document).outcome = .ok profile)
    (hfree : Declaration.IsFreeOfDotLines document)
    (hentries : profile.entries.outcome = .ok entries) :
    entries.Pairwise (fun a b => Path.before a.target b.target = true) ∧
      (∀ place, (∃! entry, entry ∈ entries ∧ components entry.target = place) ↔
        (profile.declarations.byComponent.attributesAt? place).isSome = true ∧
          ∃ above a, above <+: place ∧
            profile.declarations.byComponent.attributesAt? above = some a ∧
            a.source.isSome = true) ∧
      ∀ place entry, entry ∈ entries ∧ components entry.target = place ↔
        inherited? profile.declarations.byComponent (ofSegments place) place =
          some entry := by
  have ht := Profile.isPlainTree hread hfree
  refine ⟨?_, ?_, fun place entry => mem_entries_iff hentries ht place entry⟩
  · refine (pairwise_entries hentries ht).imp ?_
    intro a b hab
    exact (before_iff_lt _ _).2 hab
  · intro place
    rw [← isSome_inherited?_iff (ofSegments place), Option.isSome_iff_exists]
    constructor
    · rintro ⟨entry, he, _⟩
      exact ⟨entry, (mem_entries_iff hentries ht place entry).1 he⟩
    · rintro ⟨entry, he⟩
      refine ⟨entry, (mem_entries_iff hentries ht place entry).2 he, ?_⟩
      intro other ho
      have hother := (mem_entries_iff hentries ht place other).1 ho
      exact Option.some.inj (hother.symm.trans he)

/-- A link below a copy continues its source. -/
theorem entries_inherit_link_below_copy :
    ∃ profile entries,
      (Profile.read false (.map [(.text "a".toList, .map [
        (.text "~source".toList, .scalar (.text "s".toList)),
        (.text "b".toList, .scalar (.text "<link>".toList))])])).outcome = .ok profile ∧
      profile.entries.outcome = .ok entries ∧
      (⟨"a/b".toList, "s/b".toList, .link, false, ⟨[]⟩⟩ : Entry) ∈ entries := by
  refine ⟨_, _, rfl, rfl, ?_⟩
  have hfree : Declaration.IsFreeOfDotLines (.map [(.text "a".toList, .map [
      (.text "~source".toList, .scalar (.text "s".toList)),
      (.text "b".toList, .scalar (.text "<link>".toList))])]) := by decide +kernel
  have h := @entries_inherit false _ _ _ rfl hfree rfl
  exact ((h.2.2 ["a".toList, "b".toList] _).2 (by decide +kernel)).1

end Dotfiles.Profile
