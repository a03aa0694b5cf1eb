import Dotfiles.Profile.Resolution
import Dotfiles.Proofs.Except
import Dotfiles.Proofs.Path.Order

/-!
Globs that are put into the ignore list at the root of a profile. Merging declarations and
inheriting attributes only put other globs before and after those of the root, so every entry
has the new globs somewhere in its list, and is the same apart from that.
-/

namespace Dotfiles

/-- Whether a list of globs is another one with some globs put into it. -/
def GlobList.Inserts (globs : List Text) (l l' : GlobList) : Prop :=
  ∃ before after, l = ⟨before ++ after⟩ ∧ l' = ⟨before ++ globs ++ after⟩

/-- Whether attributes are others with some globs put into their ignore list. -/
structure Attributes.Inserts (globs : List Text) (a a' : Attributes) : Prop where
  source : a'.source = a.source
  method : a'.method = a.method
  recursive : a'.recursive = a.recursive
  globs : GlobList.Inserts globs a.globs a'.globs

/-- Whether a tree is another one with some globs put into the ignore list of its root. -/
structure ProfileTree.Inserts (globs : List Text) (t t' : ProfileTree) : Prop where
  attributes : Attributes.Inserts globs t.attributes t'.attributes
  children : t'.children = t.children

/-- Whether an entry is another one with some globs put into its ignore list. -/
def Entry.Inserts (globs : List Text) (e e' : Entry) : Prop :=
  ∃ ignore, GlobList.Inserts globs e.ignore ignore ∧ e' = { e with ignore := ignore }

variable {globs : List Text}

namespace GlobList

variable {l l' : GlobList}

theorem Inserts.union (h : Inserts globs l l') (last : GlobList) :
    Inserts globs (l.union last) (l'.union last) := by
  obtain ⟨before, after, rfl, rfl⟩ := h
  refine ⟨before, after ++ last.globs, ?_, ?_⟩ <;> simp [GlobList.union]

theorem Inserts.union_left (h : Inserts globs l l') (first : GlobList) :
    Inserts globs (first.union l) (first.union l') := by
  obtain ⟨before, after, rfl, rfl⟩ := h
  refine ⟨first.globs ++ before, after, ?_, ?_⟩ <;> simp [GlobList.union]

end GlobList

namespace Attributes

variable {a a' b b' : Attributes}

theorem Inserts.merge (h : Inserts globs a a') (b : Attributes) :
    Inserts globs (a.merge b) (a'.merge b) where
  source := congrArg b.source.or h.source
  method := congrArg b.method.or h.method
  recursive := congrArg b.recursive.or h.recursive
  globs := by
    rw [globs_merge, globs_merge]
    exact h.globs.union b.globs

theorem Inserts.merge_left (h : Inserts globs b b') (a : Attributes) :
    Inserts globs (a.merge b) (a.merge b') where
  source := congrArg (·.or a.source) h.source
  method := congrArg (·.or a.method) h.method
  recursive := congrArg (·.or a.recursive) h.recursive
  globs := by
    rw [globs_merge, globs_merge]
    exact h.globs.union_left a.globs

end Attributes

namespace ProfileTree

variable {t t' : ProfileTree} {a a' parent parent' own own' : Attributes}

section Gathering

theorem Inserts.declare (h : Inserts globs t t') (declared : Attributes) (place : List Name) :
    Inserts globs (declare declared place t) (declare declared place t') := by
  obtain ⟨own, children⟩ := t
  obtain ⟨own', children'⟩ := t'
  obtain ⟨hown, rfl⟩ := h
  cases place with
  | nil => exact ⟨hown.merge declared, rfl⟩
  | cons name rest => exact ⟨hown, rfl⟩

/-- The root is what is declared first, and nothing that is declared later looks at its globs. -/
theorem Inserts.byComponent (h : Inserts globs t t') :
    Inserts globs t.byComponent t'.byComponent := by
  obtain ⟨own, children⟩ := t
  obtain ⟨own', children'⟩ := t'
  obtain ⟨hown, rfl⟩ := h
  have hstart : Inserts globs (ProfileTree.declare own [] .empty)
      (ProfileTree.declare own' [] .empty) :=
    ⟨hown.merge_left .empty, rfl⟩
  have hrun : ∀ (nodes : List (List Name × Attributes)) {t t' : ProfileTree}, Inserts globs t t' →
      Inserts globs
        (nodes.foldl (fun gathered node => ProfileTree.declare node.2 node.1 gathered) t)
        (nodes.foldl (fun gathered node => ProfileTree.declare node.2 node.1 gathered) t') := by
    intro nodes
    induction nodes with
    | nil => exact id
    | cons node rest ih => exact fun h => ih (h.declare node.2 node.1)
  exact hrun (flattenChildren [] children') hstart

end Gathering

section Inheriting

theorem inserts_inherit (h : Attributes.Inserts globs parent parent') (own : Attributes)
    (source : Option Path) :
    Attributes.Inserts globs (inherit parent own source) (inherit parent' own source) where
  source := rfl
  method := congrArg own.method.or h.method
  recursive := congrArg own.recursive.or h.recursive
  globs := h.globs.union own.globs

theorem inserts_inherit_own (h : Attributes.Inserts globs own own') (parent : Attributes)
    (source : Option Path) :
    Attributes.Inserts globs (inherit parent own source) (inherit parent own' source) where
  source := rfl
  method := congrArg (·.or parent.method) h.method
  recursive := congrArg (·.or parent.recursive) h.recursive
  globs := h.globs.union_left parent.globs

theorem isSealed_of_inserts (h : Attributes.Inserts globs a a') : isSealed a' = isSealed a := by
  rw [isSealed, isSealed, h.method, h.recursive]

theorem inserts_entryOf? (h : Attributes.Inserts globs a a') (target : Path) :
    Option.Rel (Entry.Inserts globs) (entryOf? target a) (entryOf? target a') := by
  rw [entryOf?, entryOf?, h.source, h.method, h.recursive]
  cases a.source with
  | none => exact .none
  | some source => exact .some ⟨a'.globs, h.globs, rfl⟩

/-- A node resolves to the same entries, with the globs put in, if what is below it does. -/
theorem rel_resolveAt_node {target : Path} {source : Option Path}
    {children : List (Text × ProfileTree)}
    (h : Attributes.Inserts globs (inherit parent own source) (inherit parent' own' source))
    (hbelow : (resolveChildren (inherit parent own source) target children).outcome.Rel
      (List.Forall₂ (Entry.Inserts globs))
      (resolveChildren (inherit parent' own' source) target children).outcome) :
    (resolveAt parent target source (.node own children)).outcome.Rel
      (List.Forall₂ (Entry.Inserts globs))
      (resolveAt parent' target source (.node own' children)).outcome := by
  rw [resolveAt, resolveAt]
  simp only [isSealed_of_inserts h]
  split
  · exact .error _
  · simp only [Traced.outcome_bind]
    refine (Except.Rel.refl fun _ => rfl).bind fun _ _ _ => ?_
    refine hbelow.bind fun below below' hrest => ?_
    have hentry := inserts_entryOf? h target
    generalize entryOf? target (inherit parent own source) = entry at hentry ⊢
    generalize entryOf? target (inherit parent' own' source) = entry' at hentry ⊢
    cases hentry with
    | none => exact .ok hrest
    | some he => exact .ok (List.rel_append hrest (.cons he .nil))

mutual

theorem rel_resolveAt {parent parent' : Attributes}
    (h : Attributes.Inserts globs parent parent') (target : Path) (source : Option Path) :
    ∀ t : ProfileTree,
      (resolveAt parent target source t).outcome.Rel (List.Forall₂ (Entry.Inserts globs))
        (resolveAt parent' target source t).outcome
  | .node own children =>
    have hsettled := inserts_inherit h own source
    rel_resolveAt_node hsettled (rel_resolveChildren hsettled target children)

theorem rel_resolveChildren {parent parent' : Attributes}
    (h : Attributes.Inserts globs parent parent') (place : Path) :
    ∀ children : List (Text × ProfileTree),
      (resolveChildren parent place children).outcome.Rel (List.Forall₂ (Entry.Inserts globs))
        (resolveChildren parent' place children).outcome
  | [] => .ok .nil
  | (name, child) :: rest => by
    rw [resolveChildren, resolveChildren, h.source]
    simp only [Traced.outcome_bind]
    refine (Except.rel_eq_iff.2 rfl).bind ?_
    rintro target _ rfl
    refine (Except.rel_eq_iff.2 rfl).bind ?_
    rintro source _ rfl
    refine (rel_resolveAt h target source child).bind fun first first' hfirst => ?_
    refine (rel_resolveChildren h place rest).bind fun others others' hothers => ?_
    exact .ok (List.rel_append hfirst hothers)

end

/-- A tree resolves to the same entries in the same order, with the globs put into each of
them. -/
theorem rel_resolve (h : Inserts globs t t') :
    t.resolve.outcome.Rel (List.Forall₂ (Entry.Inserts globs)) t'.resolve.outcome := by
  obtain ⟨own, children⟩ := t
  obtain ⟨own', children'⟩ := t'
  obtain ⟨hown, rfl⟩ := h
  have hsource : own'.source = own.source := hown.source
  rw [resolve, resolve, Traced.outcome_bind, Traced.outcome_bind]
  simp only [ProfileTree.attributes, hsource]
  have hsettled := inserts_inherit_own hown .empty own.source
  refine (rel_resolveAt_node hsettled (rel_resolveChildren hsettled [] _)).bind ?_
  intro entries entries' hentries
  refine .ok (Path.forall₂_sortOn ?_ hentries)
  rintro e _ ⟨ignore, _, rfl⟩
  rfl

end Inheriting

end ProfileTree

end Dotfiles
