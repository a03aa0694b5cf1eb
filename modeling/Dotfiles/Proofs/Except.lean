import Mathlib.Data.List.Forall2

/-!
Results that were reached step by step. A sequence of steps gives a result exactly if every
step of it does.
-/

namespace Except

variable {ε δ α β γ : Type}

theorem ok_bind (a : α) (f : α → Except ε β) : Except.ok a >>= f = f a := rfl

theorem error_bind (e : ε) (f : α → Except ε β) : Except.error e >>= f = .error e := rfl

theorem map_eq_error_iff {x : Except ε α} {f : α → β} {e : ε} :
    f <$> x = .error e ↔ x = .error e := by
  cases x <;> simp [Functor.map, Except.map]

theorem bind_eq_ok_iff {x : Except ε α} {f : α → Except ε β} {b : β} :
    x >>= f = .ok b ↔ ∃ a, x = .ok a ∧ f a = .ok b := by
  cases x <;> simp [bind, Except.bind]

theorem map_eq_ok_iff {x : Except ε α} {f : α → β} {b : β} :
    f <$> x = .ok b ↔ ∃ a, x = .ok a ∧ f a = b := by
  cases x <;> simp [Functor.map, Except.map]

theorem mapError_eq_ok_iff {x : Except ε α} {f : ε → δ} {a : α} :
    x.mapError f = .ok a ↔ x = .ok a := by
  constructor
  · intro h
    cases x with
    | ok b =>
      cases h
      rfl
    | error e => cases h
  · rintro rfl
    rfl

/-- The error of a result that is none. -/
def failure? : Except ε α → Option ε
  | .ok _ => none
  | .error e => some e

theorem failure?_eq_some_iff {x : Except ε α} {e : ε} : x.failure? = some e ↔ x = .error e := by
  cases x <;> simp [failure?]

theorem failure?_map (f : α → β) (x : Except ε α) : (f <$> x).failure? = x.failure? := by
  cases x <;> rfl

/-- Of two steps that do not depend on each other the second one fails only if the first does
not. -/
theorem failure?_both (x : Except ε α) (y : Except ε β) (f : α → β → γ) :
    (do let a ← x; let b ← y; return f a b).failure? = x.failure?.or y.failure? := by
  cases x with
  | error e => rfl
  | ok a => cases y <;> rfl

theorem isOk_iff {x : Except ε α} : x.isOk = true ↔ ∃ a, x = .ok a := by
  cases x <;> simp [Except.isOk, Except.toBool]

/-- A step after which success does not depend on its result. -/
theorem isOk_bind {x : Except ε α} {f : α → Except ε β} {b : Bool} (h : ∀ a, (f a).isOk = b) :
    (x >>= f).isOk = (x.isOk && b) := by
  cases x with
  | error e => rfl
  | ok a => exact (h a).trans (Bool.true_and b).symm

theorem isOk_map (f : α → β) (x : Except ε α) : (f <$> x).isOk = x.isOk := by
  cases x <;> rfl

theorem mapM_append_eq_ok_iff {f : α → Except ε β} {first second : List α} {items : List β} :
    (first ++ second).mapM f = .ok items ↔
      ∃ a b, first.mapM f = .ok a ∧ second.mapM f = .ok b ∧ items = a ++ b := by
  rw [List.mapM_append, bind_eq_ok_iff]
  constructor
  · rintro ⟨a, ha, h⟩
    obtain ⟨b, hb, h⟩ := bind_eq_ok_iff.1 h
    cases h
    exact ⟨a, b, ha, hb, rfl⟩
  · rintro ⟨a, b, ha, hb, rfl⟩
    exact ⟨a, ha, bind_eq_ok_iff.2 ⟨b, hb, rfl⟩⟩

theorem exists_mem_of_mapM {f : α → Except ε β} {l : List α} {items : List β}
    (h : l.mapM f = .ok items) {b : β} (hb : b ∈ items) : ∃ a ∈ l, f a = .ok b := by
  induction l generalizing items with
  | nil =>
    cases h
    cases hb
  | cons a rest ih =>
    rw [List.mapM_cons] at h
    obtain ⟨first, hfirst, h⟩ := bind_eq_ok_iff.1 h
    obtain ⟨others, hothers, h⟩ := bind_eq_ok_iff.1 h
    cases h
    rcases List.mem_cons.1 hb with rfl | hb
    · exact ⟨a, List.mem_cons_self, hfirst⟩
    · obtain ⟨found, hm, hf⟩ := ih hothers hb
      exact ⟨found, List.mem_cons_of_mem _ hm, hf⟩

theorem exists_ok_of_mapM {f : α → Except ε β} {l : List α} {items : List β}
    (h : l.mapM f = .ok items) {a : α} (ha : a ∈ l) : ∃ b ∈ items, f a = .ok b := by
  obtain ⟨before, after, rfl⟩ := List.append_of_mem ha
  obtain ⟨first, second, _, hsecond, rfl⟩ := mapM_append_eq_ok_iff.1 h
  rw [List.mapM_cons] at hsecond
  obtain ⟨b, hb, hrest⟩ := bind_eq_ok_iff.1 hsecond
  obtain ⟨others, _, hothers⟩ := bind_eq_ok_iff.1 hrest
  cases hothers
  exact ⟨b, by simp, hb⟩

/-- Steps fail at the first one that does. -/
theorem mapM_eq_error_iff {f : α → Except ε β} {items : List α} {e : ε} :
    items.mapM f = .error e ↔ ∃ before x after found, items = before ++ x :: after ∧
      before.mapM f = .ok found ∧ f x = .error e := by
  induction items with
  | nil =>
    constructor
    · intro h
      cases h
    · rintro ⟨before, x, after, _, he, _⟩
      simp at he
  | cons first rest ih =>
    rw [List.mapM_cons]
    constructor
    · intro h
      cases hfirst : f first with
      | error d =>
        rw [hfirst] at h
        cases h
        exact ⟨[], first, rest, [], rfl, rfl, hfirst⟩
      | ok b =>
        rw [hfirst, ok_bind, bind_pure_comp, map_eq_error_iff] at h
        obtain ⟨before, x, after, found, rfl, hbefore, hx⟩ := ih.1 h
        refine ⟨first :: before, x, after, b :: found, rfl, ?_, hx⟩
        rw [List.mapM_cons, hfirst, ok_bind, hbefore]
        rfl
    · rintro ⟨before, x, after, found, he, hbefore, hx⟩
      cases before with
      | nil =>
        cases he
        rw [hx]
        rfl
      | cons head more =>
        cases he
        rw [List.mapM_cons] at hbefore
        obtain ⟨b, hb, hmore⟩ := bind_eq_ok_iff.1 hbefore
        obtain ⟨others, hothers, _⟩ := bind_eq_ok_iff.1 hmore
        rw [hb, ok_bind, ih.2 ⟨more, x, after, others, rfl, hothers, hx⟩]
        rfl

/-- Steps that do not depend on each other give the same results in another order. -/
theorem mapM_perm {f : α → Except ε β} {items items' : List α}
    (h : items.Perm items') :
    (∃ found found', items.mapM f = .ok found ∧ items'.mapM f = .ok found' ∧ found.Perm found') ∨
      ∃ e e', items.mapM f = .error e ∧ items'.mapM f = .error e' := by
  induction h with
  | nil => exact .inl ⟨[], [], rfl, rfl, .refl _⟩
  | cons x _ ih =>
    simp only [List.mapM_cons]
    cases f x with
    | error e => exact .inr ⟨e, e, rfl, rfl⟩
    | ok b =>
      rcases ih with ⟨found, found', h, h', hperm⟩ | ⟨e, e', h, h'⟩
      · exact .inl ⟨b :: found, b :: found', by rw [h]; rfl, by rw [h']; rfl, hperm.cons b⟩
      · exact .inr ⟨e, e', by rw [h]; rfl, by rw [h']; rfl⟩
  | swap x y rest =>
    simp only [List.mapM_cons]
    cases f x <;> cases f y <;> cases rest.mapM f
    all_goals first
      | exact .inl ⟨_, _, rfl, rfl, .swap _ _ _⟩
      | exact .inr ⟨_, _, rfl, rfl⟩
  | trans _ _ ih ih' =>
    rcases ih with ⟨found, middle, h, hm, hperm⟩ | ⟨e, e', h, hm⟩
    · rcases ih' with ⟨middle', found', hm', h', hperm'⟩ | ⟨_, _, hm', _⟩
      · cases hm.symm.trans hm'
        exact .inl ⟨found, found', h, h', hperm.trans hperm'⟩
      · cases hm.symm.trans hm'
    · rcases ih' with ⟨_, _, hm', _⟩ | ⟨_, e'', hm', h'⟩
      · cases hm.symm.trans hm'
      · exact .inr ⟨e, e'', h, h'⟩

/-- Two outcomes that are the same error, or results that are related. -/
inductive Rel (R : α → β → Prop) : Except ε α → Except ε β → Prop
  | ok {a : α} {b : β} (h : R a b) : Rel R (.ok a) (.ok b)
  | error (e : ε) : Rel R (.error e) (.error e)

section Rel

variable {R : α → β → Prop}

theorem Rel.refl {R : α → α → Prop} {x : Except ε α} (h : ∀ a, R a a) : Rel R x x := by
  cases x with
  | ok a => exact .ok (h a)
  | error e => exact .error e

theorem rel_eq_iff {x y : Except ε α} : Rel Eq x y ↔ x = y := by
  constructor
  · intro h
    cases h with
    | ok h => rw [h]
    | error e => rfl
  · rintro rfl
    exact .refl fun _ => rfl

theorem Rel.imp {S : α → β → Prop} {x : Except ε α} {y : Except ε β} (h : Rel R x y)
    (hnext : ∀ a b, R a b → S a b) : Rel S x y := by
  cases h with
  | ok h => exact .ok (hnext _ _ h)
  | error e => exact .error e

theorem Rel.exists_of_eq_ok {x : Except ε α} {y : Except ε β} {a : α} (h : Rel R x y)
    (hx : x = .ok a) : ∃ b, y = .ok b ∧ R a b := by
  cases h with
  | ok h =>
    cases hx
    exact ⟨_, rfl, h⟩
  | error e => cases hx

/-- What is related has been reached. -/
theorem Rel.attach {x : Except ε α} {y : Except ε β} (h : Rel R x y) :
    Rel (fun a b => R a b ∧ x = .ok a ∧ y = .ok b) x y := by
  cases h with
  | ok h => exact .ok ⟨h, rfl, rfl⟩
  | error e => exact .error e

theorem Rel.isOk_eq {x : Except ε α} {y : Except ε β} (h : Rel R x y) : x.isOk = y.isOk := by
  cases h <;> rfl

theorem Rel.bind {S : γ → δ → Prop} {x : Except ε α} {y : Except ε β} {f : α → Except ε γ}
    {g : β → Except ε δ} (h : Rel R x y) (hnext : ∀ a b, R a b → Rel S (f a) (g b)) :
    Rel S (x >>= f) (y >>= g) := by
  cases h with
  | ok h => exact hnext _ _ h
  | error e => exact .error e

theorem Rel.map {S : γ → δ → Prop} {x : Except ε α} {y : Except ε β} {f : α → γ} {g : β → δ}
    (h : Rel R x y) (hnext : ∀ a b, R a b → S (f a) (g b)) : Rel S (f <$> x) (g <$> y) := by
  cases h with
  | ok h => exact .ok (hnext _ _ h)
  | error e => exact .error e

theorem Rel.mapM {f : γ → Except ε α} {g : γ → Except ε β} (h : ∀ c, Rel R (f c) (g c))
    (items : List γ) : Rel (List.Forall₂ R) (items.mapM f) (items.mapM g) := by
  induction items with
  | nil => exact .ok .nil
  | cons first rest ih =>
    rw [List.mapM_cons, List.mapM_cons]
    exact (h first).bind fun a b hab => ih.bind fun as bs hrest => .ok (.cons hab hrest)

end Rel

end Except
