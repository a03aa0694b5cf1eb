import Dotfiles.Error
import Dotfiles.Path.Join
import Dotfiles.Trace.Event

/-!
Traced computations: a result or an error, together with the events up to it.
What a computation gives is decided by its outcome alone; `outcome_bind` says
that sequencing never looks at the events.
-/

namespace Dotfiles

/-- A computation that has been traced. -/
structure Traced (α : Type) where
  events : List Event
  outcome : Except Error α

namespace Traced

instance : Monad Traced where
  pure a := ⟨[], .ok a⟩
  bind first next :=
    match first.outcome with
    | .ok a => let second := next a; ⟨first.events ++ second.events, second.outcome⟩
    | .error e => ⟨first.events, .error e⟩

/-- A single event. -/
def emit (event : Event) : Traced Unit := ⟨[event], .ok ()⟩

/-- Several events, one after another. -/
def emitAll (events : List Event) : Traced Unit := ⟨events, .ok ()⟩

/-- A failure. -/
def fail {α : Type} (e : Error) : Traced α := ⟨[], .error e⟩

/-- An outcome without events. -/
def ofExcept {α : Type} (outcome : Except Error α) : Traced α := ⟨[], outcome⟩

/-- A file call that the trace keeps, with the error that its failure is. -/
def call {α : Type} (c : FileCall) (path : Path) (result : Except CallFailure α) : Traced α :=
  ⟨[.fileCall c path], result.mapError (.ofCall c path)⟩

/-- The parts joined to one path, shown in the trace. -/
def join (parts : List Path) : Traced Path :=
  let result := Path.join parts
  ⟨[.joining parts, .joined result], .ok result⟩

@[simp] theorem outcome_pure {α : Type} (a : α) : (pure a : Traced α).outcome = .ok a := rfl

@[simp] theorem outcome_emit (event : Event) : (emit event).outcome = .ok () := rfl

@[simp] theorem outcome_emitAll (events : List Event) : (emitAll events).outcome = .ok () := rfl

@[simp] theorem outcome_fail {α : Type} (e : Error) : (fail e : Traced α).outcome = .error e := rfl

@[simp] theorem outcome_ofExcept {α : Type} (x : Except Error α) : (ofExcept x).outcome = x := rfl

@[simp] theorem outcome_call {α : Type} (c : FileCall) (path : Path)
    (result : Except CallFailure α) :
    (call c path result).outcome = result.mapError (.ofCall c path) := rfl

@[simp] theorem outcome_join (parts : List Path) :
    (join parts).outcome = .ok (Path.join parts) := rfl

@[simp] theorem outcome_bind {α β : Type} (x : Traced α) (f : α → Traced β) :
    (x >>= f).outcome = x.outcome >>= fun a => (f a).outcome := by
  show (match x.outcome with
    | .ok a => (⟨x.events ++ (f a).events, (f a).outcome⟩ : Traced β)
    | .error e => ⟨x.events, .error e⟩).outcome = _
  cases x.outcome <;> rfl

/-- A sequence gives a result exactly if its first part gives one and the second part
gives that result from it. -/
theorem outcome_bind_eq_ok_iff {α β : Type} {x : Traced α} {f : α → Traced β} {b : β} :
    (x >>= f).outcome = .ok b ↔ ∃ a, x.outcome = .ok a ∧ (f a).outcome = .ok b := by
  rw [outcome_bind]
  cases x.outcome <;> simp [bind, Except.bind]

/-- A sequence fails exactly if its first part does, or else the second part after it. -/
theorem outcome_bind_eq_error_iff {α β : Type} {x : Traced α} {f : α → Traced β} {e : Error} :
    (x >>= f).outcome = .error e ↔
      x.outcome = .error e ∨ ∃ a, x.outcome = .ok a ∧ (f a).outcome = .error e := by
  rw [outcome_bind]
  cases x.outcome <;> simp [bind, Except.bind]

/-- The events of a sequence are those of its parts, one after the other. -/
theorem events_bind_of_ok {α β : Type} {x : Traced α} {a : α} (h : x.outcome = .ok a)
    (f : α → Traced β) : (x >>= f).events = x.events ++ (f a).events := by
  show (match x.outcome with
    | .ok a => (⟨x.events ++ (f a).events, (f a).outcome⟩ : Traced β)
    | .error e => ⟨x.events, .error e⟩).events = _
  rw [h]

/-- After a failure nothing more happens. -/
theorem events_bind_of_error {α β : Type} {x : Traced α} {e : Error} (h : x.outcome = .error e)
    (f : α → Traced β) : (x >>= f).events = x.events := by
  show (match x.outcome with
    | .ok a => (⟨x.events ++ (f a).events, (f a).outcome⟩ : Traced β)
    | .error e => ⟨x.events, .error e⟩).events = _
  rw [h]

end Traced

end Dotfiles
