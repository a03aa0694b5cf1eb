import Dotfiles.Profile.Declaration
import Dotfiles.Proofs.Except

/-!
The grammar of declarations: which values can be read. Neither the place of a declaration nor
what was read before it matters for that.
-/

namespace Dotfiles

/-- The attributes with the one that a reserved key sets taken from others. -/
def Attributes.withSlot (a : Attributes) (slot : AttributeKey) (own : Attributes) : Attributes :=
  match slot with
  | .source => { a with source := own.source }
  | .method => { a with method := own.method }
  | .recursive => { a with recursive := own.recursive }
  | .ignore => { a with ignore := own.ignore }

theorem Attributes.withSlot_comm {slot other : AttributeKey} (h : slot ≠ other)
    (a own further : Attributes) :
    (a.withSlot slot own).withSlot other further = (a.withSlot other further).withSlot slot own := by
  cases slot <;> cases other <;> first | rfl | exact absurd rfl h

namespace Declaration

/-- Whether a value can stand under a reserved key. A key that sets nothing takes any value. -/
def canSet (drives : Bool) (key : Text) (value : Value) : Bool :=
  match AttributeKey.ofText? key with
  | some slot => (setAttribute drives [] .empty slot value).isOk
  | none => true

mutual

/-- Whether a value is a declaration. -/
def isDeclaration (drives : Bool) : Value → Bool
  | .scalar .null => true
  | .scalar (.text t) => (attributesOfText drives t).isOk
  | .map fields => areFields drives fields
  | _ => false

/-- Whether fields make a declaration together. -/
def areFields (drives : Bool) : List (Scalar × Value) → Bool
  | [] => true
  | (.text key, value) :: rest =>
    (if isReserved key then canSet drives key value
      else (normalPath drives key).isOk && isDeclaration drives value) && areFields drives rest
  | _ => false

end

/-- Whether a single field can stand in a declaration. -/
def isField (drives : Bool) (field : Scalar × Value) : Bool := areFields drives [field]

section Fields

variable {drives : Bool}

theorem areFields_cons (field : Scalar × Value) (rest : List (Scalar × Value)) :
    areFields drives (field :: rest) = (isField drives field && areFields drives rest) := by
  obtain ⟨key, value⟩ := field
  cases key with
  | text key => simp only [isField, areFields, Bool.and_true]
  | _ => simp only [isField, areFields, Bool.false_and]

/-- Fields make a declaration together if each of them can stand in one. -/
theorem areFields_iff {fields : List (Scalar × Value)} :
    areFields drives fields = true ↔ ∀ field ∈ fields, isField drives field = true := by
  induction fields with
  | nil => simp [areFields]
  | cons field rest ih => rw [areFields_cons, Bool.and_eq_true, ih, List.forall_mem_cons]

end Fields

section Reading

variable {drives : Bool}

/-- A value sets the attribute of its key, to whatever the others are, and leaves them alone. -/
theorem setAttribute_eq_map (place : Path) (a : Attributes) (slot : AttributeKey) (value : Value) :
    setAttribute drives place a slot value =
      (fun own => a.withSlot slot own) <$> setAttribute drives place .empty slot value := by
  unfold setAttribute
  split
  · rename_i t
    cases normalPath drives t <;> rfl
  · rename_i t
    cases methodOf t t <;> rfl
  · rfl
  · split <;> rfl
  · cases slot <;> rfl

theorem isOk_setAttribute (place : Path) (a : Attributes) (slot : AttributeKey) (value : Value) :
    (setAttribute drives place a slot value).isOk =
      (setAttribute drives [] .empty slot value).isOk := by
  rw [setAttribute_eq_map, Except.isOk_map]
  unfold setAttribute
  split
  · rfl
  · rfl
  · rfl
  · split <;> rfl
  · rfl

theorem canSet_of_slot {key : Text} {slot : AttributeKey} (h : AttributeKey.ofText? key = some slot)
    (value : Value) : canSet drives key value = (setAttribute drives [] .empty slot value).isOk := by
  rw [canSet, h]

theorem canSet_of_none {key : Text} (h : AttributeKey.ofText? key = none) (value : Value) :
    canSet drives key value = true := by
  rw [canSet, h]

mutual

/-- A value is read just if it is a declaration, at every place. -/
theorem isOk_read (place : Path) :
    ∀ v : Value, (read drives place v).outcome.isOk = isDeclaration drives v
  | .scalar .null => rfl
  | .scalar (.text t) => by
    rw [read, Traced.outcome_bind, Traced.outcome_ofExcept,
      Except.isOk_bind (b := true) fun _ => rfl, Bool.and_true, isDeclaration]
  | .map fields => by
    rw [read, isDeclaration]
    exact isOk_readFields place _ fields
  | .list items | .scalar (.bool b) | .scalar (.int n) | .scalar (.float x) | .scalar .nan
  | .scalar (.bytes data) | .scalar (.date _ _ _) | .scalar (.moment m) | .set members
  | .pair a b | .endless => by
    simp [read, isDeclaration, Except.isOk, Except.toBool]

theorem isOk_readFields (place : Path) (done : Reading) :
    ∀ fields : List (Scalar × Value),
      (readFields drives place done fields).outcome.isOk = areFields drives fields
  | [] => rfl
  | (.text key, value) :: rest => by
    rw [readFields, areFields]
    split
    · split
      · rename_i slot hslot
        rw [Traced.outcome_bind, Traced.outcome_ofExcept,
          Except.isOk_bind fun a => isOk_readFields place (done.withAttributes a) rest,
          isOk_setAttribute, canSet_of_slot hslot]
      · rename_i hslot
        rw [canSet_of_none hslot, Bool.true_and]
        exact isOk_readFields place _ rest
    · rw [Traced.outcome_bind, Traced.outcome_ofExcept, Except.isOk_bind, Bool.and_assoc]
      intro target
      simp only [Traced.outcome_bind, Traced.outcome_join, Traced.outcome_emit, Except.ok_bind]
      rw [Except.isOk_bind fun child => isOk_readFields place (done.addChild target child) rest,
        isOk_read]
  | (.null, value) :: rest | (.bool _, value) :: rest | (.int _, value) :: rest
  | (.float _, value) :: rest | (.nan, value) :: rest | (.bytes _, value) :: rest
  | (.date _ _ _, value) :: rest | (.moment _, value) :: rest => by
    simp [readFields, areFields, Except.isOk, Except.toBool]

end

/-- A document is read just if it is a declaration. -/
theorem isOk_profile (document : Value) :
    (Profile.read drives document).outcome.isOk = isDeclaration drives document := by
  rw [Profile.read, Traced.outcome_bind, Except.isOk_bind (b := true) fun _ => rfl, isOk_read,
    Bool.and_true]

end Reading

end Declaration

end Dotfiles
