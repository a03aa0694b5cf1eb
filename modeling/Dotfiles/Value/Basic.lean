import Dotfiles.Binary64.Basic
import Dotfiles.Text.Basic
import Dotfiles.Value.Moment

/-!
Document values: what a profile document or an options file holds. A mapping
keeps the order its keys were written in, and two keys that are the same number
are the same key, so `1`, `true` and `1.0` cannot stand side by side.
-/

namespace Dotfiles

/-- A value without parts; these are the values that can be keys of a mapping. -/
inductive Scalar where
  | null
  | bool (b : Bool)
  | int (n : Int)
  | float (x : Binary64)
  /-- The one NaN that has a written form. It is the same key as itself; any other NaN
  is a `float`, and equals nothing. -/
  | nan
  | text (t : Text)
  | bytes (data : List UInt8)
  | date (year month day : Nat)
  | moment (m : Moment)
  deriving DecidableEq, Repr

/-- A document value. -/
inductive Value where
  | scalar (s : Scalar)
  | list (items : List Value)
  | map (fields : List (Scalar × Value))
  /-- A set. Its members are in the order in which they were written first. -/
  | set (members : List Scalar)
  /-- Two values that belong together: a key and a value in a list of such. -/
  | pair (first second : Value)
  /-- What lies too deep in a value that contains itself. Such a value is unfolded to a
  depth that nothing but a walk through all of it gets to. -/
  | endless
  deriving Repr

/-- The fields of a mapping, in document order. -/
abbrev Fields := List (Scalar × Value)

namespace Scalar

/-- The integer a key is equal to as a number; the truth values count as one and zero. -/
def integer? : Scalar → Option Int
  | .bool b => some (if b then 1 else 0)
  | .int n => some n
  | .float x => x.toInt?
  | _ => none

/-- Whether two scalars are the same key. -/
def sameKey (a b : Scalar) : Bool :=
  match a.integer?, b.integer? with
  | some m, some n => decide (m = n)
  | none, none =>
    match a, b with
    | .float x, .float y => x.sameNumber y
    | .moment m, .moment n => m.isSame n
    | _, _ => decide (a = b)
  | _, _ => false

@[simp] theorem sameKey_text (s t : Text) :
    sameKey (.text s) (.text t) = decide (s = t) := by
  simp [sameKey, integer?]

theorem sameKey_comm_text (s : Scalar) (t : Text) (h : sameKey s (.text t) = true) :
    s = .text t := by
  cases s with
  | float x => cases hx : x.toInt? <;> simp [sameKey, integer?, hx] at h
  | _ => simp_all [sameKey, integer?]

end Scalar

namespace Fields

/-- The value stored under a key. -/
def get? (key : Scalar) : Fields → Option Value
  | [] => none
  | (k, v) :: rest => if k.sameKey key then some v else get? key rest

/-- The value stored under a text key. -/
def getText? (key : Text) (fields : Fields) : Option Value := get? (.text key) fields

/-- The fields with a value stored under a key. A key that is there already keeps
its place and its spelling; a new one goes to the end. -/
def insert (key : Scalar) (value : Value) : Fields → Fields
  | [] => [(key, value)]
  | (k, v) :: rest => if k.sameKey key then (k, value) :: rest else (k, v) :: insert key value rest

/-- What is stored under a text key is found there. -/
@[simp] theorem getText?_insert_self (key : Text) (value : Value) (fields : Fields) :
    getText? key (insert (.text key) value fields) = some value := by
  unfold getText?
  induction fields with
  | nil => simp [insert, get?]
  | cons field rest ih =>
    obtain ⟨k, v⟩ := field
    by_cases h : k.sameKey (.text key) = true
    · simp [insert, get?, h]
    · simp [insert, get?, h, ih]

/-- The fields without the given key. -/
def erase (key : Scalar) (fields : Fields) : Fields := fields.filter fun (k, _) => !k.sameKey key

/-- The fields written one after another: a repeated key keeps its first place and
takes the last value. -/
def ofList (pairs : List (Scalar × Value)) : Fields :=
  pairs.foldl (fun fields (k, v) => insert k v fields) []

end Fields

namespace Value

/-- The empty value. -/
def null : Value := .scalar .null

instance : Inhabited Value := ⟨null⟩

/-- A text as a value. -/
def text (t : Text) : Value := .scalar (.text t)

/-- Whether a value counts as not given: null, false, a zero, or one that can hold
something and is empty. -/
def isVoid : Value → Bool
  | .scalar .null => true
  | .scalar (.bool b) => !b
  | .scalar (.int n) => n = 0
  | .scalar (.float x) => x.isZero
  | .scalar (.text t) => t.isEmpty
  | .scalar (.bytes data) => data.isEmpty
  | .scalar .nan => false
  | .scalar (.date ..) => false
  | .scalar (.moment _) => false
  | .list items => items.isEmpty
  | .map fields => fields.isEmpty
  | .set members => members.isEmpty
  | .pair .. => false
  | .endless => false

end Value

end Dotfiles
