import Dotfiles.Binary64.Shortest
import Dotfiles.Text.Quoted
import Dotfiles.Value.Basic

/-!
The written forms of document values in messages: the name of a value's type,
its quoted form, in which texts stand between quotes, and its plain form, in
which a text is written as it is.
-/

namespace Dotfiles

/-- Numbers have an exponent from `1e+16` up and below `0.0001`, of at least two digits. -/
def floatLayout : Binary64.Layout :=
  { leastPositional := -4, mostPositional := 15, exponentWidth := 2 }

namespace Scalar

/-- The name of a scalar's type. -/
def typeName : Scalar → String
  | .null => "NoneType"
  | .bool _ => "bool"
  | .int _ => "int"
  | .float _ => "float"
  | .nan => "float"
  | .text _ => "str"
  | .bytes _ => "bytes"
  | .date .. => "date"
  | .moment _ => "datetime"

/-- The quoted form. -/
def quoted : Scalar → Text
  | .null => "None".toList
  | .bool true => "True".toList
  | .bool false => "False".toList
  | .int n => Text.ofInt n
  | .float x => x.write floatLayout
  | .nan => Binary64.nan.write floatLayout
  | .text t => Text.quoted t
  | .bytes data => Text.quotedBytes data
  | .moment m => m.quoted
  | .date year month day =>
    "datetime.date(".toList ++ Text.ofNat year ++ ", ".toList ++ Text.ofNat month ++
      ", ".toList ++ Text.ofNat day ++ ")".toList

/-- The plain form. -/
def plain : Scalar → Text
  | .text t => t
  | .date year month day => Moment.dateText year month day
  | .moment m => m.written ' '
  | s => s.quoted

/-- Whether a scalar has a written form. An integer with more digits than can be read
has none. -/
def isWritable : Scalar → Bool
  | .int n => n.natAbs < Nat.pow 10 Text.digitLimit
  | _ => true

end Scalar

namespace Value

/-- The name of a value's type. -/
def typeName : Value → String
  | .scalar s => s.typeName
  | .list _ => "list"
  | .map _ => "dict"
  | .set _ => "set"
  | .pair .. => "tuple"
  | .endless => "list"

/-- Items inside brackets, separated by commas. -/
def bracketed (opening closing : Char) (items : List Text) : Text :=
  opening :: ", ".toList.intercalate items ++ [closing]

mutual

/-- The quoted form. -/
def quoted : Value → Text
  | .scalar s => s.quoted
  | .list items => bracketed '[' ']' (quotedItems items)
  | .map fields => bracketed '\x7b' '\x7d' (quotedFields fields)
  | .set [] => "set()".toList
  | .set members => bracketed '\x7b' '\x7d' (members.map Scalar.quoted)
  | .pair first second => bracketed '(' ')' [quoted first, quoted second]
  | .endless => "[...]".toList

/-- The quoted forms of the items of a list. -/
def quotedItems : List Value → List Text
  | [] => []
  | v :: rest => quoted v :: quotedItems rest

/-- The quoted forms of the fields of a mapping. -/
def quotedFields : List (Scalar × Value) → List Text
  | [] => []
  | (k, v) :: rest => (k.quoted ++ ':' :: ' ' :: quoted v) :: quotedFields rest

end

/-- The plain form. -/
def plain : Value → Text
  | .scalar s => s.plain
  | v => v.quoted

end Value

end Dotfiles
