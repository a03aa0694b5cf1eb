import Dotfiles.Regex.Basic
import Dotfiles.Yaml.Timestamp

/-!
The kinds of nodes. The kind of a plain scalar without a tag is read off its text; a
tag names the kind.
-/

namespace Dotfiles.Yaml

/-- What a node is to be read as. -/
inductive Kind where
  | null
  | bool
  | int
  | float
  /-- A date or a moment. -/
  | timestamp
  | text
  /-- Bytes, written in base 64. -/
  | binary
  | list
  | map
  | set
  /-- A list of mappings of one field each, read as keys with their values. -/
  | pairs
  /-- A key that merges other mappings into its own. -/
  | merge
  /-- A lone equals sign; it is text as a key, and nothing elsewhere. -/
  | equals
  /-- No kind that documents can hold. -/
  | unknown
  deriving DecidableEq, Repr

namespace Kind

/-- The words for nothing. -/
def nullWords : List Text := ["".toList, "~".toList, "null".toList, "Null".toList, "NULL".toList]

/-- The words for truth values, with their values. -/
def boolWords : List (Text × Bool) :=
  [("yes".toList, true), ("no".toList, false), ("true".toList, true), ("false".toList, false),
    ("on".toList, true), ("off".toList, false)]

/-- The word in lower case, with a capital, and in upper case. -/
def spellings (word : Text) : List Text :=
  match word with
  | [] => [[]]
  | c :: rest => [c :: rest, c.toUpper :: rest, (c :: rest).map Char.toUpper]

/-- A decimal digit. -/
def digit : Regex := .oneOf (.between '0' '9')

/-- A digit of a given range, or an underscore. -/
def spaced (first last : Char) : CharSet := (CharSet.between first last).and (.single '_')

/-- A sign or none. -/
def sign : Regex := .optional (.oneOf ((CharSet.single '-').and (.single '+')))

/-- A digit of a number in base 60, after a colon. -/
def sixtieth : Regex := .chain [.char ':', .optional (.oneOf (.between '0' '5')), digit]

/-- A decimal digit and further ones, perhaps with underscores. -/
def digits : Regex := .seq digit (.star (.oneOf (spaced '0' '9')))

/-- The same without a zero at the start. -/
def positive : Regex := .seq (.oneOf (.between '1' '9')) (.star (.oneOf (spaced '0' '9')))

/-- An exponent of ten, which needs a sign, or none. -/
def exponent : Regex :=
  .optional (.chain
    [.oneOf ((CharSet.single 'e').and (.single 'E')), .oneOf ((CharSet.single '-').and (.single '+')),
      digit.plus])

/-- The forms of an integer: binary, octal, decimal, hexadecimal, and in base 60. -/
def intForms : List Regex :=
  [.chain [sign, .word "0b".toList, (Regex.oneOf (spaced '0' '1')).plus],
    .chain [sign, .char '0', (Regex.oneOf (spaced '0' '7')).plus],
    .seq sign (.alt (.char '0') positive),
    .chain [sign, .word "0x".toList,
      (Regex.oneOf (((spaced '0' '9').and (.between 'a' 'f')).and (.between 'A' 'F'))).plus],
    .chain [sign, positive, sixtieth.plus]]

/-- The forms of a floating point number: with digits in front of the point, without,
in base 60, infinite, and not a number. -/
def floatForms : List Regex :=
  [.chain [sign, digits, .char '.', .star (.oneOf (spaced '0' '9')), exponent],
    .chain [.char '.', digits, exponent],
    .chain [sign, digits, sixtieth.plus, .char '.', .star (.oneOf (spaced '0' '9'))],
    .seq sign (.word ".inf".toList),
    .seq sign (.word ".Inf".toList),
    .seq sign (.word ".INF".toList),
    .word ".nan".toList,
    .word ".NaN".toList,
    .word ".NAN".toList]

/-- The kind of a plain scalar. -/
def ofPlain (t : Text) : Kind :=
  if nullWords.contains t then .null
  else if boolWords.any fun (word, _) => (spellings word).contains t then .bool
  else if intForms.any fun form => form.accepts t then .int
  else if floatForms.any fun form => form.accepts t then .float
  else if Timestamp.isForm t then .timestamp
  else if t = "<<".toList then .merge
  else if t = "=".toList then .equals
  else .text

/-- The kind of a scalar that is left to its text by a tag, however it is written: that
of the text as a plain scalar. A line feed at the end of the text does not count, unless
there is nothing else. -/
def ofText (t : Text) : Kind :=
  match t.reverse with
  | '\n' :: [] => .text
  | '\n' :: rest => ofPlain rest.reverse
  | _ => ofPlain t

/-- The beginning of the tags of known kinds. -/
def tagStem : Text := "tag:yaml.org,2002:".toList

/-- The known kinds by the ends of their tags. -/
def byName : List (Text × Kind) :=
  [("null".toList, .null), ("bool".toList, .bool), ("int".toList, .int),
    ("float".toList, .float), ("timestamp".toList, .timestamp), ("str".toList, .text),
    ("binary".toList, .binary), ("seq".toList, .list), ("map".toList, .map), ("set".toList, .set),
    ("omap".toList, .pairs), ("pairs".toList, .pairs), ("merge".toList, .merge),
    ("value".toList, .equals)]

/-- The kind that a tag names. -/
def ofTag (t : Text) : Kind :=
  ((Text.dropPrefix? tagStem t).bind fun name => byName.lookup name).getD .unknown

end Kind

end Dotfiles.Yaml
