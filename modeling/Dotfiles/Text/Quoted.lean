import Dotfiles.Text.Printable

/-!
Quoted text, as messages show it. Single quotes are used unless the text holds
a single quote and no double one. The backslash, the chosen quote and every
character that is not printable are escaped.
-/

namespace Dotfiles.Text

/-- The quote a text is written between. -/
def quoteFor (t : Text) : Char := if t.contains '\'' && !t.contains '"' then '"' else '\''

/-- One character inside the given quotes. -/
def quoteChar (quote c : Char) : Text :=
  if c = '\\' || c = quote then ['\\', c]
  else if c = '\t' then ['\\', 't']
  else if c = '\n' then ['\\', 'n']
  else if c = '\r' then ['\\', 'r']
  else if isPrintable c then [c]
  else if c.toNat < 0x100 then '\\' :: 'x' :: hex 2 c.toNat
  else if c.toNat < 0x10000 then '\\' :: 'u' :: hex 4 c.toNat
  else '\\' :: 'U' :: hex 8 c.toNat

/-- The text between quotes. -/
def quoted (t : Text) : Text :=
  let quote := quoteFor t
  quote :: t.flatMap (quoteChar quote) ++ [quote]

/-- One byte inside the given quotes: as the ASCII character that it is, or by its number. -/
def quoteByte (quote : Char) (b : UInt8) : Text :=
  if b.toNat < 0x7f then quoteChar quote (Char.ofNat b.toNat) else '\\' :: 'x' :: hex 2 b.toNat

/-- Bytes between quotes, behind a letter that tells them from text. -/
def quotedBytes (data : List UInt8) : Text :=
  let quote := quoteFor (data.map fun b => Char.ofNat b.toNat)
  'b' :: quote :: data.flatMap (quoteByte quote) ++ [quote]

/-- Texts, each quoted, as a list in brackets. -/
def quotedList (ts : List Text) : Text :=
  '[' :: [',', ' '].intercalate (ts.map quoted) ++ [']']

example : quoted "it's".toList = "\"it's\"".toList := by decide
example : quoted "a\\\n".toList = "'a\\\\\\n'".toList := by decide
example : quotedBytes [0x69, 0x27, 0x0a, 0xff] = "b\"i'\\n\\xff\"".toList := by decide
example : quoted ['\x7f', Char.ofNat 0x200b] = "'\\x7f\\u200b'".toList := by decide +kernel

end Dotfiles.Text
