import Dotfiles.Error
import Dotfiles.Text.Word
import Dotfiles.World

/-!
References in the paths of the options file: to environment variables, after a dollar
sign, with or without braces, and to home directories, after a tilde at the start. A
backslash in front of either sign takes its meaning away.

Variables are replaced in two passes over the whole path, those in braces first. What a
pass puts in is read by the passes after it like the rest of the path.
-/

namespace Dotfiles.Reference

/-- The error of a reference to a variable without a value; `label` says what the path
is for. A variable whose name has no encoding cannot so much as be asked for. -/
def undefined (label name : Text) : Error :=
  if name.any Text.isUnencodable then .unusableName name .unencodable
  else .usage (.undefinedVariable label name)

/-- The value of a variable that a path refers to. -/
def valueOf (w : World) (label name : Text) : Except Error Text :=
  match w.valueOf? name with
  | some value => .ok value
  | none => .error (undefined label name)

mutual

/-- The path with the variables in braces replaced; `previous` is the character before. -/
def expandBraced (w : World) (label : Text) (previous : Char) : Text → Except Error Text
  | [] => .ok []
  | '$' :: '\x7b' :: rest =>
    if previous = '\\' then (fun t => '$' :: '\x7b' :: t) <$> expandBraced w label '\x7b' rest
    else expandInBraces w label [] rest
  | c :: rest => (c :: ·) <$> expandBraced w label c rest

/-- The same after an opening brace, behind the part of a name read so far. Braces with
nothing between them, and one that is never closed, are kept. -/
def expandInBraces (w : World) (label name : Text) : Text → Except Error Text
  | [] => .ok ('$' :: '\x7b' :: name)
  | c :: rest =>
    if c = '\x7d' then
      if name.isEmpty then
        (fun t => '$' :: '\x7b' :: '\x7d' :: t) <$> expandBraced w label c rest
      else do
        let value ← valueOf w label name
        return value ++ (← expandBraced w label c rest)
    else expandInBraces w label (name ++ [c]) rest

end

/-- What the name after a dollar sign stands for. A dollar sign without a name is kept. -/
def namedValue (w : World) (label name : Text) : Except Error Text :=
  if name.isEmpty then .ok ['$'] else valueOf w label name

/-- The path with the variables without braces replaced; `name` is the part of a name
read since a dollar sign, if one came before, and `previous` the character before. -/
def expandPlain (w : World) (label : Text) : Option Text → Char → Text → Except Error Text
  | none, _, [] => .ok []
  | some name, _, [] => namedValue w label name
  | none, previous, c :: rest =>
    if c = '$' && previous ≠ '\\' then expandPlain w label (some []) c rest
    else (c :: ·) <$> expandPlain w label none c rest
  | some name, _, c :: rest =>
    if Text.isWord c then expandPlain w label (some (name ++ [c])) c rest
    else do
      let value ← namedValue w label name
      let after ←
        if c = '$' then expandPlain w label (some []) c rest
        else (c :: ·) <$> expandPlain w label none c rest
      return value ++ after

/-- The path with all variables replaced, and dollar signs without their backslashes. -/
def expandVariables (w : World) (label : Text) (p : Path) : Except Error Path := do
  let braced ← expandBraced w label ' ' p
  let plain ← expandPlain w label none ' ' braced
  return Text.unescape '$' plain

/-- The home directory that a name after a tilde means; no name means the user's own. -/
def homeOf? (w : World) (name : Text) : Option Path :=
  let home :=
    if name.isEmpty then
      ((w.filled? "HOME".toList).or (w.filled? "LOGDIR".toList)).or w.ownHome?
    else w.homeOf? name
  home.filter fun h => !h.isEmpty

/-- The path with the home directory in place of a tilde at its start, for a user who can
be asked for (see `checkUser`). In a path with an escaped tilde only the escapes are
resolved. -/
def expandTilde (w : World) (p : Path) : Path :=
  if Text.hasEscaped '~' p then Text.unescape '~' p
  else
    match p with
    | '~' :: rest =>
      let name := rest.takeWhile (· ≠ '/')
      match homeOf? w name with
      | some home => home ++ rest.dropWhile (· ≠ '/')
      | none => p
    | _ => p

/-- The name after a tilde at the start of a path, unless an escaped tilde keeps it from
meaning a user. -/
def userOf? (p : Path) : Option Text :=
  if Text.hasEscaped '~' p then none
  else
    match p with
    | '~' :: rest => some (rest.takeWhile (· ≠ '/'))
    | _ => none

/-- Fails if a path begins with a user who cannot be asked for: one with a name that the
system does not know and could not be handed. -/
def checkUser (w : World) (p : Path) : Except Error Unit :=
  match userOf? p with
  | none => .ok ()
  | some name =>
    match homeOf? w name, Path.defect? name with
    | none, some defect => .error (.unusableName name defect)
    | _, _ => .ok ()

/-- The path with all references replaced. -/
def expand (w : World) (label : Text) (p : Path) : Except Error Path := do
  let replaced ← expandVariables w label p
  checkUser w replaced
  return expandTilde w replaced

end Dotfiles.Reference
