import Dotfiles.Glob.Failure

/-!
Alternates in globs: a group of options between braces, separated by commas,
stands for each of them in turn. A glob is cut into tokens, the tokens are
grouped into pieces, and the pieces are multiplied out, the leftmost group
varying slowest. Escapes and classes pass through whole, so a brace or a comma
inside them is an ordinary character.
-/

namespace Dotfiles.Glob

/-- The smallest parts of a glob that the grouping looks at. -/
inductive Token where
  /-- Text that stands for itself: a character, an escape, or a class. -/
  | literal (t : Text)
  | opening
  | comma
  | closing
  deriving DecidableEq, Repr

/-- How far a class has been read. -/
inductive ClassStage where
  /-- Right after the bracket: a negation may come. -/
  | first
  /-- After the negation: a closing bracket is still a member. -/
  | second
  /-- Among the members: a closing bracket ends the class. -/
  | body
  deriving DecidableEq, Repr

/-- Where a glob is being read. -/
inductive Mode where
  | outside
  | afterBackslash
  /-- Inside a class, of which the given text has been read. -/
  | inClass (read : Text) (stage : ClassStage)
  deriving DecidableEq, Repr

/-- The token that a character outside of escapes and classes is. -/
def Token.ofChar (c : Char) : Token :=
  if c = '\x7b' then .opening
  else if c = '\x7d' then .closing
  else if c = ',' then .comma
  else .literal [c]

/-- The stage of a class after a member or a negation. -/
def ClassStage.next (stage : ClassStage) (c : Char) : ClassStage :=
  if stage = .first ∧ (c = '!' ∨ c = '^') then .second else .body

/-- The defect of a glob that ends where it is being read. -/
def Mode.ending : Mode → Option Defect
  | .outside => none
  | .afterBackslash => some .danglingEscape
  | .inClass .. => some .unclosedClass

/-- The tokens of a glob, and the defect it ends with if it breaks off inside an
escape or a class. -/
def lex : Mode → Text → List Token × Option Defect
  | mode, [] => ([], mode.ending)
  | .outside, c :: rest =>
    if c = '\\' then lex .afterBackslash rest
    else if c = '[' then lex (.inClass [c] .first) rest
    else
      let (tokens, ending) := lex .outside rest
      (Token.ofChar c :: tokens, ending)
  | .afterBackslash, c :: rest =>
    let (tokens, ending) := lex .outside rest
    (.literal ['\\', c] :: tokens, ending)
  | .inClass read stage, c :: rest =>
    if c = ']' ∧ stage = .body then
      let (tokens, ending) := lex .outside rest
      (.literal (read ++ [c]) :: tokens, ending)
    else lex (.inClass (read ++ [c]) (stage.next c)) rest

/-- A glob is a sequence of fixed texts and groups of options. -/
inductive Piece where
  | fixed (t : Text)
  | group (options : List Text)
  deriving DecidableEq, Repr

/-- A group that is being read: its finished options and the one begun. -/
structure OpenGroup where
  finished : List Text
  current : Text
  deriving DecidableEq, Repr

/-- The pieces that tokens form. Groups neither nest nor overlap the end; `ending`
is the defect that the glob ends with, reported where the tokens are used up. -/
def pieces (ending : Option Defect) : Option OpenGroup → List Token → Except Defect (List Piece)
  | group, [] =>
    match ending, group with
    | some defect, _ => .error defect
    | none, some _ => .error .unclosedGroup
    | none, none => .ok []
  | none, token :: rest =>
    match token with
    | .opening => pieces ending (some ⟨[], []⟩) rest
    | .closing => .error .unopenedGroup
    | .comma => (.fixed [','] :: ·) <$> pieces ending none rest
    | .literal t => (.fixed t :: ·) <$> pieces ending none rest
  | some group, token :: rest =>
    match token with
    | .opening => .error .nestedGroup
    | .closing => (.group (group.finished ++ [group.current]) :: ·) <$> pieces ending none rest
    | .comma => pieces ending (some ⟨group.finished ++ [group.current], []⟩) rest
    | .literal t => pieces ending (some { group with current := group.current ++ t }) rest

/-- Every text that picks one option of each group. -/
def multiplyOut : List Piece → List Text
  | [] => [[]]
  | .fixed t :: rest => (multiplyOut rest).map (t ++ ·)
  | .group options :: rest => options.flatMap fun option => (multiplyOut rest).map (option ++ ·)

/-- The globs without groups that a glob stands for. -/
def alternates (glob : Text) : Except Failure (List Text) :=
  let (tokens, ending) := lex .outside glob
  match pieces ending none tokens with
  | .ok found => .ok (multiplyOut found)
  | .error defect => .error (.malformed defect glob)

example : alternates "a\x7bb,c\x7d.[\x7b,]".toList =
    .ok ["ab.[\x7b,]".toList, "ac.[\x7b,]".toList] := rfl
example : alternates "\x7da\\".toList = .error (.malformed .unopenedGroup "\x7da\\".toList) := rfl

end Dotfiles.Glob
