import Dotfiles.Glob.Failure
import Dotfiles.Regex.Basic
import Dotfiles.Text.Blank

/-!
Ignore rules. A line is read as in an ignore file of a version control system:
white space around it is dropped, a number sign begins a comment, an exclamation
mark takes names back. The rest is cut at slashes into segments, of which `**`
spans any number of levels, and becomes a regular expression over whole paths.
-/

namespace Dotfiles.Glob

/-- One rule: names that match its expression are ignored, or with `ignores` false
no longer ignored. -/
structure Rule where
  ignores : Bool
  expression : Regex
  deriving DecidableEq, Repr

/-- The segment that spans any number of levels. -/
def manyLevels : Text := ['*', '*']

/-- Any character that is not a slash. -/
def inName : Regex := .oneOf (.allBut '/')

/-- Any character that does not end a line. -/
def inLine : Regex := .oneOf (.allBut '\n')

/-- Nothing, or a slash with anything below it. -/
def anythingBelow : Regex := .optional (.seq (.char '/') (.star inLine))

/-- The class at the start of a text, just after its bracket: whether it is
negated, and its members. It ends at the first closing bracket that is not its
first member; `none` if there is no such bracket. -/
def openClass? (t : Text) : Option (Bool × Text) :=
  let (negated, rest) : Bool × Text :=
    match t with
    | '!' :: rest => (true, rest)
    | '^' :: rest => (true, rest)
    | rest => (false, rest)
  match rest with
  | ']' :: more => (Text.cut? ']' more).map fun (members, _) => (negated, ']' :: members)
  | more => (Text.cut? ']' more).map fun (members, _) => (negated, members)

/-- The ranges that the members of a class stand for. A hyphen between two members
makes a range of them; at either end it is a member. -/
def classRanges : Text → List (Char × Char)
  | [] => []
  | [a] => [(a, a)]
  | [a, b] => [(a, a), (b, b)]
  | a :: b :: c :: rest =>
    if b = '-' then (a, c) :: classRanges rest else (a, a) :: classRanges (b :: c :: rest)

/-- The expression of one segment, or `none` if it ends in a backslash. The first
argument counts the characters that belong to what has been read already. Several
asterisks side by side match what one does. -/
def segmentRegex? : Nat → Text → Option Regex
  | _, [] => some .empty
  | skip + 1, _ :: rest => segmentRegex? skip rest
  | 0, c :: rest =>
    match c with
    | '\\' =>
      match rest with
      | [] => none
      | escaped :: _ => (segmentRegex? 1 rest).map (.seq (.char escaped))
    | '*' =>
      if rest.head? = some '*' then segmentRegex? 0 rest
      else (segmentRegex? 0 rest).map (.seq (.star inName))
    | '?' => (segmentRegex? 0 rest).map (.seq inName)
    | '[' =>
      match openClass? rest with
      | some (negated, members) =>
        let width := members.length + (if negated then 2 else 1)
        (segmentRegex? width rest).map (.seq (.oneOf ⟨negated, classRanges members⟩))
      | none => (segmentRegex? 0 rest).map (.seq (.char '['))
    | c => (segmentRegex? 0 rest).map (.seq (.char c))

/-- The expression of the segments of a line, or `none` if one has none; `needSlash`
says whether a slash separates the next segment from those before it. -/
def segmentsRegex? (first needSlash : Bool) : List Text → Option Regex
  | [] => some .empty
  | segment :: rest =>
    let slash : Regex := if needSlash then .char '/' else .empty
    let ending : Regex := if rest.isEmpty then anythingBelow else .empty
    if segment = manyLevels then
      let (here, needSlash) : Regex × Bool :=
        match first, rest.isEmpty with
        | true, true => (.seq inName.plus anythingBelow, needSlash)
        | true, false => (.optional (.seq inLine.plus (.char '/')), false)
        | false, true => (.seq (.char '/') (.star inLine), needSlash)
        | false, false => (.optional (.seq (.char '/') inLine.plus), true)
      (segmentsRegex? false needSlash rest).map (.seq here)
    else do
      let here ← if segment = ['*'] then some inName.plus else segmentRegex? 0 segment
      let after ← segmentsRegex? false true rest
      pure (.seq slash (.seq here (.seq ending after)))

/-- Each run of segments that span any number of levels made one of them. -/
def collapseLevels : List Text → List Text
  | [] => []
  | [segment] => [segment]
  | segment :: next :: rest =>
    if segment = manyLevels ∧ next = manyLevels then collapseLevels (next :: rest)
    else segment :: collapseLevels (next :: rest)

/-- The segments anchored: a slash at the start ties a line to the root and is
dropped; a single segment may match at any level. -/
def anchorSegments : List Text → List Text
  | [] :: rest => rest
  | [segment] => if segment = manyLevels then [segment] else [manyLevels, segment]
  | [segment, []] => if segment = manyLevels then [segment, []] else [manyLevels, segment, []]
  | segments => segments

/-- The segments with everything below in place of an empty one at the end. -/
def openDirectory : List Text → List Text
  | [] => []
  | [segment] => [segment]
  | [segment, []] => [segment, manyLevels]
  | segment :: rest => segment :: openDirectory rest

/-- The expression of a line without white space and marks around it. -/
def lineRegex? (line : Text) : Option Regex :=
  let segments := collapseLevels (Text.split '/' line)
  if segments = [manyLevels, []] then
    some (.seq inLine.plus (.seq (.char '/') (.star inLine)))
  else
    match anchorSegments segments with
    | [] => none
    | anchored => segmentsRegex? true false (openDirectory anchored)

/-- A line without the white space around it. Where a backslash keeps a space at its
end, only the white space at the start goes. -/
def trimLine (line : Text) : Text :=
  match line.reverse with
  | ' ' :: '\\' :: _ => Text.stripLeft line
  | _ => Text.strip line

/-- The rule that a line is, if it is one: a blank line, a comment and a lone slash
are none. -/
def Rule.ofLine (line : Text) : Except Failure (Option Rule) :=
  let trimmed := trimLine line
  let build (ignores : Bool) (glob : Text) : Except Failure (Option Rule) :=
    match lineRegex? glob with
    | none => .error (.malformed .noExpression line)
    | some r => if r.isReversed then .error .reversedRange else .ok (some ⟨ignores, r⟩)
  match trimmed with
  | [] => .ok none
  | '#' :: _ => .ok none
  | ['/'] => .ok none
  | '!' :: glob => build false glob
  | glob => build true glob

/-- Whether a rule's expression matches a whole name; a line feed at the end of the
name may stay unmatched. -/
def Rule.isMatch (rule : Rule) (name : Text) : Bool :=
  rule.expression.accepts name ||
    match name.reverse with
    | '\n' :: rest => rule.expression.accepts rest.reverse
    | _ => false

end Dotfiles.Glob
