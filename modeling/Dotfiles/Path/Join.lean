import Dotfiles.Path.Basic

/-!
Joining paths. Each part is cleaned and put after the ones before it, or in
their place if it is rooted; then every component in front of two dots is
cancelled together with them. A line feed at the very end of a path is looked
past where a final component is recognised.
-/

namespace Dotfiles.Path

/-- The pieces without the empty ones, except for the one before a leading slash;
the bare root keeps both of its pieces. -/
def squeeze : List Text → List Text
  | [] => []
  | first :: rest =>
    let kept := rest.filter fun s => !s.isEmpty
    if first.isEmpty && kept.isEmpty then [[], []] else first :: kept

/-- The pieces without single dots at their start, as long as another one follows. -/
def dropLeadingDots : List Text → List Text
  | [] => []
  | piece :: rest =>
    if piece = ['.'] ∧ rest ≠ [] then dropLeadingDots rest else piece :: rest

/-- The pieces without a single dot at their end. -/
def dropFinalDot : List Text → List Text
  | [] => []
  | [piece, ['.']] => [piece]
  | [piece, ['.', '\n']] => [piece ++ ['\n']]
  | piece :: rest => piece :: dropFinalDot rest

/-- The pieces without single dots, except for the last piece. -/
def dropInnerDots : List Text → List Text
  | [] => []
  | [piece] => [piece]
  | piece :: rest => if piece = ['.'] then dropInnerDots rest else piece :: dropInnerDots rest

/-- The text after a leading slash without the pairs of dots it begins with: nothing
lies above the root. -/
def dropClimbs : Text → Text
  | '.' :: '.' :: '/' :: rest => dropClimbs rest
  | '.' :: '.' :: rest => dropClimbs rest
  | t => t

/-- The pieces of a path without those that mean nothing. -/
def cleanPieces (pieces : List Text) : List Text :=
  match dropFinalDot (dropLeadingDots (squeeze pieces)) with
  | [] => []
  | first :: rest => first :: dropInnerDots rest

/-- The path without repeated slashes, a slash at its end, and single dots. The
current directory is a dot, and the empty path stays empty. -/
def clean (p : Path) : Path :=
  if p.isEmpty then []
  else
    match ofSegments (cleanPieces (segments p)) with
    | [] => ['.']
    | '/' :: rest => '/' :: dropClimbs rest
    | q => q

/-- Whether a piece is cancelled by two dots after it. -/
def isCancelled (piece : Text) : Bool := piece ≠ [] && piece ≠ ['.', '.']

/-- One pass from left to right over the pieces that cancels a component together
with two dots after it. The piece after a cancelled pair is passed over: the next
pair is looked for behind it. -/
def cancel : List Text → List Text
  | [] => []
  | [piece] => [piece]
  | piece :: dots :: rest =>
    if isCancelled piece && dots = ['.', '.'] then
      match rest with
      | [] => [[]]
      | next :: others => next :: cancel others
    else if isCancelled piece && dots = ['.', '.', '\n'] && rest.isEmpty then [['\n']]
    else piece :: cancel (dots :: rest)

/-- The given number of passes, one after another, or fewer if one of them changes
nothing. -/
def cancelTimes : Nat → List Text → List Text
  | 0, pieces => pieces
  | n + 1, pieces =>
    let next := cancel pieces
    if next = pieces then pieces else cancelTimes n next

/-- All cancelling done. A pass that changes anything leaves fewer pieces, so there
are at most as many passes as pieces. -/
def cancelAll (p : Path) : Path :=
  let pieces := segments p
  ofSegments (cancelTimes pieces.length pieces)

/-- The path joined so far with one more part. -/
def append (result part : Path) : Path :=
  if part.isEmpty then result
  else
    let part := clean part
    if isRooted part then part
    else if result = [] ∨ result = ['/'] then result ++ part
    else result ++ '/' :: part

/-- The parts joined to one path. Empty parts are passed over, and a rooted part
takes the place of all parts before it. -/
def join (parts : List Path) : Path := clean (cancelAll (clean (parts.foldl append [])))

example : join ["/a/".toList, "./b//c".toList, "../d".toList] = "/a/b/d".toList := by decide +kernel
example : join ["/".toList, [], "x".toList] = "/x".toList := by decide +kernel
example : join ["a".toList, "..".toList] = [] := by decide +kernel

end Dotfiles.Path
