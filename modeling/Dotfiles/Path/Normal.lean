import Dotfiles.Path.Basic

/-!
Normal form of the paths written in a profile. Such a path is relative: slashes
at its start, empty components and single dots are dropped, and two dots remove
the component before them, at the root nothing. A path that begins with a drive
or the prefix of a network share is rejected instead.
-/

namespace Dotfiles.Path

/-- A path that begins with a prefix no profile path may begin with. -/
structure RejectedPrefix where
  path : Path
  mark : Text
  deriving DecidableEq, Repr

/-- The place of the first backslash at or after the given one. -/
def backslashFrom? (start : Nat) (t : Text) : Option Nat :=
  ((t.drop start).findIdx? (· == '\\')).map (start + ·)

/-- The drive or share prefix of a path, empty if it has none. Slashes count as
backslashes. Two of them begin the name of a server and, after the next one, of
a share; a path that ends before the share does is all prefix. A colon as second
character ends the letter of a drive. -/
def drivePrefix (p : Path) : Text :=
  let flat := p.map fun c => if c = '/' then '\\' else c
  match flat with
  | '\\' :: '\\' :: _ =>
    let start := if (flat.take 8).map Char.toUpper = "\\\\?\\UNC\\".toList then 8 else 2
    match (backslashFrom? start flat).bind fun i => backslashFrom? (i + 1) flat with
    | some stop => p.take stop
    | none => p
  | _ :: ':' :: _ => p.take 2
  | _ => []

/-- Whether a prefix is rejected: one that begins with two backslashes always, and
any other where paths have drives. -/
def isRejected (drives : Bool) (mark : Text) : Bool :=
  !mark.isEmpty && (drives || Text.startsWith mark ['\\', '\\'])

/-- The components read so far, the last one first, with one more piece of a path. -/
def step (stack : List Name) (piece : Text) : List Name :=
  if piece = [] ∨ piece = ['.'] then stack
  else if piece = ['.', '.'] then stack.tail
  else piece :: stack

/-- The components of the normal form of a path. -/
def normalComponents (p : Path) : List Name := ((segments p).foldl step []).reverse

/-- A property of every component read so far and of every piece that is kept holds of
the components after the next piece. -/
theorem forall_mem_step {P : Name → Prop} {stack : List Name} {piece : Text}
    (hs : ∀ name ∈ stack, P name)
    (hp : piece ≠ [] → piece ≠ ['.'] → piece ≠ ['.', '.'] → P piece) :
    ∀ name ∈ step stack piece, P name := by
  unfold step
  split
  · exact hs
  · rename_i h
    split
    · exact fun name hn => hs name (List.mem_of_mem_tail hn)
    · rename_i hd
      intro name hn
      rcases List.mem_cons.1 hn with rfl | hn
      · exact hp (fun e => h (.inl e)) (fun e => h (.inr e)) hd
      · exact hs name hn

/-- A component of a normal form is not empty, is not made of one or two dots alone, and
holds no slash. -/
theorem mem_normalComponents {p : Path} {name : Name} (h : name ∈ normalComponents p) :
    name ≠ [] ∧ name ≠ ['.'] ∧ name ≠ ['.', '.'] ∧ '/' ∉ name := by
  have fold : ∀ (pieces : List Text) (stack : List Name),
      (∀ piece ∈ pieces, '/' ∉ piece) →
      (∀ n ∈ stack, n ≠ [] ∧ n ≠ ['.'] ∧ n ≠ ['.', '.'] ∧ '/' ∉ n) →
      ∀ n ∈ pieces.foldl step stack, n ≠ [] ∧ n ≠ ['.'] ∧ n ≠ ['.', '.'] ∧ '/' ∉ n := by
    intro pieces
    induction pieces with
    | nil => exact fun stack _ hs => hs
    | cons piece rest ih =>
      intro stack hp hs
      refine ih _ (fun q hq => hp q (List.mem_cons_of_mem _ hq)) ?_
      exact forall_mem_step hs fun h₁ h₂ h₃ => ⟨h₁, h₂, h₃, hp piece List.mem_cons_self⟩
  exact fold (segments p) [] (fun _ => Text.not_mem_of_mem_split) (by simp) name
    (List.mem_reverse.1 h)

/-- The components of a normal form are found again in it. -/
theorem components_ofSegments_normalComponents (p : Path) :
    components (ofSegments (normalComponents p)) = normalComponents p :=
  components_ofSegments fun _ h => ⟨(mem_normalComponents h).1, (mem_normalComponents h).2.2.2⟩

/-- The normal form of a path, unless it begins with a rejected prefix; `drives`
says whether paths may begin with a drive. -/
def normalize (drives : Bool) (p : Path) : Except RejectedPrefix Path :=
  let mark := drivePrefix p
  if isRejected drives mark then .error ⟨p, mark⟩ else .ok (ofSegments (normalComponents p))

example : normalize false "/a/./b//../c/".toList = .ok "a/c".toList := rfl
example : normalize false "../..".toList = .ok [] := rfl
example : normalize false "x:notes".toList = .ok "x:notes".toList := rfl
example : normalize true "x:notes".toList = .error ⟨"x:notes".toList, "x:".toList⟩ := rfl

end Dotfiles.Path
