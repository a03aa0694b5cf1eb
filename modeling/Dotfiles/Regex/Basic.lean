/-!
Regular expressions over characters, and matching by the set of what may still
follow: after each character that set holds only parts of the expression, so it
never grows beyond the expression's size.
-/

namespace Dotfiles

/-- A set of characters: those in some range, or with `negated` all others. -/
structure CharSet where
  negated : Bool
  ranges : List (Char × Char)
  deriving DecidableEq, Repr

namespace CharSet

/-- Whether a character is in the set. -/
def contains (set : CharSet) (c : Char) : Bool :=
  set.negated != set.ranges.any fun (first, last) =>
    decide (first.toNat ≤ c.toNat) && decide (c.toNat ≤ last.toNat)

/-- The characters between two, both included. -/
def between (first last : Char) : CharSet := ⟨false, [(first, last)]⟩

/-- The characters of both sets, neither of which is negated. -/
def and (a b : CharSet) : CharSet := ⟨false, a.ranges ++ b.ranges⟩

/-- The set of a single character. -/
def single (c : Char) : CharSet := ⟨false, [(c, c)]⟩

/-- Every character but the given one. -/
def allBut (c : Char) : CharSet := ⟨true, [(c, c)]⟩

/-- Whether some range ends before it begins. -/
def isReversed (set : CharSet) : Bool :=
  set.ranges.any fun (first, last) => decide (last.toNat < first.toNat)

end CharSet

/-- A regular expression. -/
inductive Regex where
  /-- Matches the empty text only. -/
  | empty
  /-- Matches one character of the set. -/
  | oneOf (set : CharSet)
  | seq (r s : Regex)
  | alt (r s : Regex)
  | star (r : Regex)
  deriving DecidableEq, Repr

namespace Regex

/-- One or more times. -/
def plus (r : Regex) : Regex := .seq r (.star r)

/-- Once or not at all. -/
def optional (r : Regex) : Regex := .alt .empty r

/-- The expression that matches a single character. -/
def char (c : Char) : Regex := .oneOf (.single c)

/-- The expression that matches a single text. -/
def word : List Char → Regex
  | [] => .empty
  | c :: rest => .seq (.char c) (word rest)

/-- The expressions one after another. -/
def chain : List Regex → Regex
  | [] => .empty
  | [r] => r
  | r :: rest => .seq r (chain rest)

/-- Whether the empty text matches. -/
def nullable : Regex → Bool
  | .empty => true
  | .oneOf _ => false
  | .seq r s => r.nullable && s.nullable
  | .alt r s => r.nullable || s.nullable
  | .star _ => true

/-- What follows the first of two expressions in sequence, without an idle step. -/
def andThen : Regex → Regex → Regex
  | .empty, s => s
  | r, s => .seq r s

/-- What may follow after a character has been matched: the rest of a text matches
one of these exactly if the character and the rest match the expression. -/
def residuals (c : Char) : Regex → List Regex
  | .empty => []
  | .oneOf set => if set.contains c then [.empty] else []
  | .seq r s =>
    (residuals c r).map (·.andThen s) ++ if r.nullable then residuals c s else []
  | .alt r s => residuals c r ++ residuals c s
  | .star r => (residuals c r).map (·.andThen (.star r))

/-- Whether a text matches one of the expressions. -/
def anyAccepts : List Regex → List Char → Bool
  | states, [] => states.any nullable
  | states, c :: rest => anyAccepts (states.flatMap (residuals c)).eraseDups rest

/-- Whether the whole text matches. -/
def accepts (r : Regex) (t : List Char) : Bool := anyAccepts [r] t

/-- Whether some range of a set ends before it begins. -/
def isReversed : Regex → Bool
  | .empty => false
  | .oneOf set => set.isReversed
  | .seq r s => r.isReversed || s.isReversed
  | .alt r s => r.isReversed || s.isReversed
  | .star r => r.isReversed

end Regex

end Dotfiles
