/-!
Why a text is no document, or a document has no value.
-/

namespace Dotfiles.Yaml

/-- What is wrong with a part of a document that is well formed but stands for nothing. -/
inductive Defect where
  /-- A truth value is another word than those for true and false. -/
  | unknownWord
  /-- A number has no digits at all. -/
  | empty
  /-- A number, a date or a character is written in a form that none has, or is one that
  does not exist. -/
  | malformed
  /-- A time is not written as one. -/
  | notATime
  /-- A mapping stands where only a text can be read as a time. -/
  | notAText
  /-- A number, or the number of a character, is too large to count with. -/
  | tooLarge
  deriving DecidableEq, Repr

/-- Why a text has no value. -/
inductive Failure where
  /-- It is not well formed, or says what no value can say. -/
  | invalid
  /-- Some part of it stands for nothing. -/
  | defective (defect : Defect)
  /-- It goes deeper than it may. -/
  | tooDeep
  deriving DecidableEq, Repr

/-- What a well-formed text has at some place; a text that has nothing there is invalid. -/
def wellFormed {α : Type} : Option α → Except Failure α
  | some a => .ok a
  | none => .error .invalid

/-- The value of a part, which may be defective. -/
def sound {α : Type} (x : Except Defect α) : Except Failure α := x.mapError .defective

end Dotfiles.Yaml
