import Dotfiles.Text.Quoted

/-!
What can be wrong with a glob.
-/

namespace Dotfiles.Glob

/-- What is wrong with the text of a glob. -/
inductive Defect where
  /-- A backslash with nothing after it. -/
  | danglingEscape
  /-- A class without its closing bracket. -/
  | unclosedClass
  /-- A group of alternates inside another one. -/
  | nestedGroup
  /-- The end of a group that was not begun. -/
  | unopenedGroup
  /-- A group without its end. -/
  | unclosedGroup
  /-- A line that no expression can be made of. -/
  | noExpression
  deriving DecidableEq, Repr

/-- Why a glob cannot be compiled. -/
inductive Failure where
  /-- The glob is not well formed. -/
  | malformed (defect : Defect) (glob : Text)
  /-- A range in a class ends before it begins. -/
  | reversedRange
  deriving DecidableEq, Repr

/-- What a defect is called, in front of the glob that has it. -/
def Defect.label : Defect → String
  | .danglingEscape => "dangling escape in glob: "
  | .unclosedClass => "unclosed character class in glob: "
  | .nestedGroup => "nested alternate groups in glob: "
  | .unopenedGroup => "unopened alternate group in glob: "
  | .unclosedGroup => "unclosed alternate group in glob: "
  | .noExpression => "Invalid git pattern: "

/-- The message for a glob with a defect. -/
def Defect.message (defect : Defect) (glob : Text) : Text :=
  defect.label.toList ++ Text.quoted glob

end Dotfiles.Glob
