import Dotfiles.Path.Basic

/-!
Settings of a compilation: the two roots and how much of the trace to show. They
are given whole, or piece by piece on top of others.
-/

namespace Dotfiles

/-- The settings of a compilation. -/
structure Settings where
  source : Path
  target : Path
  verbosity : Int
  deriving DecidableEq, Repr

/-- Settings given by name. Names of no setting are kept in the order given. -/
structure Options where
  source : Option Path
  target : Option Path
  verbosity : Option Int
  unknown : List Text
  deriving DecidableEq, Repr

/-- The options that set nothing. -/
def Options.empty : Options := ⟨none, none, none, []⟩

/-- Why options make no settings. -/
inductive OptionsFault where
  | missing (name : Text)
  | unknown (name : Text)
  deriving DecidableEq, Repr

/-- The message of options that make no settings. -/
def OptionsFault.message : OptionsFault → String
  | .missing name => s!"compile_profile() missing option: {name.str}"
  | .unknown name => s!"CompileConfig.__init__() got an unexpected keyword argument '{name.str}'"

namespace Settings

/-- The settings that options make on their own. Both roots are needed, and names of no
setting do not matter. -/
def ofOptions (o : Options) : Except OptionsFault Settings :=
  match o.source, o.target with
  | some source, some target => .ok ⟨source, target, o.verbosity.getD 0⟩
  | none, _ => .error (.missing "source".toList)
  | some _, none => .error (.missing "target".toList)

/-- The settings with options on top of them. Here every name has to be one of a setting. -/
def override (s : Settings) (o : Options) : Except OptionsFault Settings :=
  match o.unknown with
  | name :: _ => .error (.unknown name)
  | [] => .ok ⟨o.source.getD s.source, o.target.getD s.target, o.verbosity.getD s.verbosity⟩

end Settings

end Dotfiles
