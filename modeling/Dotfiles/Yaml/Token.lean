import Dotfiles.Text.Basic
import Dotfiles.Yaml.Failure

/-!
The tokens of a document. Indentation appears among them as the beginnings and ends of
blocks.
-/

namespace Dotfiles.Yaml

/-- An instruction in front of a document. -/
inductive Directive where
  /-- The major number of the version it is written for. -/
  | version (major : Nat)
  /-- What a handle in tags stands for. -/
  | handle (name expansion : Text)
  /-- Any other instruction; it is ignored. -/
  | other
  deriving DecidableEq, Repr

/-- A token. -/
inductive Token where
  | directive (d : Directive)
  | documentStart
  | documentEnd
  | blockListStart
  | blockMapStart
  | blockEnd
  | flowListStart
  | flowListEnd
  | flowMapStart
  | flowMapEnd
  /-- The hyphen in front of an item. -/
  | item
  | comma
  | key
  | value
  | alias (name : Text)
  | anchor (name : Text)
  /-- A tag: a handle that stands for its beginning, if it has one, and the rest. -/
  | tag (handle : Option Text) (suffix : Text)
  | scalar (text : Text) (plain : Bool)
  deriving DecidableEq, Repr

/-- The tokens at the beginning of a text, as far as it can be cut into tokens, and why it
cannot be cut further, if that is so. -/
structure Tokens where
  known : List Token
  failure : Option Failure

end Dotfiles.Yaml
