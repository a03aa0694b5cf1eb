import Dotfiles.Glob.Matcher
import Dotfiles.Trace.Event

/-!
The attributes of a target. Each of them is optional in a declaration, and what a
declaration leaves out is inherited.
-/

namespace Dotfiles

/-- What a declaration says about a target. -/
structure Attributes where
  source : Option Path
  method : Option Method
  recursive : Option Bool
  ignore : Option GlobList
  deriving DecidableEq, Repr

namespace Attributes

/-- The attributes that say nothing. -/
def empty : Attributes := ⟨none, none, none, none⟩

/-- The attributes that name a source. -/
def ofSource (source : Path) : Attributes := { Attributes.empty with source := some source }

/-- The attributes that name a method. -/
def ofMethod (method : Method) : Attributes := { Attributes.empty with method := some method }

/-- The ignore list, empty if there is none. -/
def globs (a : Attributes) : GlobList := a.ignore.getD GlobList.empty

/-- The attributes with further ones declared for the same target. A later value
replaces an earlier one, but globs add up. -/
def merge (a b : Attributes) : Attributes where
  source := b.source.or a.source
  method := b.method.or a.method
  recursive := b.recursive.or a.recursive
  ignore := if b.globs.isEmpty then a.ignore else some (a.globs.union b.globs)

@[simp] theorem merge_empty (a : Attributes) : a.merge Attributes.empty = a := by
  simp [merge, Attributes.empty, globs, GlobList.empty, GlobList.isEmpty]

theorem globs_merge (a b : Attributes) : (a.merge b).globs = a.globs.union b.globs := by
  unfold merge globs
  cases hb : b.globs.isEmpty with
  | true =>
    have : b.globs.globs = [] := by simpa [GlobList.isEmpty] using hb
    unfold globs at hb this
    simp [hb, GlobList.union, this]
  | false =>
    unfold globs at hb
    simp [hb]

end Attributes

end Dotfiles
