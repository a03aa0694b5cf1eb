import Dotfiles.Compile.Expansion
import Dotfiles.Settings.Basic

/-!
Compiling a profile into a table of actions. The entries are taken in reverse order
of their targets, so everything declared below a target is in the table before the
target's own expansion comes to it.
-/

namespace Dotfiles

/-- What a compilation gives. -/
structure Compilation where
  table : Table
  diagnostics : List Diagnostic

namespace Compilation

/-- The table with the actions of one more entry. -/
def addEntry (w : World) (settings : Settings) (table : Table) (entry : Entry) : Traced Table := do
  if entry.method = .link && !w.platform.links then
    Traced.fail (.linksUnsupported entry.source)
  Traced.emit (.entry entry.target entry.source)
  let target ← Traced.join [settings.target, entry.target]
  let source ← Traced.join [settings.source, entry.source]
  Expansion.visit w.files entry (Expansion.depthLimit w.files) target source table

/-- The table with the actions of further entries, one entry after another. -/
def addEntries (w : World) (settings : Settings) : List Entry → Table → Traced Table
  | [], table => pure table
  | entry :: rest, table => do
    let table ← addEntry w settings table entry
    addEntries w settings rest table

end Compilation

/-- Compiles a profile. -/
def Profile.compile (w : World) (settings : Settings) (profile : Profile) :
    Traced Compilation := do
  Traced.emit (.sourceRoot settings.source)
  Traced.emit (.targetRoot settings.target)
  let entries ← profile.entries
  Traced.emit (.compiling entries.length)
  let table ← Compilation.addEntries w settings entries.reverse []
  Traced.emit .compiled
  return ⟨table, profile.diagnostics⟩

end Dotfiles
