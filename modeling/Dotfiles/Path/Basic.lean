import Dotfiles.Text.Basic

/-!
Paths as texts, their components, and the order of paths. Paths are compared
component by component, so everything below a path follows it at once, whatever
characters its neighbours hold.
-/

namespace Dotfiles

/-- A path, with slashes between its components. -/
abbrev Path := Text

/-- A single component of a path. -/
abbrev Name := Text

namespace Path

/-- What stands between the slashes, empty pieces included. -/
def segments (p : Path) : List Text := Text.split '/' p

/-- The path with the given pieces between its slashes. -/
def ofSegments (pieces : List Text) : Path := Text.join '/' pieces

theorem ofSegments_segments (p : Path) : ofSegments (segments p) = p := Text.join_split '/' p

/-- The components of a path: its pieces that are not empty. -/
def components (p : Path) : List Name := (segments p).filter fun s => !s.isEmpty

/-- A component is never empty and holds no slash. -/
theorem mem_components {p : Path} {name : Name} (h : name ∈ components p) :
    name ≠ [] ∧ '/' ∉ name := by
  obtain ⟨hm, hne⟩ := List.mem_filter.1 h
  exact ⟨by simpa using hne, Text.not_mem_of_mem_split hm⟩

/-- Components are found again in the path that is put together from them. -/
theorem components_ofSegments {names : List Name} (h : ∀ name ∈ names, name ≠ [] ∧ '/' ∉ name) :
    components (ofSegments names) = names := by
  cases names with
  | nil => rfl
  | cons first rest =>
    have hs : segments (ofSegments (first :: rest)) = first :: rest :=
      Text.split_join (fun name hn => (h name hn).2) (by simp)
    rw [components, hs, List.filter_eq_self]
    intro name hn
    simp [(h name hn).1]

/-- Whether a path begins at the root. -/
def isRooted : Path → Bool
  | '/' :: _ => true
  | _ => false

/-- The path without its last component; slashes at the end and repeated ones do
not count. What is left of a rooted path is never shorter than the root. -/
def parent (p : Path) : Path :=
  let above := ofSegments (components p).dropLast
  if isRooted p then '/' :: above else above

/-- The order of component lists: the first difference decides by code point, and
a list comes before every longer one that begins with it. -/
def componentsBefore : List Name → List Name → Bool
  | _, [] => false
  | [], _ :: _ => true
  | a :: as, b :: bs => if a = b then componentsBefore as bs else Text.before a b

/-- The order of paths, component by component. -/
def before (p q : Path) : Bool := componentsBefore (components p) (components q)

/-- Items in the order of their paths; those with the same components keep their places. -/
def sortOn {α : Type} (path : α → Path) (items : List α) : List α :=
  items.mergeSort fun a b => !before (path b) (path a)

/-- A path for a message: the empty path is the root of a profile, shown as a dot. -/
def shown (p : Path) : Path := if p.isEmpty then ['.'] else p

end Path

end Dotfiles
