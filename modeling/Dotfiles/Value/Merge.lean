import Dotfiles.Value.Basic

/-!
Merging one document value into another. Mappings are merged key by key and
lists are put one after the other; null leaves the earlier value as it is, and
every other value replaces it. A mapping or a list never replaces a value of
another kind.
-/

namespace Dotfiles.Value

mutual

/-- The earlier value with the later one merged into it. -/
def merge (earlier : Value) : Value → Value
  | .scalar .null => earlier
  | .scalar s => .scalar s
  | .list later =>
    match earlier with
    | .list items => .list (items ++ later)
    | other => other
  | .map later =>
    match earlier with
    | .map fields => .map (mergeFields fields later)
    | other => other
  | later => later

/-- The earlier fields with the later ones merged into them, one after another. A
key that both have keeps its place; a new one goes to the end. -/
def mergeFields (earlier : Fields) : List (Scalar × Value) → Fields
  | [] => earlier
  | (key, value) :: rest =>
    match Fields.get? key earlier with
    | some old => mergeFields (Fields.insert key (merge old value) earlier) rest
    | none => mergeFields (earlier ++ [(key, value)]) rest

end

/-- The first value with all further ones merged into it in turn. -/
def mergeAll (first : Value) (rest : List Value) : Value := rest.foldl merge first

@[simp] theorem merge_null (v : Value) : merge v null = v := by simp [null, merge]

theorem merge_list (xs ys : List Value) : merge (.list xs) (.list ys) = .list (xs ++ ys) := by
  simp [merge]

theorem merge_map (xs ys : Fields) : merge (.map xs) (.map ys) = .map (mergeFields xs ys) := by
  simp [merge]

end Dotfiles.Value
