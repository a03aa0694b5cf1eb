import Dotfiles.Glob.Matcher
import Dotfiles.Proofs.Except

/-!
Matchers of lists of globs. The mark that takes names back is escaped in every glob, so a
matcher ignores exactly the names that one of its rules matches, and globs that are put
anywhere into a list make it ignore what they match, and nothing else.
-/

namespace Dotfiles

namespace Glob

/-- Whether a character in front makes a line take names back or be a comment. -/
def IsLineMark (c : Char) : Prop := c = '!' ∨ c = '#'

variable {glob line : Text}

theorem stripRight_isPrefix (t : Text) : Text.stripRight t <+: t := by
  have hsuffix := List.dropWhile_suffix Text.isBlank (l := t.reverse)
  rw [← List.reverse_prefix, List.reverse_reverse] at hsuffix
  exact hsuffix

theorem trimLine_isPrefix (line : Text) : trimLine line <+: Text.stripLeft line := by
  unfold trimLine
  split
  · exact List.prefix_refl _
  · exact stripRight_isPrefix _

/-- A glob becomes a line that is no comment and does not take names back. -/
theorem trimLine_literalLine_ne {mark : Char} (h : IsLineMark mark) (glob rest : Text) :
    trimLine (literalLine glob) ≠ mark :: rest := by
  have hbackslash : '\\' ≠ mark := by rcases h with rfl | rfl <;> decide
  have hstart : ∀ more, Text.stripLeft (literalLine glob) ≠ mark :: more := by
    intro more
    unfold literalLine
    split
    · simp [Text.stripLeft, show Text.isBlank '\\' = false by decide, hbackslash]
    · simp [Text.stripLeft, show Text.isBlank '\\' = false by decide, hbackslash]
    · rename_i htake hcomment
      rcases h with rfl | rfl
      · exact htake more
      · exact hcomment more
  intro htrim
  obtain ⟨more, hmore⟩ := trimLine_isPrefix (literalLine glob)
  rw [htrim, List.cons_append] at hmore
  exact hstart _ hmore.symm

theorem ignores_of_ofLine {rule : Rule} (hl : ∀ rest, trimLine line ≠ '!' :: rest)
    (h : Rule.ofLine line = .ok (some rule)) : rule.ignores = true := by
  simp only [Rule.ofLine] at h
  split at h
  · cases h
  · cases h
  · cases h
  · rename_i glob hmark
    exact absurd hmark (hl glob)
  · split at h
    · cases h
    · split at h
      · cases h
      · cases h
        rfl

theorem lines_append_eq_ok_iff {first second : List Text} {items : List Text} :
    lines (first ++ second) = .ok items ↔
      ∃ a b, lines first = .ok a ∧ lines second = .ok b ∧ items = a ++ b := by
  simp only [lines, Except.bind_eq_ok_iff, Except.mapM_append_eq_ok_iff]
  constructor
  · rintro ⟨_, ⟨a, b, ha, hb, rfl⟩, h⟩
    cases h
    refine ⟨_, _, ⟨a, ha, rfl⟩, ⟨b, hb, rfl⟩, ?_⟩
    rw [List.flatten_append, List.map_append]
  · rintro ⟨_, _, ⟨a, ha, h⟩, ⟨b, hb, h'⟩, rfl⟩
    cases h
    cases h'
    refine ⟨_, ⟨a, b, ha, hb, rfl⟩, ?_⟩
    rw [List.flatten_append, List.map_append]
    rfl

end Glob

open Glob

theorem foldl_ignores {rules : List Rule} (h : ∀ rule ∈ rules, rule.ignores = true) (name : Text)
    (ignored : Bool) :
    rules.foldl (fun ignored rule => if rule.isMatch name then rule.ignores else ignored) ignored =
      (ignored || rules.any fun rule => rule.isMatch name) := by
  induction rules generalizing ignored with
  | nil => simp
  | cons rule rest ih =>
    rw [List.foldl_cons, ih fun r hr => h r (List.mem_cons_of_mem _ hr), List.any_cons]
    cases hmatch : rule.isMatch name with
    | true => simp [h rule List.mem_cons_self]
    | false => simp

theorem Matcher.isMatch_eq_any {m : Matcher} (h : ∀ rule ∈ m.rules, rule.ignores = true)
    (name : Text) : m.isMatch name = m.rules.any fun rule => rule.isMatch (bareName name) :=
  (foldl_ignores h (bareName name) false).trans (Bool.false_or _)

namespace GlobList

variable {globs before after : List Text} {m matcher : Matcher}

theorem ignores_of_compile {l : GlobList} (h : l.compile = .ok m) :
    ∀ rule ∈ m.rules, rule.ignores = true := by
  obtain ⟨items, hitems, h⟩ := Except.bind_eq_ok_iff.1 h
  obtain ⟨rules, hrules, h⟩ := Except.bind_eq_ok_iff.1 h
  cases h
  intro rule hm
  obtain ⟨found, hfound, hsome⟩ := List.mem_filterMap.1 hm
  cases hsome
  obtain ⟨line, hline, hof⟩ := Except.exists_mem_of_mapM hrules hfound
  -- the line is that of a glob
  obtain ⟨expanded, _, hlines⟩ := Except.bind_eq_ok_iff.1 hitems
  cases hlines
  obtain ⟨glob, _, rfl⟩ := List.mem_map.1 (List.mem_of_mem_filter hline)
  exact ignores_of_ofLine (trimLine_literalLine_ne (.inl rfl) glob) hof

theorem compile_append_eq_ok_iff {first second : List Text} :
    (GlobList.mk (first ++ second)).compile = .ok m ↔
      ∃ a b, (GlobList.mk first).compile = .ok a ∧ (GlobList.mk second).compile = .ok b ∧
        m = ⟨first ++ second, a.rules ++ b.rules⟩ := by
  simp only [compile, Except.bind_eq_ok_iff, lines_append_eq_ok_iff]
  constructor
  · rintro ⟨_, ⟨a, b, ha, hb, rfl⟩, rules, hrules, h⟩
    rw [List.filter_append] at hrules
    obtain ⟨ra, rb, hra, hrb, rfl⟩ := Except.mapM_append_eq_ok_iff.1 hrules
    cases h
    refine ⟨_, _, ⟨a, ha, ra, hra, rfl⟩, ⟨b, hb, rb, hrb, rfl⟩, ?_⟩
    rw [List.filterMap_append]
  · rintro ⟨_, _, ⟨a, ha, ra, hra, h⟩, ⟨b, hb, rb, hrb, h'⟩, rfl⟩
    cases h
    cases h'
    refine ⟨_, ⟨a, b, ha, hb, rfl⟩, ra ++ rb, ?_, ?_⟩
    · rw [List.filter_append]
      exact Except.mapM_append_eq_ok_iff.2 ⟨ra, rb, hra, hrb, rfl⟩
    · rw [List.filterMap_append]
      rfl

/-- A list of globs compiles just if each of them does on its own. -/
theorem isOk_compile_iff (globs : List Text) : (GlobList.mk globs).compile.isOk = true ↔
    ∀ glob ∈ globs, (GlobList.mk [glob]).compile.isOk = true := by
  induction globs with
  | nil => simp [show (GlobList.mk []).compile.isOk = true from rfl]
  | cons first rest ih =>
    rw [List.forall_mem_cons, ← ih]
    show (GlobList.mk ([first] ++ rest)).compile.isOk = true ↔ _
    simp only [Except.isOk_iff, compile_append_eq_ok_iff]
    constructor
    · rintro ⟨_, a, b, ha, hb, _⟩
      exact ⟨⟨a, ha⟩, ⟨b, hb⟩⟩
    · rintro ⟨⟨a, ha⟩, ⟨b, hb⟩⟩
      exact ⟨_, a, b, ha, hb, rfl⟩

/-- Globs that are put into a list make its matcher ignore what they match besides. -/
theorem compile_insert (hold : (GlobList.mk (before ++ after)).compile = .ok m)
    (hglobs : (GlobList.mk globs).compile = .ok matcher) :
    ∃ m', (GlobList.mk (before ++ globs ++ after)).compile = .ok m' ∧
      ∀ name, m'.isMatch name = (m.isMatch name || matcher.isMatch name) := by
  obtain ⟨a, b, ha, hb, hm⟩ := compile_append_eq_ok_iff.1 hold
  have hfirst : (GlobList.mk (before ++ globs)).compile =
      .ok ⟨before ++ globs, a.rules ++ matcher.rules⟩ :=
    compile_append_eq_ok_iff.2 ⟨a, matcher, ha, hglobs, rfl⟩
  have hall := compile_append_eq_ok_iff.2 ⟨_, b, hfirst, hb, rfl⟩
  refine ⟨_, hall, ?_⟩
  intro name
  rw [Matcher.isMatch_eq_any (ignores_of_compile hall),
    Matcher.isMatch_eq_any (ignores_of_compile hold),
    Matcher.isMatch_eq_any (ignores_of_compile hglobs), hm, List.any_append, List.any_append,
    List.any_append, Bool.or_assoc, Bool.or_assoc, Bool.or_comm (List.any matcher.rules _)]

end GlobList

end Dotfiles
