import Dotfiles.Proofs.Glob.Matching
import Mathlib.Data.List.Infix

/-!
Matchers as plain alternatives. What a matcher ignores is what one of the alternatives of its globs
matches by itself, every character of it taken for what it is in a glob: no alternative is read as a
comment, and none takes names back, whatever stands around its marks. So only the set of the globs
counts.
-/

namespace Dotfiles

namespace Glob

/-- The expression that a glob without groups stands for by itself, its marks being ordinary
characters. A blank one and a lone slash stand for none. -/
def literalRegex? (alternative : Text) : Option Regex :=
  match trimLine alternative with
  | [] => none
  | ['/'] => none
  | t => lineRegex? t

/-- Whether a glob without groups matches a name by itself. -/
def matchesByItself (alternative name : Text) : Bool :=
  (literalRegex? alternative).any fun r => (Rule.mk true r).isMatch (bareName name)

variable {c mark : Char} {t line alternative : Text}

section Trimming

theorem IsLineMark.not_isBlank (h : IsLineMark mark) : Text.isBlank mark = false := by
  rcases h with rfl | rfl <;> decide

theorem stripRight_cons (hc : Text.isBlank c = false) (t : Text) :
    Text.stripRight (c :: t) = c :: Text.stripRight t := by
  rw [Text.stripRight, Text.stripRight, List.reverse_cons, List.dropWhile_append]
  split
  · rename_i hempty
    rw [List.isEmpty_iff.1 hempty]
    simp [hc]
  · simp

theorem stripLeft_of_not_isBlank (hc : Text.isBlank c = false) (t : Text) :
    Text.stripLeft (c :: t) = c :: t := by
  rw [Text.stripLeft, List.dropWhile_cons_of_neg (by simp [hc])]

/-- Whether a backslash keeps the space at the end of a line. -/
def KeepsSpace (line : Text) : Prop := [' ', '\\'] <+: line.reverse

instance (line : Text) : Decidable (KeepsSpace line) := inferInstanceAs (Decidable (_ <+: _))

theorem trimLine_eq (line : Text) :
    trimLine line = if KeepsSpace line then Text.stripLeft line else Text.strip line := by
  unfold trimLine
  split
  · rename_i heq
    rw [if_pos (by rw [KeepsSpace, heq]; simp)]
  · rename_i hnot
    rw [if_neg]
    rintro ⟨more, hmore⟩
    exact hnot more hmore.symm

/-- What stands in front of a mark does not keep the space at the end. -/
theorem keepsSpace_append_mark (h : IsLineMark mark) (before t : Text) :
    KeepsSpace (before ++ mark :: t) ↔ KeepsSpace t := by
  have hspace : ' ' ≠ mark := by rcases h with rfl | rfl <;> decide
  have hbackslash : '\\' ≠ mark := by rcases h with rfl | rfl <;> decide
  rw [KeepsSpace, KeepsSpace, List.reverse_append, List.reverse_cons, List.append_assoc]
  rcases t.reverse with _ | ⟨last, _ | ⟨beforeLast, more⟩⟩
  · simp [hspace]
  · simp [hbackslash]
  · simp

/-- A mark that is escaped stays in front, and what follows it is trimmed alike. -/
theorem trimLine_escaped (h : IsLineMark mark) (hline : Text.stripLeft alternative = mark :: t) :
    trimLine ('\\' :: mark :: t) = '\\' :: trimLine alternative := by
  obtain ⟨before, hbefore⟩ := List.dropWhile_suffix Text.isBlank (l := alternative)
  have hkept : KeepsSpace ('\\' :: mark :: t) ↔ KeepsSpace alternative := by
    rw [← hbefore, show alternative.dropWhile Text.isBlank = mark :: t from hline,
      keepsSpace_append_mark h]
    exact keepsSpace_append_mark h ['\\'] t
  have hbackslash : Text.isBlank '\\' = false := by decide
  rw [trimLine_eq, trimLine_eq]
  by_cases hspace : KeepsSpace alternative
  · rw [if_pos (hkept.2 hspace), if_pos hspace, hline, stripLeft_of_not_isBlank hbackslash]
  · rw [if_neg (mt hkept.1 hspace), if_neg hspace, Text.strip, Text.strip, hline,
      stripLeft_of_not_isBlank hbackslash, stripRight_cons hbackslash]

end Trimming

section Expressions

variable {segment other : Text} {segments : List Text}

/-- Whether a segment is not one of those that are read in a way of their own. -/
structure IsNamed (segment : Text) : Prop where
  ne_nil : segment ≠ []
  ne_star : segment ≠ ['*']
  ne_levels : segment ≠ manyLevels

theorem segmentsRegex?_cons_congr (h : IsNamed segment) (h' : IsNamed other)
    (hsame : segmentRegex? 0 segment = segmentRegex? 0 other) (first needSlash : Bool)
    (rest : List Text) :
    segmentsRegex? first needSlash (segment :: rest) =
      segmentsRegex? first needSlash (other :: rest) := by
  simp only [segmentsRegex?, if_neg h.ne_levels, if_neg h'.ne_levels, if_neg h.ne_star,
    if_neg h'.ne_star, hsame]

/-- The first segments being any levels, those after them stand at any level. -/
theorem segmentsRegex?_levels_cons (segment : Text) (rest : List Text) :
    segmentsRegex? true false (manyLevels :: segment :: rest) =
      (segmentsRegex? false false (segment :: rest)).map
        (.seq (.optional (.seq inLine.plus (.char '/')))) := rfl

theorem collapseLevels_cons_named (h : IsNamed segment) (rest : List Text) :
    collapseLevels (segment :: rest) = segment :: collapseLevels rest := by
  cases rest with
  | nil => rfl
  | cons next more => rw [collapseLevels, if_neg fun hs => h.ne_levels hs.1]

theorem anchorSegments_cons_named (h : IsNamed segment) (rest : List Text) :
    anchorSegments (segment :: rest) =
      if rest = [] ∨ rest = [[]] then manyLevels :: segment :: rest else segment :: rest := by
  obtain ⟨c, more, rfl⟩ := List.exists_cons_of_ne_nil h.ne_nil
  rcases rest with _ | ⟨_ | ⟨d, others⟩, _ | ⟨next, last⟩⟩ <;>
    simp [anchorSegments, h.ne_levels]

theorem openDirectory_cons {rest : List Text} (h : rest ≠ [[]]) (segment : Text) :
    openDirectory (segment :: rest) = segment :: openDirectory rest := by
  rcases rest with _ | ⟨next, more⟩
  · rfl
  · rw [openDirectory]
    · simp
    · exact h

/-- What a directory at the end opens does not depend on the first segment. -/
theorem exists_openDirectory_cons (rest : List Text) :
    ∃ opened, ∀ segment, openDirectory (segment :: rest) = segment :: opened := by
  by_cases h : rest = [[]]
  · subst h
    exact ⟨[manyLevels], fun _ => rfl⟩
  · exact ⟨openDirectory rest, openDirectory_cons h⟩

theorem lineRegex?_of_named (h : IsNamed segment)
    (hline : Text.split '/' line = segment :: segments) :
    lineRegex? line =
      segmentsRegex? true false
        (openDirectory (anchorSegments (segment :: collapseLevels segments))) := by
  have hlevels : segment :: collapseLevels segments ≠ [manyLevels, []] :=
    fun he => h.ne_levels (List.cons.inj he).1
  rw [lineRegex?, hline, collapseLevels_cons_named h]
  simp only [if_neg hlevels]
  split
  · rename_i hnil
    rw [anchorSegments_cons_named h] at hnil
    split at hnil <;> cases hnil
  · rfl

/-- A line has the expression of another one that is the same but for its first segment, if both
first segments are named and have the same expression. -/
theorem lineRegex?_congr {line line' : Text} (h : IsNamed segment) (h' : IsNamed other)
    (hsame : segmentRegex? 0 segment = segmentRegex? 0 other)
    (hline : Text.split '/' line = segment :: segments)
    (hline' : Text.split '/' line' = other :: segments) : lineRegex? line = lineRegex? line' := by
  obtain ⟨opened, hopened⟩ := exists_openDirectory_cons (collapseLevels segments)
  have hcongr := segmentsRegex?_cons_congr h h' hsame
  rw [lineRegex?_of_named h hline, lineRegex?_of_named h' hline', anchorSegments_cons_named h,
    anchorSegments_cons_named h']
  split
  · have hne : ∀ {s : Text}, IsNamed s → s :: collapseLevels segments ≠ [[]] :=
      fun hs he => hs.ne_nil (List.cons.inj he).1
    rw [openDirectory_cons (hne h), openDirectory_cons (hne h'), hopened, hopened]
    rw [segmentsRegex?_levels_cons, segmentsRegex?_levels_cons, hcongr]
  · rw [hopened, hopened, hcongr]

theorem segmentRegex?_escaped (h : IsLineMark mark) (t : Text) :
    segmentRegex? 0 ('\\' :: mark :: t) = segmentRegex? 0 (mark :: t) := by
  rcases h with rfl | rfl <;> rfl

/-- A mark has the same expression whether it is escaped or not. -/
theorem lineRegex?_escaped (h : IsLineMark mark) (t : Text) :
    lineRegex? ('\\' :: mark :: t) = lineRegex? (mark :: t) := by
  have hmark : mark ≠ '/' := by rcases h with rfl | rfl <;> decide
  have hstar : mark ≠ '*' := by rcases h with rfl | rfl <;> decide
  obtain ⟨first, rest, ht⟩ := List.exists_cons_of_ne_nil (Text.split_ne_nil '/' t)
  have hline : Text.split '/' (mark :: t) = (mark :: first) :: rest := by
    rw [Text.split, if_neg hmark, ht]
  have hescaped : Text.split '/' ('\\' :: mark :: t) = ('\\' :: mark :: first) :: rest := by
    rw [Text.split, if_neg (by decide), hline]
  refine lineRegex?_congr ⟨by simp, by simp, by simp [manyLevels]⟩
    ⟨by simp, by simp [hstar], by simp [manyLevels, hstar]⟩ (segmentRegex?_escaped h first) hescaped
    hline

end Expressions

section Rules

theorem trimLine_of_mark (h : IsLineMark mark) (hline : Text.stripLeft alternative = mark :: t) :
    ∃ more, trimLine alternative = mark :: more := by
  rw [trimLine_eq, Text.strip, hline, stripRight_cons h.not_isBlank]
  split
  · exact ⟨t, rfl⟩
  · exact ⟨Text.stripRight t, rfl⟩

theorem literalRegex?_escaped (h : IsLineMark mark)
    (hline : Text.stripLeft alternative = mark :: t) :
    literalRegex? ('\\' :: mark :: t) = literalRegex? alternative := by
  have hslash : mark ≠ '/' := by rcases h with rfl | rfl <;> decide
  obtain ⟨more, hmore⟩ := trimLine_of_mark h hline
  rw [literalRegex?, trimLine_escaped h hline, literalRegex?, hmore]
  simp [lineRegex?_escaped h, hslash]

/-- The line that a glob becomes stands for what the glob does by itself. -/
theorem literalRegex?_literalLine (alternative : Text) :
    literalRegex? (literalLine alternative) = literalRegex? alternative := by
  unfold literalLine
  split
  · rename_i hline
    exact literalRegex?_escaped (.inl rfl) hline
  · rename_i hline
    exact literalRegex?_escaped (.inr rfl) hline
  · rfl

/-- A line that is no comment and does not take names back is a rule for its expression. -/
theorem ofLine_eq_ok {rule : Option Rule}
    (hmark : ∀ mark rest, IsLineMark mark → trimLine line ≠ mark :: rest)
    (h : Rule.ofLine line = .ok rule) : rule = (literalRegex? line).map (Rule.mk true) := by
  simp only [Rule.ofLine] at h
  rw [literalRegex?]
  split at h
  · rename_i hnil
    cases h
    simp [hnil]
  · rename_i hcomment
    exact absurd hcomment (hmark _ _ (.inr rfl))
  · rename_i hslash
    cases h
    simp [hslash]
  · rename_i htake
    exact absurd htake (hmark _ _ (.inl rfl))
  · split at h
    · cases h
    · rename_i r hr
      split at h
      · cases h
      · cases h
        simp [hr]

theorem ofLine_literalLine_eq_ok {rule : Option Rule}
    (h : Rule.ofLine (literalLine alternative) = .ok rule) :
    rule = (literalRegex? alternative).map (Rule.mk true) := by
  rw [← literalRegex?_literalLine]
  exact ofLine_eq_ok (fun mark rest hm => trimLine_literalLine_ne hm alternative rest) h

end Rules

theorem mem_lines_iff {globs items : List Text} (h : lines globs = .ok items) :
    line ∈ items ↔ ∃ glob ∈ globs, ∃ found, alternates glob = .ok found ∧
      ∃ alternative ∈ found, literalLine alternative = line := by
  obtain ⟨expanded, hexpanded, hitems⟩ := Except.bind_eq_ok_iff.1 h
  cases hitems
  simp only [List.mem_map, List.mem_flatten]
  constructor
  · rintro ⟨alternative, ⟨found, hfound, halternative⟩, hline⟩
    obtain ⟨glob, hglob, halternates⟩ := Except.exists_mem_of_mapM hexpanded hfound
    exact ⟨glob, hglob, found, halternates, alternative, halternative, hline⟩
  · rintro ⟨glob, hglob, found, halternates, alternative, halternative, hline⟩
    obtain ⟨found', hfound, halternates'⟩ := Except.exists_ok_of_mapM hexpanded hglob
    cases halternates.symm.trans halternates'
    exact ⟨alternative, ⟨found, hfound, halternative⟩, hline⟩

theorem literalRegex?_nil : literalRegex? [] = none := rfl

end Glob

open Glob

namespace GlobList

variable {globs others : List Text} {m m' : Matcher}

/-- The rules of a matcher are those of the alternatives of its globs. -/
theorem mem_rules_iff (h : (GlobList.mk globs).compile = .ok m) {rule : Rule} :
    rule ∈ m.rules ↔ ∃ glob ∈ globs, ∃ found, alternates glob = .ok found ∧
      ∃ alternative ∈ found, (literalRegex? alternative).map (Rule.mk true) = some rule := by
  obtain ⟨items, hitems, h⟩ := Except.bind_eq_ok_iff.1 h
  obtain ⟨rules, hrules, h⟩ := Except.bind_eq_ok_iff.1 h
  cases h
  simp only [List.mem_filterMap, id]
  constructor
  · rintro ⟨_, hfound, rfl⟩
    obtain ⟨line, hline, hof⟩ := Except.exists_mem_of_mapM hrules hfound
    obtain ⟨glob, hglob, found, halternates, alternative, halternative, rfl⟩ :=
      (mem_lines_iff hitems).1 (List.mem_of_mem_filter hline)
    exact ⟨glob, hglob, found, halternates, alternative, halternative,
      (ofLine_literalLine_eq_ok hof).symm⟩
  · rintro ⟨glob, hglob, found, halternates, alternative, halternative, hrule⟩
    have hline : literalLine alternative ∈ items.filter fun line => !line.isEmpty := by
      refine List.mem_filter.2 ⟨(mem_lines_iff hitems).2
        ⟨glob, hglob, found, halternates, alternative, halternative, rfl⟩, ?_⟩
      -- the empty line has no expression
      cases hempty : literalLine alternative with
      | nil =>
        rw [← literalRegex?_literalLine, hempty, literalRegex?_nil] at hrule
        cases hrule
      | cons c rest => rfl
    obtain ⟨found, hfound, hof⟩ := Except.exists_ok_of_mapM hrules hline
    rw [ofLine_literalLine_eq_ok hof, hrule] at hfound
    exact ⟨some rule, hfound, rfl⟩

/-- A matcher ignores what some alternative of its globs matches by itself. -/
theorem isMatch_iff (h : (GlobList.mk globs).compile = .ok m) (name : Text) :
    m.isMatch name = true ↔ ∃ glob ∈ globs, ∃ found, alternates glob = .ok found ∧
      ∃ alternative ∈ found, matchesByItself alternative name = true := by
  rw [Matcher.isMatch_eq_any (ignores_of_compile h), List.any_eq_true]
  simp only [mem_rules_iff h, matchesByItself, Option.any_eq_true, Option.map_eq_some_iff]
  constructor
  · rintro ⟨_, ⟨glob, hglob, found, hfound, alternative, ha, r, hr, rfl⟩, hmatch⟩
    exact ⟨glob, hglob, found, hfound, alternative, ha, r, hr, hmatch⟩
  · rintro ⟨glob, hglob, found, hfound, alternative, ha, r, hr, hmatch⟩
    exact ⟨_, ⟨glob, hglob, found, hfound, alternative, ha, r, hr, rfl⟩, hmatch⟩

/-- No glob that is added makes a matcher ignore less. -/
theorem isMatch_mono (h : (GlobList.mk globs).compile = .ok m)
    (h' : (GlobList.mk others).compile = .ok m') (hsub : globs ⊆ others) (name : Text)
    (hmatch : m.isMatch name = true) : m'.isMatch name = true := by
  obtain ⟨glob, hglob, halternative⟩ := (isMatch_iff h name).1 hmatch
  exact (isMatch_iff h' name).2 ⟨glob, hsub hglob, halternative⟩

theorem exists_compile_of_subset (h : (GlobList.mk globs).compile = .ok m) (hsub : others ⊆ globs) :
    ∃ m', (GlobList.mk others).compile = .ok m' :=
  Except.isOk_iff.1 ((isOk_compile_iff others).2 fun glob hglob =>
    (isOk_compile_iff globs).1 (Except.isOk_iff.2 ⟨m, h⟩) glob (hsub hglob))

/-- The matcher of a list of globs is the plain alternative of all that its globs stand for. It does
not depend on the order of the globs or on how often they occur, the union of two lists ignores what
one of them does, and further globs never take a name back. -/
theorem isMatch_isPlainOr (h : (GlobList.mk globs).compile = .ok m) :
    (∀ name, m.isMatch name = true ↔ ∃ glob ∈ globs, ∃ found, alternates glob = .ok found ∧
        ∃ alternative ∈ found, matchesByItself alternative name = true) ∧
      (∀ others : List Text, (∀ glob, glob ∈ others ↔ glob ∈ globs) →
        ∃ m', (GlobList.mk others).compile = .ok m' ∧
          ∀ name, m'.isMatch name = m.isMatch name) ∧
      (∀ (others : GlobList) (m' : Matcher), others.compile = .ok m' →
        ∃ both, ((GlobList.mk globs).union others).compile = .ok both ∧
          ∀ name, both.isMatch name = (m.isMatch name || m'.isMatch name)) ∧
      ∀ (others : List Text) (m' : Matcher), (GlobList.mk others).compile = .ok m' →
        globs ⊆ others → ∀ name, m.isMatch name = true → m'.isMatch name = true := by
  refine ⟨isMatch_iff h, fun others hsame => ?_, fun others m' h' => ?_,
    fun others m' h' hsub => isMatch_mono h h' hsub⟩
  · obtain ⟨m', h'⟩ := exists_compile_of_subset h fun glob hglob => (hsame glob).1 hglob
    refine ⟨m', h', fun name => Bool.eq_iff_iff.2 ⟨?_, ?_⟩⟩
    · exact isMatch_mono h' h (fun glob hglob => (hsame glob).1 hglob) name
    · exact isMatch_mono h h' (fun glob hglob => (hsame glob).2 hglob) name
  · have hcompile : (GlobList.mk (globs ++ [])).compile = .ok m := by rwa [List.append_nil]
    obtain ⟨both, hboth, hmatch⟩ := compile_insert hcompile h'
    rw [List.append_nil] at hboth
    exact ⟨both, hboth, hmatch⟩

/-- Marks after a space and from a group are characters of names, and a further glob that begins
with a mark takes nothing back. -/
theorem isMatch_isPlainOr_marks :
    ∃ m m' : Matcher,
      (GlobList.mk [" \x7b!,#\x7da*".toList, "*.bak".toList]).compile = .ok m ∧
      (GlobList.mk [" \x7b!,#\x7da*".toList, "*.bak".toList, "!!ab".toList]).compile = .ok m' ∧
      m.isMatch "!ab".toList = true ∧ m'.isMatch "!ab".toList = true := by
  obtain ⟨m, h⟩ := Except.isOk_iff.1
    (show (GlobList.mk [" \x7b!,#\x7da*".toList, "*.bak".toList]).compile.isOk = true by
      decide +kernel)
  obtain ⟨m', h'⟩ := Except.isOk_iff.1
    (show (GlobList.mk
      [" \x7b!,#\x7da*".toList, "*.bak".toList, "!!ab".toList]).compile.isOk = true by
      decide +kernel)
  obtain ⟨hmatches, -, -, hmono⟩ := isMatch_isPlainOr h
  have hmatch : m.isMatch "!ab".toList = true :=
    (hmatches _).2 ⟨" \x7b!,#\x7da*".toList, by decide, [" !a*".toList, " #a*".toList],
      by decide +kernel, " !a*".toList, by decide, by decide +kernel⟩
  exact ⟨m, m', h, h', hmatch, hmono _ m' h' (by decide) _ hmatch⟩

end GlobList

end Dotfiles
