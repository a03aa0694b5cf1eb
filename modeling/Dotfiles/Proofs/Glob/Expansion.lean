import Dotfiles.Proofs.Glob.Grammar
import Mathlib.Algebra.BigOperators.Group.List.Basic
import Mathlib.Data.List.GetD

/-!
What globs with groups of alternates stand for. Of every group one option is picked, in the order in
which the numbers of the options count up, those of the leftmost group slowest. What is picked is a
sequence of symbols again, and so stands for itself alone.
-/

namespace Dotfiles.Glob

/-- How many options the groups have, from left to right. -/
def groupSizes : List Piece → List Nat
  | [] => []
  | .fixed _ :: rest => groupSizes rest
  | .group options :: rest => options.length :: groupSizes rest

/-- The glob without groups in which the options with the given numbers are picked, one number for
each group from left to right. -/
def picked : List Piece → List Nat → Text
  | .fixed t :: rest, numbers => t ++ picked rest numbers
  | .group options :: rest, n :: numbers => options.getD n [] ++ picked rest numbers
  | _, _ => []

/-- A number below each of the given sizes, in every way. -/
def choices : List Nat → List (List Nat)
  | [] => [[]]
  | size :: sizes => (List.range size).flatMap fun n => (choices sizes).map (n :: ·)

variable {glob : Text} {found : List Piece} {sizes numbers : List Nat}

section Choices

theorem mem_choices_iff : numbers ∈ choices sizes ↔ List.Forall₂ (· < ·) numbers sizes := by
  induction sizes generalizing numbers with
  | nil => simp [choices]
  | cons size sizes ih =>
    simp only [choices, List.mem_flatMap, List.mem_range, List.mem_map, ih]
    rw [List.forall₂_cons_right_iff]
    constructor
    · rintro ⟨n, hn, rest, hrest, rfl⟩
      exact ⟨n, rest, hn, hrest, rfl⟩
    · rintro ⟨n, rest, hn, hrest, rfl⟩
      exact ⟨n, hn, rest, hrest, rfl⟩

/-- The choices count up, the first number slowest. -/
theorem pairwise_choices (sizes : List Nat) : (choices sizes).Pairwise (· < ·) := by
  induction sizes with
  | nil => simp [choices]
  | cons size sizes ih =>
    rw [choices, List.pairwise_flatMap]
    refine ⟨fun n _ => ?_, ?_⟩
    · rw [List.pairwise_map]
      exact ih.imp fun h => List.cons_lt_cons_iff.2 (.inr ⟨rfl, h⟩)
    · refine List.pairwise_lt_range.imp fun {n m} hlt => ?_
      rintro first hfirst second hsecond
      obtain ⟨_, _, rfl⟩ := List.mem_map.1 hfirst
      obtain ⟨_, _, rfl⟩ := List.mem_map.1 hsecond
      exact List.cons_lt_cons_iff.2 (.inl hlt)

theorem length_choices (sizes : List Nat) : (choices sizes).length = sizes.prod := by
  induction sizes with
  | nil => rfl
  | cons size sizes ih => simp [choices, ih]

theorem flatMap_range_getD {α : Type} (options : List Text) (f : Text → List α) :
    (List.range options.length).flatMap (fun n => f (options.getD n [])) = options.flatMap f := by
  have hoptions : (List.range options.length).map (options.getD · []) = options :=
    List.ext_getElem (by simp) fun n _ hn => by simp [hn]
  conv_rhs => rw [← hoptions, List.flatMap_map]

/-- Multiplying out picks the options by their numbers. -/
theorem multiplyOut_eq (found : List Piece) :
    multiplyOut found = (choices (groupSizes found)).map (picked found) := by
  induction found with
  | nil => rfl
  | cons piece rest ih =>
    cases piece with
    | fixed t =>
      rw [multiplyOut, ih, List.map_map]
      rfl
    | group options =>
      rw [multiplyOut, ih, groupSizes, choices, List.map_flatMap,
        ← flatMap_range_getD options fun option =>
          ((choices (groupSizes rest)).map (picked rest)).map (option ++ ·)]
      simp only [List.map_map]
      rfl

end Choices

section Expansion

theorem alternates_of_isWritten (h : IsWritten found glob) :
    alternates glob = .ok (multiplyOut found) := by
  have hread : pieces (lex .outside glob).2 none (lex .outside glob).1 = .ok found :=
    piecesOf_eq_ok_iff.2 h
  rw [alternates]
  simp only [hread]

/-- A glob that is not well formed is refused with its text. -/
theorem exists_defect_of_not_isWellFormed (h : ¬ IsWellFormed glob) :
    ∃ defect, alternates glob = .error (.malformed defect glob) := by
  cases hread : piecesOf none glob with
  | ok found => exact absurd ⟨found, piecesOf_eq_ok_iff.1 hread⟩ h
  | error defect =>
    refine ⟨defect, ?_⟩
    rw [piecesOf] at hread
    rw [alternates]
    simp only [hread]

theorem multiplyOut_fixed (symbols : List Text) :
    multiplyOut (symbols.map .fixed) = [symbols.flatten] := by
  induction symbols with
  | nil => rfl
  | cons s rest ih => rw [List.map_cons, multiplyOut, ih, List.map_singleton, List.flatten_cons]

/-- A sequence of symbols stands for itself alone. -/
theorem alternates_flatten {symbols : List Text} (h : ∀ s ∈ symbols, IsSymbol s) :
    alternates symbols.flatten = .ok [symbols.flatten] := by
  rw [← multiplyOut_fixed]
  refine alternates_of_isWritten ⟨?_, ?_⟩
  · rintro piece hm
    obtain ⟨s, hs, rfl⟩ := List.mem_map.1 hm
    exact h s hs
  · rw [List.flatMap_map, List.flatMap_def]
    simp [Piece.text]

/-- What is picked is a sequence of symbols. -/
theorem exists_symbols_of_picked (hwellFormed : ∀ piece ∈ found, piece.IsWellFormed)
    (hnumbers : List.Forall₂ (· < ·) numbers (groupSizes found)) :
    ∃ symbols : List Text,
      (∀ s ∈ symbols, IsSymbol s) ∧ picked found numbers = symbols.flatten := by
  induction found generalizing numbers with
  | nil => exact ⟨[], by simp, by cases numbers <;> rfl⟩
  | cons piece rest ih =>
    obtain ⟨hpiece, hrest⟩ := List.forall_mem_cons.1 hwellFormed
    cases piece with
    | fixed t =>
      obtain ⟨symbols, hsymbols, hpicked⟩ := ih hrest hnumbers
      exact ⟨t :: symbols, List.forall_mem_cons.2 ⟨hpiece, hsymbols⟩, by rw [picked, hpicked]; rfl⟩
    | group options =>
      obtain ⟨n, others, hn, hothers, rfl⟩ := List.forall₂_cons_right_iff.1 hnumbers
      obtain ⟨symbols, hsymbols, hpicked⟩ := ih hrest hothers
      obtain ⟨before, hbefore, hoption⟩ := hpiece.2 options[n] (List.getElem_mem hn)
      refine ⟨before ++ symbols,
        List.forall_mem_append.2 ⟨fun s hs => (hbefore s hs).1, hsymbols⟩, ?_⟩
      rw [picked, hpicked, List.getD_eq_getElem _ _ hn, hoption, List.flatten_append]

/-- A glob is refused just if it is no sequence of symbols and groups. Otherwise it stands for what
can be picked of its groups, once for every way to do so, the option of the leftmost group changing
slowest; and each of these globs stands for itself alone. -/
theorem alternates_grammar (glob : Text) :
    ((∃ defect, alternates glob = .error (.malformed defect glob)) ↔ ¬ IsWellFormed glob) ∧
      ∀ found, IsWritten found glob →
        alternates glob = .ok ((choices (groupSizes found)).map (picked found)) ∧
          (choices (groupSizes found)).Pairwise (· < ·) ∧
          (∀ numbers, numbers ∈ choices (groupSizes found) ↔
            List.Forall₂ (· < ·) numbers (groupSizes found)) ∧
          (choices (groupSizes found)).length = (groupSizes found).prod ∧
          ∀ alternative ∈ (choices (groupSizes found)).map (picked found),
            alternates alternative = .ok [alternative] := by
  refine ⟨⟨?_, exists_defect_of_not_isWellFormed⟩, fun found h => ?_⟩
  · rintro ⟨defect, herror⟩ ⟨found, h⟩
    rw [alternates_of_isWritten h] at herror
    cases herror
  · refine ⟨by rw [alternates_of_isWritten h, multiplyOut_eq], pairwise_choices _,
      fun _ => mem_choices_iff, length_choices _, fun alternative hm => ?_⟩
    obtain ⟨numbers, hnumbers, rfl⟩ := List.mem_map.1 hm
    obtain ⟨symbols, hsymbols, hpicked⟩ :=
      exists_symbols_of_picked h.wellFormed (mem_choices_iff.1 hnumbers)
    rw [hpicked]
    exact alternates_flatten hsymbols

/-- Two groups, with an escaped brace in front of them and a class with a comma and a brace in an
option. -/
theorem alternates_grammar_bracesInSymbols :
    let glob := "\\\x7b\x7ba,[,\x7d]b\x7d,\x7b,!\x7d".toList
    let found : List Piece := [.fixed "\\\x7b".toList, .group ["a".toList, "[,\x7d]b".toList],
      .fixed [','], .group [[], ['!']]]
    let alternatives := ["\\\x7ba,".toList, "\\\x7ba,!".toList, "\\\x7b[,\x7d]b,".toList,
      "\\\x7b[,\x7d]b,!".toList]
    IsWritten found glob ∧ alternates glob = .ok alternatives ∧
      ∀ alternative ∈ alternatives, alternates alternative = .ok [alternative] := by
  intro glob found alternatives
  have hwritten : IsWritten found glob := piecesOf_eq_ok_iff.1 rfl
  obtain ⟨hexpanded, _, _, _, halone⟩ := (alternates_grammar glob).2 found hwritten
  exact ⟨hwritten, hexpanded, halone⟩

end Expansion

end Dotfiles.Glob
