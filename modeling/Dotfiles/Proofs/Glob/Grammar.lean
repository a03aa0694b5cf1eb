import Dotfiles.Glob.Alternates
import Dotfiles.Proofs.Except

/-!
The grammar of globs with groups of alternates. A glob is a sequence of symbols and groups, and a
symbol is read alike wherever it stands: a class may hold braces, commas and backslashes, and an
escape may precede any of these. Reading gives the pieces that a glob is written of, and fails if
there are none.
-/

namespace Dotfiles.Glob

/-- Whether a character negates a class in front of its members. -/
def IsMark (c : Char) : Prop := c = '!' ∨ c = '^'

instance (c : Char) : Decidable (IsMark c) := inferInstanceAs (Decidable (_ ∨ _))

/-- What stands for itself in a glob. The first member of a class may be a closing bracket; the
next one ends it. -/
inductive IsSymbol : Text → Prop
  | plain {c : Char} (h : c ∉ ['\\', '[', '\x7b', '\x7d']) : IsSymbol [c]
  | escape (c : Char) : IsSymbol ['\\', c]
  | members {first : Char} {others : Text} (hfirst : ¬ IsMark first) (h : ']' ∉ others) :
    IsSymbol ('[' :: first :: others ++ [']'])
  | negated {mark first : Char} {others : Text} (hmark : IsMark mark) (h : ']' ∉ others) :
    IsSymbol ('[' :: mark :: first :: others ++ [']'])

/-- An option of a group: symbols that do not end it. -/
def IsOption (option : Text) : Prop :=
  ∃ symbols : List Text, (∀ s ∈ symbols, IsSymbol s ∧ s ≠ [',']) ∧ option = symbols.flatten

/-- How a piece is written. -/
def Piece.text : Piece → Text
  | .fixed t => t
  | .group options => '\x7b' :: Text.join ',' options ++ ['\x7d']

/-- Whether a piece is a symbol or a group of options. -/
def Piece.IsWellFormed : Piece → Prop
  | .fixed t => IsSymbol t
  | .group options => options ≠ [] ∧ ∀ option ∈ options, IsOption option

/-- A glob that is written of the given pieces. -/
structure IsWritten (found : List Piece) (glob : Text) : Prop where
  wellFormed : ∀ piece ∈ found, piece.IsWellFormed
  text : glob = found.flatMap Piece.text

/-- A sequence of symbols and groups. -/
def IsWellFormed (glob : Text) : Prop := ∃ found, IsWritten found glob

/-- The pieces that the rest of a glob is read as, inside of a group or outside. -/
def piecesOf (group : Option OpenGroup) (t : Text) : Except Defect (List Piece) :=
  pieces (lex .outside t).2 group (lex .outside t).1

variable {s t option glob : Text} {found : List Piece} {options : List Text}

section Symbols

theorem lex_inClass {stage : ClassStage} {c : Char} (h : c = ']' → stage ≠ .body)
    (read rest : Text) :
    lex (.inClass read stage) (c :: rest) = lex (.inClass (read ++ [c]) (stage.next c)) rest := by
  rw [lex, if_neg fun hc => h hc.1 hc.2]

/-- What follows the first member of a class. -/
theorem lex_members {others : Text} (h : ']' ∉ others) (read rest : Text) :
    lex (.inClass read .body) (others ++ ']' :: rest) =
      (.literal (read ++ others ++ [']']) :: (lex .outside rest).1, (lex .outside rest).2) := by
  induction others generalizing read with
  | nil => simp [lex]
  | cons c more ih =>
    rw [List.mem_cons, not_or] at h
    rw [List.cons_append, lex_inClass fun hc => absurd hc.symm h.1]
    simpa [ClassStage.next] using ih h.2 (read ++ [c])

theorem lex_unclosed {others : Text} (h : ']' ∉ others) (read : Text) :
    lex (.inClass read .body) others = ([], some .unclosedClass) := by
  induction others generalizing read with
  | nil => rfl
  | cons c more ih =>
    rw [List.mem_cons, not_or] at h
    rw [lex_inClass fun hc => absurd hc.symm h.1]
    simpa [ClassStage.next] using ih h.2 (read ++ [c])

theorem lex_class (t : Text) : lex .outside ('[' :: t) = lex (.inClass ['['] .first) t := by
  rw [lex, if_neg (by decide), if_pos rfl]

theorem lex_class_member {first : Char} (h : ¬ IsMark first) (rest : Text) :
    lex .outside ('[' :: first :: rest) = lex (.inClass ['[', first] .body) rest := by
  rw [lex_class, lex_inClass (by simp), ClassStage.next, if_neg fun hc => h hc.2]
  rfl

theorem lex_class_negated {mark : Char} (h : IsMark mark) (first : Char) (rest : Text) :
    lex .outside ('[' :: mark :: first :: rest) = lex (.inClass ['[', mark, first] .body) rest := by
  rw [lex_class, lex_inClass (by simp), ClassStage.next, if_pos ⟨rfl, h⟩, lex_inClass (by simp),
    ClassStage.next, if_neg (by simp)]
  rfl

/-- A symbol is a token wherever it stands. -/
theorem lex_symbol (h : IsSymbol s) (rest : Text) :
    lex .outside (s ++ rest) =
      ((if s = [','] then .comma else .literal s) :: (lex .outside rest).1, (lex .outside rest).2) := by
  cases h with
  | @plain c hc =>
    simp only [List.mem_cons, List.not_mem_nil, or_false, not_or] at hc
    obtain ⟨hescape, hclass, hopening, hclosing⟩ := hc
    simp [lex, Token.ofChar, hescape, hclass, hopening, hclosing]
  | escape c => simp [lex]
  | @members first others hfirst h =>
    have hlex := (lex_class_member hfirst (others ++ ']' :: rest)).trans (lex_members h _ rest)
    simpa using hlex
  | @negated mark first others hmark h =>
    have hlex := (lex_class_negated hmark first (others ++ ']' :: rest)).trans (lex_members h _ rest)
    simpa using hlex

/-- A text taken apart from its start: braces and symbols up to its end, or to where it breaks off
within a symbol. -/
inductive Scanned : Text → Prop
  | done : Scanned []
  | opening {rest : Text} (h : Scanned rest) : Scanned ('\x7b' :: rest)
  | closing {rest : Text} (h : Scanned rest) : Scanned ('\x7d' :: rest)
  | symbol {s rest : Text} (hs : IsSymbol s) (h : Scanned rest) : Scanned (s ++ rest)
  | broken {t : Text} (defect : Defect) (h : lex .outside t = ([], some defect)) : Scanned t

/-- A class is a symbol, or the text breaks off within it. -/
theorem exists_class_or_unclosed (t : Text) :
    (∃ s rest, IsSymbol s ∧ '[' :: t = s ++ rest) ∨
      lex .outside ('[' :: t) = ([], some .unclosedClass) := by
  rcases t with _ | ⟨c, t⟩
  · exact .inr rfl
  · by_cases hc : IsMark c
    · rcases t with _ | ⟨first, t⟩
      · rcases hc with rfl | rfl <;> exact .inr rfl
      · by_cases hclosing : ']' ∈ t
        · obtain ⟨others, rest, rfl, hothers⟩ := List.eq_append_cons_of_mem hclosing
          exact .inl ⟨_, rest, @IsSymbol.negated _ first _ hc hothers, by simp⟩
        · exact .inr ((lex_class_negated hc first t).trans (lex_unclosed hclosing _))
    · by_cases hclosing : ']' ∈ t
      · obtain ⟨others, rest, rfl, hothers⟩ := List.eq_append_cons_of_mem hclosing
        exact .inl ⟨_, rest, .members hc hothers, by simp⟩
      · exact .inr ((lex_class_member hc t).trans (lex_unclosed hclosing _))

theorem IsSymbol.length_pos (h : IsSymbol s) : 0 < s.length := by
  cases h <;> simp

theorem scanned (t : Text) : Scanned t := by
  induction hlength : t.length using Nat.strongRecOn generalizing t with
  | ind n ih =>
    subst hlength
    have hshorter : ∀ rest : Text, rest.length < t.length → Scanned rest :=
      fun rest hlt => ih rest.length hlt rest rfl
    have hsymbol : ∀ s rest, IsSymbol s → t = s ++ rest → Scanned t := by
      rintro s rest hs rfl
      exact .symbol hs (hshorter rest (by simpa using hs.length_pos))
    rcases t with _ | ⟨c, t⟩
    · exact .done
    by_cases hescape : c = '\\'
    · subst hescape
      rcases t with _ | ⟨d, t⟩
      · exact .broken .danglingEscape rfl
      · exact hsymbol _ t (.escape d) rfl
    by_cases hclass : c = '['
    · subst hclass
      rcases exists_class_or_unclosed t with ⟨s, rest, hs, ht⟩ | hbroken
      · exact hsymbol s rest hs ht
      · exact .broken .unclosedClass hbroken
    by_cases hopening : c = '\x7b'
    · exact hopening ▸ .opening (hshorter t (by simp))
    by_cases hclosing : c = '\x7d'
    · exact hclosing ▸ .closing (hshorter t (by simp))
    exact hsymbol [c] t (.plain (by simp [hescape, hclass, hopening, hclosing])) rfl

end Symbols

section Reading

variable {group : Option OpenGroup}

theorem piecesOf_opening (t : Text) :
    piecesOf none ('\x7b' :: t) = piecesOf (some ⟨[], []⟩) t := rfl

theorem piecesOf_closing (g : OpenGroup) (t : Text) :
    piecesOf (some g) ('\x7d' :: t) =
      (.group (g.finished ++ [g.current]) :: ·) <$> piecesOf none t := rfl

theorem piecesOf_comma (g : OpenGroup) (t : Text) :
    piecesOf (some g) (',' :: t) = piecesOf (some ⟨g.finished ++ [g.current], []⟩) t := rfl

theorem piecesOf_symbol (h : IsSymbol s) (t : Text) :
    piecesOf none (s ++ t) = (.fixed s :: ·) <$> piecesOf none t := by
  rw [piecesOf, lex_symbol h]
  split
  · rename_i hcomma
    rw [hcomma]
    rfl
  · rfl

theorem piecesOf_group_symbol (h : IsSymbol s) (hs : s ≠ [',']) (g : OpenGroup) (t : Text) :
    piecesOf (some g) (s ++ t) = piecesOf (some { g with current := g.current ++ s }) t := by
  rw [piecesOf, lex_symbol h, if_neg hs]
  rfl

theorem piecesOf_broken {defect : Defect} (h : lex .outside t = ([], some defect)) :
    piecesOf group t = .error defect := by
  rw [piecesOf, h]
  rfl

/-- An option is read as one text. -/
theorem piecesOf_option (h : IsOption option) (g : OpenGroup) (t : Text) :
    piecesOf (some g) (option ++ t) =
      piecesOf (some { g with current := g.current ++ option }) t := by
  obtain ⟨symbols, hsymbols, rfl⟩ := h
  induction symbols generalizing g with
  | nil => simp
  | cons s rest ih =>
    obtain ⟨⟨hs, hcomma⟩, hrest⟩ := List.forall_mem_cons.1 hsymbols
    rw [List.flatten_cons, List.append_assoc, piecesOf_group_symbol hs hcomma, ih _ hrest,
      List.append_assoc]

/-- The options that are left of a group, the first of them begun already, and its end. -/
theorem piecesOf_options {first : Text} {others : List Text}
    (h : ∀ option ∈ first :: others, IsOption option) (g : OpenGroup) (t : Text) :
    piecesOf (some g) (Text.join ',' (first :: others) ++ '\x7d' :: t) =
      (.group (g.finished ++ (g.current ++ first) :: others) :: ·) <$> piecesOf none t := by
  induction others generalizing first g with
  | nil => rw [Text.join, piecesOf_option (h first (by simp)), piecesOf_closing]
  | cons second more ih =>
    obtain ⟨hfirst, hmore⟩ := List.forall_mem_cons.1 h
    rw [Text.join, List.append_assoc, piecesOf_option hfirst, List.cons_append, piecesOf_comma,
      ih hmore]
    · simp
    · simp

/-- What is left of a glob inside of a group: the rest of the option begun, more options, and the
pieces after the group. -/
def IsWrittenWithin (g : OpenGroup) (found : List Piece) (t : Text) : Prop :=
  ∃ first others behind rest, (∀ option ∈ first :: others, IsOption option) ∧
    IsWritten behind rest ∧ found = .group (g.finished ++ (g.current ++ first) :: others) :: behind ∧
    t = Text.join ',' (first :: others) ++ '\x7d' :: rest

theorem isOption_nil : IsOption [] := ⟨[], by simp, rfl⟩

theorem IsOption.symbol_append (hs : IsSymbol s) (hcomma : s ≠ [',']) (h : IsOption option) :
    IsOption (s ++ option) := by
  obtain ⟨symbols, hsymbols, rfl⟩ := h
  exact ⟨s :: symbols, List.forall_mem_cons.2 ⟨⟨hs, hcomma⟩, hsymbols⟩, rfl⟩

theorem isWritten_nil : IsWritten [] [] := ⟨by simp, rfl⟩

theorem IsWritten.cons {piece : Piece} (hp : piece.IsWellFormed) (h : IsWritten found t) :
    IsWritten (piece :: found) (piece.text ++ t) :=
  ⟨List.forall_mem_cons.2 ⟨hp, h.wellFormed⟩, by rw [h.text, List.flatMap_cons]⟩

theorem IsWrittenWithin.opening (h : IsWrittenWithin ⟨[], []⟩ found t) :
    IsWritten found ('\x7b' :: t) := by
  obtain ⟨first, others, behind, rest, hoptions, hbehind, rfl, rfl⟩ := h
  have hgroup : (Piece.group (first :: others)).IsWellFormed := ⟨by simp, hoptions⟩
  have hwritten := IsWritten.cons hgroup hbehind
  simpa [Piece.text] using hwritten

theorem IsWritten.closing (h : IsWritten found t) (g : OpenGroup) :
    IsWrittenWithin g (.group (g.finished ++ [g.current]) :: found) ('\x7d' :: t) := by
  refine ⟨[], [], found, t, by simpa using isOption_nil, h, ?_, rfl⟩
  rw [List.append_nil]

theorem IsWrittenWithin.comma {g : OpenGroup}
    (h : IsWrittenWithin ⟨g.finished ++ [g.current], []⟩ found t) :
    IsWrittenWithin g found (',' :: t) := by
  obtain ⟨first, others, behind, rest, hoptions, hbehind, rfl, rfl⟩ := h
  refine ⟨[], first :: others, behind, rest, List.forall_mem_cons.2 ⟨isOption_nil, hoptions⟩,
    hbehind, ?_, rfl⟩
  simp

theorem IsWrittenWithin.symbol {g : OpenGroup} (hs : IsSymbol s) (hcomma : s ≠ [','])
    (h : IsWrittenWithin { g with current := g.current ++ s } found t) :
    IsWrittenWithin g found (s ++ t) := by
  obtain ⟨first, others, behind, rest, hoptions, hbehind, rfl, rfl⟩ := h
  obtain ⟨hfirst, hothers⟩ := List.forall_mem_cons.1 hoptions
  refine ⟨s ++ first, others, behind, rest,
    List.forall_mem_cons.2 ⟨hfirst.symbol_append hs hcomma, hothers⟩, hbehind, ?_, ?_⟩
  · rw [List.append_assoc]
  · cases others <;> simp [Text.join]

/-- What is read is written so, inside of a group and outside. -/
theorem isWritten_of_piecesOf (t : Text) :
    (∀ found, piecesOf none t = .ok found → IsWritten found t) ∧
      ∀ g found, piecesOf (some g) t = .ok found → IsWrittenWithin g found t := by
  induction scanned t with
  | done =>
    refine ⟨fun found h => ?_, fun g found h => ?_⟩
    · cases h
      exact isWritten_nil
    · cases h
  | opening _ ih =>
    refine ⟨fun found h => (ih.2 ⟨[], []⟩ found h).opening, fun g found h => ?_⟩
    cases h
  | closing _ ih =>
    refine ⟨fun found h => ?_, fun g found h => ?_⟩
    · cases h
    · rw [piecesOf_closing] at h
      obtain ⟨behind, hbehind, rfl⟩ := Except.map_eq_ok_iff.1 h
      exact (ih.1 behind hbehind).closing g
  | @symbol s rest hs _ ih =>
    refine ⟨fun found h => ?_, fun g found h => ?_⟩
    · rw [piecesOf_symbol hs] at h
      obtain ⟨behind, hbehind, rfl⟩ := Except.map_eq_ok_iff.1 h
      exact (ih.1 behind hbehind).cons hs
    · by_cases hcomma : s = [',']
      · subst hcomma
        exact (ih.2 _ found h).comma
      · rw [piecesOf_group_symbol hs hcomma] at h
        exact (ih.2 _ found h).symbol hs hcomma
  | broken defect hbroken =>
    refine ⟨fun found h => ?_, fun g found h => ?_⟩ <;>
    · rw [piecesOf_broken hbroken] at h
      cases h

/-- A glob is read as the pieces that it is written of. -/
theorem piecesOf_eq_ok_iff : piecesOf none glob = .ok found ↔ IsWritten found glob := by
  refine ⟨(isWritten_of_piecesOf glob).1 found, fun h => ?_⟩
  obtain ⟨hwellFormed, rfl⟩ := h
  induction found with
  | nil => rfl
  | cons piece rest ih =>
    obtain ⟨hpiece, hrest⟩ := List.forall_mem_cons.1 hwellFormed
    rw [List.flatMap_cons]
    cases piece with
    | fixed s =>
      rw [Piece.text, piecesOf_symbol hpiece, ih hrest]
      rfl
    | group options =>
      obtain ⟨hne, hoptions⟩ := hpiece
      obtain ⟨first, others, rfl⟩ := List.exists_cons_of_ne_nil hne
      rw [Piece.text, List.cons_append, List.cons_append, List.append_assoc, List.singleton_append,
        piecesOf_opening, piecesOf_options hoptions, ih hrest]
      rfl

end Reading

end Dotfiles.Glob
