import Mathlib.Data.List.TakeWhile
import Dotfiles.Proofs.Text.Scanning
import Dotfiles.Settings.Reference

/-!
A path read once from left to right. It is a sequence of pieces: dollar signs behind a backslash,
references to variables with braces or without, and characters that stand for themselves. Every
text is written of pieces in exactly one way.
-/

namespace Dotfiles.Reference

/-- What a path with references to variables is written of. -/
inductive Piece where
  | char (c : Char)
  /-- A dollar sign behind a backslash. -/
  | escape
  | braced (name : Text)
  | named (name : Text)
  deriving DecidableEq, Repr

namespace Piece

/-- How a piece is written. -/
def text : Piece → Text
  | .char c => [c]
  | .escape => ['\\', '$']
  | .braced name => '$' :: '\x7b' :: name ++ ['\x7d']
  | .named name => '$' :: name

/-- The name of the variable that a piece refers to. -/
def name? : Piece → Option Text
  | .braced name => some name
  | .named name => some name
  | _ => none

/-- Whether a text begins with no word character, so that no name before it goes on. -/
def EndsName (t : Text) : Prop := ∀ c ∈ t.head?, Text.isWord c = false

/-- Whether a piece is read in front of a text. The name of a reference is not empty; in braces
it goes on to the next closing one, and without it is the longest run of word characters. What is
no escape and no reference stands for itself. `braces` says whether references in braces are
read. -/
inductive Precedes (braces : Bool) : Piece → Text → Prop
  | escape (after : Text) : Precedes braces .escape after
  | braced {name : Text} (h : braces = true) (hne : name ≠ []) (hname : '\x7d' ∉ name)
    (after : Text) : Precedes braces (.braced name) after
  | named {name after : Text} (hne : name ≠ []) (hname : ∀ c ∈ name, Text.isWord c = true)
    (hafter : EndsName after) : Precedes braces (.named name) after
  | dollar {after : Text} (hafter : EndsName after)
    (hopen : braces = true → ∀ rest, after = '\x7b' :: rest → '\x7d' ∈ rest →
      rest.head? = some '\x7d') : Precedes braces (.char '$') after
  | char {c : Char} {after : Text} (hc : c ≠ '$') (hesc : c = '\\' → after.head? ≠ some '$') :
    Precedes braces (.char c) after

/-- A reference in braces behind a dollar sign, with what follows it. -/
def braced? : Text → Option (Piece × Text)
  | '\x7b' :: rest =>
    match Text.cut? '\x7d' rest with
    | some (c :: name, after) => some (.braced (c :: name), after)
    | _ => none
  | _ => none

/-- A reference without braces behind a dollar sign, with what follows it. -/
def named? (t : Text) : Option (Piece × Text) :=
  match t.takeWhile Text.isWord with
  | [] => none
  | c :: name => some (.named (c :: name), t.dropWhile Text.isWord)

/-- The first piece of a text, with what follows it. -/
def first? (braces : Bool) : Text → Option (Piece × Text)
  | [] => none
  | '\\' :: '$' :: rest => some (.escape, rest)
  | '$' :: rest =>
    ((if braces then braced? rest else none).or (named? rest)).or (some (.char '$', rest))
  | c :: rest => some (.char c, rest)

end Piece

open Piece

variable {braces : Bool} {p : Piece} {t after : Text}

section First

theorem isWord_ne {c d : Char} (h : Text.isWord c = true) (hd : Text.isWord d = false) : c ≠ d := by
  rintro rfl
  rw [h] at hd
  cases hd

theorem braced?_append {name : Text} (hne : name ≠ []) (hname : '\x7d' ∉ name) (after : Text) :
    braced? ('\x7b' :: (name ++ '\x7d' :: after)) = some (.braced name, after) := by
  obtain ⟨c, rest, rfl⟩ := List.exists_cons_of_ne_nil hne
  rw [braced?, Text.cut?_append hname]

/-- A brace that is not closed behind a name begins no reference. -/
theorem braced?_eq_none
    (h : ∀ rest, t = '\x7b' :: rest → '\x7d' ∈ rest → rest.head? = some '\x7d') :
    braced? t = none := by
  unfold braced?
  split
  · rename_i rest
    by_cases hclosed : '\x7d' ∈ rest
    · obtain ⟨more, rfl⟩ := List.head?_eq_some_iff.1 (h rest rfl hclosed)
      rfl
    · rw [Text.cut?_of_not_mem hclosed]
  · rfl

theorem named?_append {name : Text} (hne : name ≠ []) (hname : ∀ c ∈ name, Text.isWord c = true)
    (hafter : EndsName after) : named? (name ++ after) = some (.named name, after) := by
  obtain ⟨htake, hdrop⟩ := Text.takeWhile_run hname hafter
  obtain ⟨c, rest, rfl⟩ := List.exists_cons_of_ne_nil hne
  rw [named?, htake, hdrop]

theorem named?_eq_none (h : EndsName t) : named? t = none := by
  cases t with
  | nil => rfl
  | cons c rest => rw [named?, List.takeWhile_cons_of_neg (by simp [h c rfl])]

theorem endsName_dropWhile (t : Text) : EndsName (t.dropWhile Text.isWord) := by
  intro c hc
  have hstop := List.head?_dropWhile_not Text.isWord t
  rw [hc] at hstop
  exact hstop

theorem first?_dollar (rest : Text) :
    first? braces ('$' :: rest) =
      ((if braces then braced? rest else none).or (named? rest)).or (some (.char '$', rest)) := rfl

theorem first?_char {c : Char} (hc : c ≠ '$') (hesc : c = '\\' → after.head? ≠ some '$') :
    first? braces (c :: after) = some (.char c, after) := by
  unfold first?
  split
  · rename_i heq
    cases heq
  · rename_i heq
    cases heq
    exact absurd rfl (hesc rfl)
  · rename_i heq
    cases heq
    exact absurd rfl hc
  · rename_i heq
    cases heq
    rfl

/-- What is read in front of a text is the first piece of both. -/
theorem Piece.Precedes.first?_eq (h : Precedes braces p after) :
    first? braces (p.text ++ after) = some (p, after) := by
  cases h with
  | escape => rfl
  | @braced name h hne hname =>
    have hbraced := braced?_append hne hname after
    simp only [text, List.cons_append, List.append_assoc, List.nil_append, first?_dollar, h,
      hbraced]
    rfl
  | @named name _ hne hname hafter =>
    obtain ⟨c, rest, rfl⟩ := List.exists_cons_of_ne_nil hne
    have hc : c ≠ '\x7b' := isWord_ne (hname c (by simp)) (by decide)
    have hbraced : braced? ((c :: rest) ++ after) = none :=
      braced?_eq_none fun more he => absurd (List.cons.inj he).1 hc
    rw [text, List.cons_append, first?_dollar, hbraced, named?_append hne hname hafter, ite_self]
    rfl
  | dollar hafter hopen =>
    have hbraced : (if braces then braced? after else none) = none := by
      split
      · rename_i hb
        exact braced?_eq_none (hopen hb)
      · rfl
    rw [text, List.singleton_append, first?_dollar, hbraced, named?_eq_none hafter]
    rfl
  | char hc hesc => exact first?_char hc hesc

/-- Every text that is not empty begins with a piece. -/
theorem exists_precedes (braces : Bool) (ht : t ≠ []) :
    ∃ p after, Precedes braces p after ∧ t = p.text ++ after := by
  obtain ⟨c, rest, rfl⟩ := List.exists_cons_of_ne_nil ht
  by_cases hc : c = '$'
  · subst hc
    by_cases hclosed : braces = true ∧ ∃ more, rest = '\x7b' :: more ∧ '\x7d' ∈ more ∧
        more.head? ≠ some '\x7d'
    · obtain ⟨hb, more, rfl, hmem, hhead⟩ := hclosed
      obtain ⟨name, after, rfl, hname⟩ := List.eq_append_cons_of_mem hmem
      have hne : name ≠ [] := by
        rintro rfl
        exact hhead rfl
      exact ⟨.braced name, after, .braced hb hne hname after, by simp [text]⟩
    · have hopen : braces = true → ∀ more, rest = '\x7b' :: more → '\x7d' ∈ more →
          more.head? = some '\x7d' := by
        intro hb more he hm
        by_contra hhead
        exact hclosed ⟨hb, more, he, hm, hhead⟩
      have hends := endsName_dropWhile rest
      have hrest := List.takeWhile_append_dropWhile (p := Text.isWord) (l := rest)
      by_cases hname : rest.takeWhile Text.isWord = []
      · rw [hname, List.nil_append] at hrest
        rw [hrest] at hends
        exact ⟨.char '$', rest, .dollar hends hopen, rfl⟩
      · refine ⟨.named (rest.takeWhile Text.isWord), rest.dropWhile Text.isWord,
          .named hname (fun d hd => List.mem_takeWhile_imp hd) hends, ?_⟩
        rw [text, List.cons_append, hrest]
  · by_cases hesc : c = '\\' ∧ rest.head? = some '$'
    · obtain ⟨rfl, hhead⟩ := hesc
      obtain ⟨more, rfl⟩ := List.head?_eq_some_iff.1 hhead
      exact ⟨.escape, more, .escape more, rfl⟩
    · exact ⟨.char c, rest, .char hc fun h he => hesc ⟨h, he⟩, rfl⟩

theorem Piece.text_ne_nil (p : Piece) : p.text ≠ [] := by
  cases p <;> simp [text]

/-- What follows the first piece is shorter. -/
theorem length_of_first? (h : first? braces t = some (p, after)) : after.length < t.length := by
  by_cases ht : t = []
  · subst ht
    cases h
  · obtain ⟨q, rest, hq, rfl⟩ := exists_precedes braces ht
    rw [hq.first?_eq] at h
    cases h
    have hpos := List.length_pos_of_ne_nil p.text_ne_nil
    rw [List.length_append]
    omega

end First

/-- The pieces that a text is written of. -/
def pieces (braces : Bool) (t : Text) : List Piece :=
  match _hfirst : first? braces t with
  | some (p, after) => p :: pieces braces after
  | none => []
termination_by t.length
decreasing_by exact length_of_first? _hfirst

section Pieces

theorem pieces_nil (braces : Bool) : pieces braces [] = [] := by
  rw [pieces]
  rfl

theorem Piece.Precedes.pieces_eq (h : Precedes braces p after) :
    pieces braces (p.text ++ after) = p :: pieces braces after := by
  rw [pieces]
  split
  · rename_i hfirst
    rw [h.first?_eq] at hfirst
    cases hfirst
    rfl
  · rename_i hfirst
    rw [h.first?_eq] at hfirst
    cases hfirst

/-- What holds of the empty text, and of a piece in front of a text if it holds of the text, holds
of every text. -/
theorem pieces_induction (braces : Bool) {motive : Text → Prop} (nil : motive [])
    (cons : ∀ p after, Precedes braces p after → motive after → motive (p.text ++ after))
    (t : Text) : motive t := by
  by_cases ht : t = []
  · exact ht ▸ nil
  · obtain ⟨p, after, hp, rfl⟩ := exists_precedes braces ht
    exact cons p after hp (pieces_induction braces nil cons after)
termination_by t.length
decreasing_by
  subst_vars
  exact length_of_first? hp.first?_eq

/-- Nothing is lost: the pieces give the text back. -/
theorem flatMap_text_pieces (braces : Bool) (t : Text) :
    (pieces braces t).flatMap Piece.text = t := by
  induction t using pieces_induction braces with
  | nil => rw [pieces_nil, List.flatMap_nil]
  | cons p after hp ih => rw [hp.pieces_eq, List.flatMap_cons, ih]

end Pieces

end Dotfiles.Reference
