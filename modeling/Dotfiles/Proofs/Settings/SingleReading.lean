import Mathlib.Data.List.Chain
import Dotfiles.Proofs.Settings.Variables

/-!
A single reading of a path, in which every reference stands for the value of its variable as it is.
The two rounds of replacement come to the same if no value can be taken for part of a reference or
of an escape: then the second round finds the references that the path was written with and no
others, and only the escapes that the path was written with are resolved.
-/

namespace Dotfiles.Reference

open Piece

/-- What a piece stands for: a reference for the value of its variable, an escape for a dollar
sign, and a character for itself. -/
def Piece.meaning? (w : World) : Piece → Option Text
  | .char c => some [c]
  | .escape => some ['$']
  | .braced name => w.valueOf? name
  | .named name => w.valueOf? name

/-- The text that a path stands for when it is read once: every reference of it is replaced by the
value of its variable, which has to be defined. -/
def readOnce? (w : World) (p : Path) : Option Text := rewritten (meaning? w) (pieces true p)

/-- Whether a piece ends in a dollar sign or in a name behind one, which a word character after it
would go on with. -/
def Piece.isOpen : Piece → Bool
  | .char c => c = '$'
  | .named _ => true
  | _ => false

/-- Whether the value that comes to stand behind a piece, if it does before the piece is replaced,
keeps apart from the name that the piece ends in. -/
def KeepsApart (w : World) (p q : Piece) : Prop :=
  p.isOpen = true → ∀ name, q = .braced name → ∀ value ∈ w.valueOf? name,
    value ≠ [] ∧ EndsName value

/-- Whether no value that pieces refer to can be taken for part of a reference or of an escape. -/
structure AreInert (w : World) (found : List Piece) : Prop where
  /-- What is put in first contains no dollar sign. -/
  braced : ∀ name, .braced name ∈ found → ∀ value ∈ w.valueOf? name, '$' ∉ value
  /-- What is put in contains no escape and begins none. -/
  unescaped : ∀ p ∈ found, ∀ name ∈ p.name?, ∀ value ∈ w.valueOf? name,
    ¬ ['\\', '$'] <:+: value ∧ value.getLast? ≠ some '\\'
  apart : found.IsChain (KeepsApart w)

variable {w : World} {label : Text} {t after u : Text} {p : Piece} {found : List Piece}
  {f : Piece → Except Error Text}

theorem AreInert.tail (h : AreInert w (p :: found)) : AreInert w found :=
  ⟨fun name hq => h.braced name (List.mem_cons_of_mem _ hq),
    fun q hq => h.unescaped q (List.mem_cons_of_mem _ hq), h.apart.tail⟩

theorem valueOf_eq_ok_iff {name value : Text} :
    valueOf w label name = .ok value ↔ w.valueOf? name = some value := by
  unfold valueOf
  cases w.valueOf? name <;> simp

theorem valueOf_eq_error_iff {name : Text} {e : Error} :
    valueOf w label name = .error e ↔
      w.valueOf? name = none ∧ e = undefined label name := by
  unfold valueOf
  cases w.valueOf? name <;> simp [eq_comm]

theorem bracedReplaced_of_name?_eq_none (h : p.name? = none) :
    bracedReplaced w label p = .ok p.text := by
  cases p <;> first | rfl | cases h

theorem replaced_of_name?_eq_none (h : p.name? = none) : replaced w label p = .ok p.text := by
  rw [replaced, h]

theorem replaced_of_name? {name : Text} (h : p.name? = some name) :
    replaced w label p = valueOf w label name := by
  rw [replaced, h]

/-- What does not begin with a dollar sign does not begin with one after references have been
replaced. -/
theorem head?_rewritten (hf : ∀ p : Piece, p.name? = none → f p = .ok p.text)
    (h : t.head? ≠ some '$') (hu : rewritten f (pieces true t) = .ok u) : u.head? ≠ some '$' := by
  by_cases ht : t = []
  · subst ht
    rw [pieces_nil] at hu
    cases hu
    simp
  · obtain ⟨p, after, hp, rfl⟩ := exists_precedes true ht
    rw [hp.pieces_eq, rewritten_cons_eq_ok_iff] at hu
    obtain ⟨s, rest, hs, _, rfl⟩ := hu
    cases hp with
    | escape =>
      cases (hf .escape rfl).symm.trans hs
      simp [text]
    | braced => exact absurd rfl h
    | named => exact absurd rfl h
    | dollar => exact absurd rfl h
    | @char c _ hc =>
      cases (hf (.char c) rfl).symm.trans hs
      simpa [text] using hc

section SecondReading

/-- A name that ends where a text begins ends there also after the references in braces have been
replaced, if a value that comes first keeps apart from it. -/
theorem endsName_rewritten (hp : p.isOpen = true) (h : EndsName t)
    (hapart : ∀ q ∈ (pieces true t).head?, KeepsApart w p q)
    (hu : rewritten (bracedReplaced w label) (pieces true t) = .ok u) : EndsName u := by
  by_cases ht : t = []
  · subst ht
    rw [pieces_nil] at hu
    cases hu
    exact h
  · obtain ⟨q, after, hq, rfl⟩ := exists_precedes true ht
    rw [hq.pieces_eq] at hapart hu
    obtain ⟨s, rest, hs, _, rfl⟩ := rewritten_cons_eq_ok_iff.1 hu
    cases hq with
    | @braced name =>
      obtain ⟨hne, hends⟩ := hapart _ rfl hp name rfl s (valueOf_eq_ok_iff.1 hs)
      obtain ⟨c, more, rfl⟩ := List.exists_cons_of_ne_nil hne
      exact hends
    | escape | named | dollar | char =>
      cases hs
      exact h

/-- A value without dollar signs is read as it is, in front of what does not make an escape of its
end. -/
theorem rewritten_pieces_append (hf : ∀ p : Piece, p.name? = none → f p = .ok p.text) {value : Text}
    (h : '$' ∉ value) (hend : value.getLast? = some '\\' → t.head? ≠ some '$') :
    rewritten f (pieces false (value ++ t)) = (value ++ ·) <$> rewritten f (pieces false t) := by
  induction value with
  | nil =>
    cases hr : rewritten f (pieces false t) <;> simp [hr]
  | cons c rest ih =>
    rw [List.mem_cons, not_or] at h
    have hesc : c = '\\' → (rest ++ t).head? ≠ some '$' := by
      rintro rfl
      cases rest with
      | nil => exact hend rfl
      | cons d more => simpa using fun he => h.2 (by simp [he])
    have hchar : Precedes false (.char c) (rest ++ t) := .char (Ne.symm h.1) hesc
    have hpieces : pieces false (c :: (rest ++ t)) = .char c :: pieces false (rest ++ t) :=
      hchar.pieces_eq
    rw [List.cons_append, hpieces, rewritten_cons_of_ok (hf (.char c) rfl),
      ih h.2 fun hl => hend (Text.getLast?_of_rest hl c)]
    cases rewritten f (pieces false t) <;> rfl

/-- Between inert values the second round finds the references without braces that the path was
written with, and no others. -/
theorem AreInert.rewritten_pieces (h : AreInert w (pieces true t))
    (hu : rewritten (bracedReplaced w label) (pieces true t) = .ok u) :
    rewritten (replaced w label) (pieces false u) =
      rewritten (replaced w label) (pieces true t) := by
  induction t using pieces_induction true generalizing u with
  | nil =>
    rw [pieces_nil] at hu ⊢
    cases hu
    rw [pieces_nil]
  | cons p after hp ih =>
    rw [hp.pieces_eq] at h hu ⊢
    obtain ⟨s, rest, hs, hrest, rfl⟩ := rewritten_cons_eq_ok_iff.1 hu
    have ih := ih h.tail hrest
    have hapart : ∀ q ∈ (pieces true after).head?, KeepsApart w p q := fun q hq =>
      (List.isChain_cons.1 h.apart).1 q hq
    -- the same piece is read again, as what follows it after the first round neither goes on with
    -- its name nor makes an escape of it
    cases hp with
    | escape =>
      cases hs
      rw [(Precedes.escape rest).pieces_eq, rewritten_cons, rewritten_cons, ih]
    | @braced name =>
      have hvalue := valueOf_eq_ok_iff.1 hs
      have hdollar := h.braced name List.mem_cons_self s hvalue
      have hend := (h.unescaped _ List.mem_cons_self name rfl s hvalue).2
      have hs' : replaced w label (.braced name) = .ok s := hs
      rw [rewritten_pieces_append (fun _ => replaced_of_name?_eq_none) hdollar
        fun hl => absurd hl hend, rewritten_cons_of_ok hs', ih]
    | named hne hname hafter =>
      cases hs
      rw [(Precedes.named hne hname (endsName_rewritten rfl hafter hapart hrest)).pieces_eq,
        rewritten_cons, rewritten_cons, ih]
    | dollar hafter =>
      cases hs
      have hdollar : Precedes false (.char '$') rest :=
        .dollar (endsName_rewritten rfl hafter hapart hrest) fun hb => by cases hb
      rw [hdollar.pieces_eq, rewritten_cons, rewritten_cons, ih]
    | char hc hesc =>
      cases hs
      have hhead := fun he =>
        head?_rewritten (fun _ => bracedReplaced_of_name?_eq_none) (hesc he) hrest
      rw [(Precedes.char hc hhead).pieces_eq, rewritten_cons, rewritten_cons, ih]

end SecondReading

section Escapes

/-- A piece stands for what it is replaced by, with the escape of it resolved. -/
theorem meaning?_eq (label : Text)
    (h : ∀ name ∈ p.name?, ∀ value ∈ w.valueOf? name, ¬ ['\\', '$'] <:+: value) :
    meaning? w p = (replaced w label p).toOption.map (Text.unescape '$') := by
  have hvalue : ∀ name, p.name? = some name →
      w.valueOf? name = (valueOf w label name).toOption.map (Text.unescape '$') := by
    intro name hname
    unfold valueOf
    cases hdefined : w.valueOf? name with
    | none => rfl
    | some value =>
      exact congrArg some (Text.unescape_eq_self (h name hname value hdefined)).symm
  cases p with
  | char c => simp [meaning?, replaced, name?, text, Text.unescape, Except.toOption]
  | escape => rfl
  | braced name => exact hvalue name rfl
  | named name => exact hvalue name rfl

/-- No escape stands across the end of what a piece is replaced by. -/
theorem AreInert.ends (h : AreInert w (p :: pieces true after)) (hp : Precedes true p after)
    {s rest : Text} (hs : replaced w label p = .ok s)
    (hrest : rewritten (replaced w label) (pieces true after) = .ok rest)
    (hend : s.getLast? = some '\\') : rest.head? ≠ some '$' := by
  have hvalue : ∀ name, p.name? = some name → False := by
    intro name hname
    rw [replaced_of_name? hname, valueOf_eq_ok_iff] at hs
    exact (h.unescaped p List.mem_cons_self name hname s hs).2 hend
  cases hp with
  | escape =>
    cases hs
    cases hend
  | braced => exact (hvalue _ rfl).elim
  | named => exact (hvalue _ rfl).elim
  | dollar =>
    cases hs
    cases hend
  | char hc hesc =>
    cases hs
    exact head?_rewritten (fun _ => replaced_of_name?_eq_none) (hesc (by simpa [text] using hend))
      hrest

/-- Between inert values the escapes that are resolved are those that the path was written with. -/
theorem AreInert.rewritten_meaning? (label : Text) (h : AreInert w (pieces true t)) :
    rewritten (meaning? w) (pieces true t) =
      (rewritten (replaced w label) (pieces true t)).toOption.map (Text.unescape '$') := by
  induction t using pieces_induction true with
  | nil =>
    rw [pieces_nil]
    rfl
  | cons p after hp ih =>
    rw [hp.pieces_eq] at h ⊢
    have hmeaning := meaning?_eq label fun name hname value hvalue =>
      (h.unescaped p List.mem_cons_self name hname value hvalue).1
    rw [rewritten, rewritten_cons, hmeaning, ih h.tail]
    cases hs : replaced w label p with
    | error e => rfl
    | ok s =>
      cases hrest : rewritten (replaced w label) (pieces true after) with
      | error e => rfl
      | ok rest => exact congrArg some (Text.unescape_append (h.ends hp hs hrest)).symm

end Escapes

section Undefined

theorem exists_ok_of_rewritten (h : rewritten f found = .ok u) (hp : p ∈ found) :
    ∃ s, f p = .ok s := by
  induction found generalizing u with
  | nil => cases hp
  | cons q rest ih =>
    obtain ⟨s, more, hs, hmore, -⟩ := rewritten_cons_eq_ok_iff.1 h
    rcases List.mem_cons.1 hp with rfl | hp
    · exact ⟨s, hs⟩
    · exact ih hmore hp

theorem undefined_of_bracedReplaced {e : Error} (h : bracedReplaced w label p = .error e) :
    ∃ name ∈ p.name?, w.valueOf? name = none ∧ e = undefined label name := by
  cases p with
  | braced name => exact ⟨name, rfl, valueOf_eq_error_iff.1 h⟩
  | char | escape | named => cases h

theorem undefined_of_replaced {e : Error} (h : replaced w label p = .error e) :
    ∃ name ∈ p.name?, w.valueOf? name = none ∧ e = undefined label name := by
  cases hname : p.name? with
  | none =>
    rw [replaced_of_name?_eq_none hname] at h
    cases h
  | some name =>
    rw [replaced_of_name? hname] at h
    exact ⟨name, rfl, valueOf_eq_error_iff.1 h⟩

/-- Nothing but a variable without a value keeps a path from being expanded. -/
theorem undefined_of_expandVariables {e : Error} (h : expandVariables w label t = .error e) :
    ∃ name, w.valueOf? name = none ∧ e = undefined label name := by
  rw [expandVariables_eq] at h
  cases hfirst : rewritten (bracedReplaced w label) (pieces true t) with
  | error d =>
    rw [hfirst] at h
    cases h
    obtain ⟨p, _, hp⟩ := exists_mem_of_rewritten_eq_error hfirst
    obtain ⟨name, _, hname⟩ := undefined_of_bracedReplaced hp
    exact ⟨name, hname⟩
  | ok first =>
    rw [hfirst, Except.ok_bind] at h
    have hsecond := Except.map_eq_error_iff.1 h
    obtain ⟨p, _, hp⟩ := exists_mem_of_rewritten_eq_error hsecond
    obtain ⟨name, _, hname⟩ := undefined_of_replaced hp
    exact ⟨name, hname⟩

end Undefined

/-- Between inert values the two rounds come to the same as a single reading. -/
theorem AreInert.expandVariables_eq_ok_iff (h : AreInert w (pieces true t)) :
    expandVariables w label t = .ok u ↔ readOnce? w t = some u := by
  rw [expandVariables_eq, readOnce?, h.rewritten_meaning? label]
  cases hfirst : rewritten (bracedReplaced w label) (pieces true t) with
  | error e =>
    obtain ⟨p, hp, he⟩ := exists_mem_of_rewritten_eq_error hfirst
    obtain ⟨name, hname, hundefined, -⟩ := undefined_of_bracedReplaced he
    -- a variable that the first round does not find keeps the single reading from succeeding too
    have hsingle : ∀ s, rewritten (replaced w label) (pieces true t) ≠ .ok s := by
      intro s hs
      obtain ⟨value, hvalue⟩ := exists_ok_of_rewritten hs hp
      rw [replaced_of_name? hname, valueOf_eq_ok_iff, hundefined] at hvalue
      cases hvalue
    cases hs : rewritten (replaced w label) (pieces true t) with
    | error => exact iff_of_false nofun nofun
    | ok s => exact absurd hs (hsingle s)
  | ok first =>
    rw [Except.ok_bind, h.rewritten_pieces hfirst]
    cases rewritten (replaced w label) (pieces true t) with
    | error => exact iff_of_false nofun nofun
    | ok s => simp [Except.toOption, bind, Except.bind, pure, Except.pure]

theorem rewritten_eq_none_iff {g : Piece → Option Text} :
    rewritten g found = none ↔ ∃ p ∈ found, g p = none := by
  induction found with
  | nil => simp [rewritten]
  | cons p rest ih =>
    rw [List.exists_mem_cons_iff, ← ih, rewritten]
    cases g p with
    | none => simp
    | some s => cases rewritten g rest <;> simp

theorem meaning?_eq_none_iff :
    meaning? w p = none ↔ ∃ name ∈ p.name?, w.valueOf? name = none := by
  cases p <;> simp [meaning?, name?]

/-- A path is read as long as all variables that it refers to have values. -/
theorem readOnce?_eq_none_iff :
    readOnce? w t = none ↔ ∃ p ∈ pieces true t, ∃ name ∈ p.name?, w.valueOf? name = none := by
  simp only [readOnce?, rewritten_eq_none_iff, meaning?_eq_none_iff]

/-- Expanding a path reads it twice, what the second reading sees being what the first has made, and
fails only for want of a variable's value. If no value of a variable can be taken for part of a
reference or of an escape, it gives what a single reading of the path gives, every value as it is,
and fails exactly if the path refers to a variable without a value. -/
theorem expandVariables_readOnce (w : World) (label : Text) (p : Path) :
    (expandVariables w label p = do
      let first ← rewritten (bracedReplaced w label) (pieces true p)
      let second ← rewritten (replaced w label) (pieces false first)
      return Text.unescape '$' second) ∧
    (∀ e, expandVariables w label p = .error e →
      ∃ name, w.valueOf? name = none ∧ e = undefined label name) ∧
    (AreInert w (pieces true p) →
      (∀ t, expandVariables w label p = .ok t ↔ readOnce? w p = some t) ∧
      ((∃ e, expandVariables w label p = .error e) ↔
        ∃ q ∈ pieces true p, ∃ name ∈ q.name?, w.valueOf? name = none)) := by
  refine ⟨expandVariables_eq w label p, fun e => undefined_of_expandVariables, fun h => ?_⟩
  refine ⟨fun t => h.expandVariables_eq_ok_iff, ?_⟩
  rw [← readOnce?_eq_none_iff]
  cases hp : expandVariables w label p with
  | error e =>
    refine iff_of_true ⟨e, rfl⟩ (Option.eq_none_iff_forall_ne_some.2 fun t ht => ?_)
    rw [h.expandVariables_eq_ok_iff.2 ht] at hp
    cases hp
  | ok t =>
    rw [h.expandVariables_eq_ok_iff.1 hp]
    exact iff_of_false nofun nofun

/-- Surroundings in which one value contains dollar signs and backslashes. -/
def quotingWorld : World where
  files := .empty
  environment := [("A".toList, "a b".toList), ("B".toList, "x$y\\z".toList)]
  users := []
  uid := 1000
  platform := .posix

/-- What a value contains is kept, and an escape keeps a reference from being one. -/
theorem expandVariables_readOnce_quoting :
    AreInert quotingWorld (pieces true "\\$\x7bA\x7d$B/$\x7bA\x7d$".toList) ∧
      expandVariables quotingWorld [] "\\$\x7bA\x7d$B/$\x7bA\x7d$".toList =
        .ok "$\x7bA\x7dx$y\\z/a b$".toList := by
  have hpieces : pieces true "\\$\x7bA\x7d$B/$\x7bA\x7d$".toList =
      [.escape, .char '\x7b', .char 'A', .char '\x7d', .named ['B'], .char '/', .braced ['A'],
        .char '$'] := by decide +kernel
  have hinert : AreInert quotingWorld (pieces true "\\$\x7bA\x7d$B/$\x7bA\x7d$".toList) := by
    rw [hpieces]
    refine ⟨?_, ?_, ?_⟩
    · simp [quotingWorld, World.valueOf?]
    · decide
    · simp [KeepsApart, isOpen]
  refine ⟨hinert, ?_⟩
  have hread := ((expandVariables_readOnce quotingWorld [] _).2.2 hinert).1
  refine (hread _).2 ?_
  rw [readOnce?, hpieces]
  decide

/-- Surroundings in which values can be taken for parts of references and of escapes. -/
def speakingWorld : World where
  files := .empty
  environment := [("A".toList, "x".toList), ("B".toList, "y".toList), ("C".toList, "$B".toList),
    ("D".toList, "\\$".toList)]
  users := []
  uid := 1000
  platform := .posix

/-- A value that comes to stand behind a name becomes part of it; a value is looked through for
references if it has been put in for one in braces, and for escapes in any case. -/
theorem expandVariables_not_readOnce :
    (readOnce? speakingWorld "$A$\x7bB\x7d".toList = some "xy".toList ∧
      expandVariables speakingWorld [] "$A$\x7bB\x7d".toList =
        .error (.usage (.undefinedVariable [] "Ay".toList))) ∧
    (readOnce? speakingWorld "$\x7bC\x7d".toList = some "$B".toList ∧
      expandVariables speakingWorld [] "$\x7bC\x7d".toList = .ok "y".toList ∧
      expandVariables speakingWorld [] "$C".toList = .ok "$B".toList) ∧
    (readOnce? speakingWorld "$D".toList = some "\\$".toList ∧
      expandVariables speakingWorld [] "$D".toList = .ok "$".toList) := by
  decide +kernel

end Dotfiles.Reference
