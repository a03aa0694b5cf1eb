import Dotfiles.Proofs.Except
import Dotfiles.Proofs.Settings.Pieces

/-!
References to variables, replaced in two rounds. The first round replaces those in braces; the
second one reads what the first has made from the start and replaces those without braces; at the
end backslashes in front of dollar signs are dropped from all of it. Values that have been put in
are read like the rest of the path.
-/

namespace Dotfiles.Reference

open Piece

/-- A piece with its variable replaced, if it is one in braces. -/
def Piece.bracedReplaced (w : World) (label : Text) : Piece → Except Error Text
  | .braced name => valueOf w label name
  | p => .ok p.text

/-- A piece with its variable replaced. -/
def Piece.replaced (w : World) (label : Text) (p : Piece) : Except Error Text :=
  match p.name? with
  | some name => valueOf w label name
  | none => .ok p.text

/-- What is made of pieces, one after another. -/
def rewritten {m : Type → Type} [Monad m] (f : Piece → m Text) : List Piece → m Text
  | [] => pure []
  | p :: rest => do return (← f p) ++ (← rewritten f rest)

variable {w : World} {label : Text} {previous : Char} {t after : Text}

section Rewriting

variable {f : Piece → Except Error Text} {p : Piece} {found : List Piece} {u : Text}

theorem rewritten_cons (f : Piece → Except Error Text) (p : Piece) (rest : List Piece) :
    rewritten f (p :: rest) = f p >>= fun s => (s ++ ·) <$> rewritten f rest := rfl

theorem rewritten_cons_eq_ok_iff :
    rewritten f (p :: found) = .ok u ↔
      ∃ s rest, f p = .ok s ∧ rewritten f found = .ok rest ∧ u = s ++ rest := by
  rw [rewritten_cons, Except.bind_eq_ok_iff]
  simp only [Except.map_eq_ok_iff]
  constructor
  · rintro ⟨s, hs, rest, hrest, rfl⟩
    exact ⟨s, rest, hs, hrest, rfl⟩
  · rintro ⟨s, rest, hs, hrest, rfl⟩
    exact ⟨s, hs, rest, hrest, rfl⟩

theorem rewritten_cons_of_ok {s : Text} (h : f p = .ok s) (rest : List Piece) :
    rewritten f (p :: rest) = (s ++ ·) <$> rewritten f rest := by
  rw [rewritten_cons, h, Except.ok_bind]

theorem exists_mem_of_rewritten_eq_error {e : Error} (h : rewritten f found = .error e) :
    ∃ p ∈ found, f p = .error e := by
  induction found with
  | nil => cases h
  | cons p rest ih =>
    rw [rewritten_cons] at h
    cases hp : f p with
    | error d =>
      rw [hp] at h
      cases h
      exact ⟨p, List.mem_cons_self, hp⟩
    | ok s =>
      rw [hp, Except.ok_bind, Except.map_eq_error_iff] at h
      obtain ⟨q, hq, he⟩ := ih h
      exact ⟨q, List.mem_cons_of_mem _ hq, he⟩

end Rewriting

section FirstRound

theorem expandBraced_cons {c : Char} (h : c = '$' → t.head? ≠ some '\x7b') :
    expandBraced w label previous (c :: t) = (c :: ·) <$> expandBraced w label c t := by
  rw [expandBraced.eq_def w label previous (c :: t)]
  split
  · rename_i heq
    cases heq
  · rename_i heq
    cases heq
    exact absurd rfl (h rfl)
  · rename_i heq
    cases heq
    rfl

/-- Behind a backslash a dollar sign is kept, also in front of a brace. -/
theorem expandBraced_escaped (t : Text) :
    expandBraced w label '\\' ('$' :: t) = ('$' :: ·) <$> expandBraced w label '$' t := by
  by_cases ht : t.head? = some '\x7b'
  · obtain ⟨rest, rfl⟩ := List.head?_eq_some_iff.1 ht
    rw [expandBraced, if_pos rfl, expandBraced_cons (by simp)]
    cases expandBraced w label '\x7b' rest <;> rfl
  · exact expandBraced_cons fun _ => ht

theorem expandBraced_brace (h : previous ≠ '\\') (t : Text) :
    expandBraced w label previous ('$' :: '\x7b' :: t) = expandInBraces w label [] t := by
  rw [expandBraced, if_neg h]

theorem expandInBraces_name {name : Text} (h : '\x7d' ∉ name) (read rest : Text) :
    expandInBraces w label read (name ++ '\x7d' :: rest) =
      expandInBraces w label (read ++ name) ('\x7d' :: rest) := by
  induction name generalizing read with
  | nil => simp
  | cons c more ih =>
    rw [List.mem_cons, not_or] at h
    rw [List.cons_append, expandInBraces, if_neg (Ne.symm h.1), ih h.2]
    simp

theorem expandInBraces_of_not_mem (h : '\x7d' ∉ t) (read : Text) :
    expandInBraces w label read t = .ok ('$' :: '\x7b' :: (read ++ t)) := by
  induction t generalizing read with
  | nil => rw [expandInBraces, List.append_nil]
  | cons c rest ih =>
    rw [List.mem_cons, not_or] at h
    rw [expandInBraces, if_neg (Ne.symm h.1), ih h.2]
    simp

/-- Where no brace is closed nothing is replaced. -/
theorem expandBraced_of_not_mem : ∀ {t : Text} {previous : Char}, '\x7d' ∉ t →
    expandBraced w label previous t = .ok t
  | [], _, _ => rfl
  | c :: rest, previous, h => by
    have hrest : '\x7d' ∉ rest := fun hm => h (List.mem_cons_of_mem _ hm)
    by_cases hopen : c = '$' ∧ rest.head? = some '\x7b' ∧ previous ≠ '\\'
    · obtain ⟨rfl, hhead, hprevious⟩ := hopen
      obtain ⟨more, rfl⟩ := List.head?_eq_some_iff.1 hhead
      have hmore : '\x7d' ∉ more := fun hm => hrest (List.mem_cons_of_mem _ hm)
      rw [expandBraced_brace hprevious, expandInBraces_of_not_mem hmore, List.nil_append]
    · have hstep : expandBraced w label previous (c :: rest) =
          (c :: ·) <$> expandBraced w label c rest := by
        by_cases hescaped : c = '$' ∧ previous = '\\'
        · obtain ⟨rfl, rfl⟩ := hescaped
          exact expandBraced_escaped rest
        · exact expandBraced_cons fun hc hhead =>
            hopen ⟨hc, hhead, fun hp => hescaped ⟨hc, hp⟩⟩
      rw [hstep, expandBraced_of_not_mem hrest]
      rfl

/-- A dollar sign that no reference in braces follows is kept. -/
theorem expandBraced_dollar (hprevious : previous ≠ '\\')
    (hopen : ∀ rest, t = '\x7b' :: rest → '\x7d' ∈ rest → rest.head? = some '\x7d') :
    expandBraced w label previous ('$' :: t) = ('$' :: ·) <$> expandBraced w label '$' t := by
  by_cases ht : t.head? = some '\x7b'
  · obtain ⟨rest, rfl⟩ := List.head?_eq_some_iff.1 ht
    rw [expandBraced_brace hprevious]
    by_cases hclosed : '\x7d' ∈ rest
    · obtain ⟨more, rfl⟩ := List.head?_eq_some_iff.1 (hopen rest rfl hclosed)
      rw [expandInBraces, if_pos rfl, List.isEmpty_nil, if_pos rfl, expandBraced_cons (by simp),
        expandBraced_cons (by simp)]
      cases expandBraced w label '\x7d' more <;> rfl
    · rw [expandInBraces_of_not_mem hclosed, expandBraced_of_not_mem (by simpa using hclosed)]
      rfl
  · exact expandBraced_cons fun _ => ht

theorem expandBraced_append (w : World) (label : Text) (previous : Char) (t : Text) {first : Text}
    (h : '$' ∉ first) (hne : first ≠ []) :
    ∃ last ∈ first, expandBraced w label previous (first ++ t) =
      (first ++ ·) <$> expandBraced w label last t := by
  induction first generalizing previous with
  | nil => exact absurd rfl hne
  | cons c rest ih =>
    rw [List.mem_cons, not_or] at h
    rw [List.cons_append, expandBraced_cons fun hc => absurd hc.symm h.1]
    by_cases hrest : rest = []
    · subst hrest
      exact ⟨c, List.mem_cons_self, rfl⟩
    · obtain ⟨last, hlast, heq⟩ := ih c h.2 hrest
      refine ⟨last, List.mem_cons_of_mem _ hlast, ?_⟩
      rw [heq]
      cases expandBraced w label last t <;> rfl

/-- The first round replaces the references in braces and keeps everything else. -/
theorem expandBraced_eq (h : previous = '\\' → t.head? ≠ some '$') :
    expandBraced w label previous t = rewritten (bracedReplaced w label) (pieces true t) := by
  -- every piece ends in a character behind which what follows is read afresh
  induction t using pieces_induction true generalizing previous with
  | nil =>
    rw [pieces_nil]
    rfl
  | cons p after hp ih =>
    rw [hp.pieces_eq]
    cases hp with
    | escape =>
      show expandBraced w label previous ('\\' :: '$' :: after) = _
      rw [expandBraced_cons (by simp), expandBraced_escaped, ih (by simp),
        rewritten_cons_of_ok (s := ['\\', '$']) rfl]
      cases rewritten (bracedReplaced w label) (pieces true after) <;> rfl
    | @braced name _ hne hname =>
      have hprevious : previous ≠ '\\' := fun hb => h hb rfl
      have hempty : name.isEmpty ≠ true := by simpa using hne
      have htext : (Piece.braced name).text ++ after =
          '$' :: '\x7b' :: (name ++ '\x7d' :: after) := by simp [text]
      rw [htext, expandBraced_brace hprevious, expandInBraces_name hname, List.nil_append,
        expandInBraces, if_pos rfl, if_neg hempty, ih (by simp), rewritten_cons]
      refine congrArg _ (funext fun value => ?_)
      cases rewritten (bracedReplaced w label) (pieces true after) <;> rfl
    | @named name _ hne hname hafter =>
      have hdollar : '$' ∉ name := fun hm => isWord_ne (hname _ hm) (by decide) rfl
      obtain ⟨last, hlast, happend⟩ := expandBraced_append w label '$' after hdollar hne
      have hend : last ≠ '\\' := isWord_ne (hname _ hlast) (by decide)
      obtain ⟨c, rest, rfl⟩ := List.exists_cons_of_ne_nil hne
      have hbrace : c ≠ '\x7b' := isWord_ne (hname c (by simp)) (by decide)
      rw [text, List.cons_append, expandBraced_cons (by simpa using hbrace), happend,
        ih fun he => absurd he hend, rewritten_cons_of_ok (s := '$' :: c :: rest) rfl]
      cases rewritten (bracedReplaced w label) (pieces true after) <;> rfl
    | dollar hafter hopen =>
      have hprevious : previous ≠ '\\' := fun hb => h hb rfl
      rw [text, List.singleton_append, expandBraced_dollar hprevious (hopen rfl), ih (by simp),
        rewritten_cons_of_ok (s := ['$']) rfl]
      rfl
    | @char c _ hc hesc =>
      rw [text, List.singleton_append, expandBraced_cons fun he => absurd he hc, ih hesc,
        rewritten_cons_of_ok (s := [c]) rfl]
      rfl

end FirstRound

section SecondRound

theorem expandPlain_cons {c : Char} (h : c = '$' → previous = '\\') :
    expandPlain w label none previous (c :: t) = (c :: ·) <$> expandPlain w label none c t := by
  rw [expandPlain, if_neg]
  simpa using h

theorem expandPlain_dollar (h : previous ≠ '\\') (t : Text) :
    expandPlain w label none previous ('$' :: t) = expandPlain w label (some []) '$' t := by
  rw [expandPlain, if_pos (by simpa using h)]

/-- A name goes on as long as word characters follow. -/
theorem expandPlain_name (w : World) (label read : Text) (previous : Char) (t : Text) {name : Text}
    (h : ∀ c ∈ name, Text.isWord c = true) :
    ∃ last, expandPlain w label (some read) previous (name ++ t) =
      expandPlain w label (some (read ++ name)) last t := by
  induction name generalizing read previous with
  | nil => exact ⟨previous, by simp⟩
  | cons c rest ih =>
    obtain ⟨last, heq⟩ := ih (read ++ [c]) c fun d hd => h d (List.mem_cons_of_mem _ hd)
    refine ⟨last, ?_⟩
    rw [List.cons_append, expandPlain, if_pos (h c (by simp)), heq, List.append_assoc]
    rfl

/-- Where a name ends its value is put in, and reading goes on as if nothing came before. -/
theorem expandPlain_endsName {name : Text} {last : Char} (h : EndsName t) (next : Char)
    (hnext : next ≠ '\\') :
    expandPlain w label (some name) last t =
      namedValue w label name >>= fun value =>
        (value ++ ·) <$> expandPlain w label none next t := by
  cases t with
  | nil =>
    rw [expandPlain, expandPlain]
    cases namedValue w label name with
    | error e => rfl
    | ok value => exact congrArg Except.ok (List.append_nil value).symm
  | cons c rest =>
    have hc : Text.isWord c ≠ true := by simp [h c rfl]
    conv_lhs => rw [expandPlain, if_neg hc]
    refine congrArg _ (funext fun value => ?_)
    by_cases hdollar : c = '$'
    · subst hdollar
      rw [if_pos rfl, expandPlain_dollar hnext]
      cases expandPlain w label (some []) '$' rest <;> rfl
    · rw [if_neg hdollar, expandPlain_cons fun he => absurd he hdollar]
      cases expandPlain w label none c rest <;> rfl

/-- The second round replaces the references without braces of the text it is given and keeps
everything else. -/
theorem expandPlain_eq (h : previous = '\\' → t.head? ≠ some '$') :
    expandPlain w label none previous t = rewritten (replaced w label) (pieces false t) := by
  induction t using pieces_induction false generalizing previous with
  | nil =>
    rw [pieces_nil]
    rfl
  | cons p after hp ih =>
    rw [hp.pieces_eq]
    cases hp with
    | escape =>
      show expandPlain w label none previous ('\\' :: '$' :: after) = _
      rw [expandPlain_cons (by simp), expandPlain_cons fun _ => rfl, ih (by simp),
        rewritten_cons_of_ok (s := ['\\', '$']) rfl]
      cases rewritten (replaced w label) (pieces false after) <;> rfl
    | braced hb => cases hb
    | @named name _ hne hname hafter =>
      have hprevious : previous ≠ '\\' := fun hb => h hb rfl
      obtain ⟨last, heq⟩ := expandPlain_name w label [] '$' after hname
      have hempty : name.isEmpty ≠ true := by simpa using hne
      rw [text, List.cons_append, expandPlain_dollar hprevious, heq, List.nil_append,
        expandPlain_endsName hafter '$' (by decide), namedValue, if_neg hempty,
        ih (by simp), rewritten_cons]
      rfl
    | dollar hafter =>
      have hprevious : previous ≠ '\\' := fun hb => h hb rfl
      rw [text, List.singleton_append, expandPlain_dollar hprevious,
        expandPlain_endsName hafter '$' (by decide), ih (by simp), rewritten_cons]
      rfl
    | @char c _ hc hesc =>
      rw [text, List.singleton_append, expandPlain_cons fun he => absurd he hc, ih hesc,
        rewritten_cons_of_ok (s := [c]) rfl]
      rfl

/-- Variables are replaced in two readings, the second one of what the first has made, and then the
backslashes in front of dollar signs are dropped. -/
theorem expandVariables_eq (w : World) (label : Text) (p : Path) :
    expandVariables w label p = do
      let first ← rewritten (bracedReplaced w label) (pieces true p)
      let second ← rewritten (replaced w label) (pieces false first)
      return Text.unescape '$' second := by
  rw [expandVariables, expandBraced_eq (by simp)]
  refine congrArg _ (funext fun first => ?_)
  rw [expandPlain_eq (by simp)]

end SecondRound

end Dotfiles.Reference
