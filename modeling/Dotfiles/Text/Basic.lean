/-!
Text as a list of characters, with the cuts and joins that paths, globs and
documents are read with. Lengths, order and character classes all go by code
point, so a list of characters is exactly what they are defined on.
-/

namespace Dotfiles

/-- A text, as the list of its characters. -/
abbrev Text := List Char

namespace Text

/-- The text as a string, for messages and printing. -/
def str (t : Text) : String := String.ofList t

/-- The parts of a text between the occurrences of a separator. There is one
part more than there are separators, so the result is never empty. -/
def split (sep : Char) : Text → List Text
  | [] => [[]]
  | c :: rest =>
    if c = sep then [] :: split sep rest
    else
      match split sep rest with
      | [] => [[c]]
      | part :: parts => (c :: part) :: parts

/-- The parts written one after another with a separator between them. -/
def join (sep : Char) : List Text → Text
  | [] => []
  | [part] => part
  | part :: parts => part ++ sep :: join sep parts

/-- Texts one after another with a blank between them. -/
def spaced (parts : List Text) : Text := join ' ' parts

theorem split_ne_nil (sep : Char) (t : Text) : split sep t ≠ [] := by
  cases t with
  | nil => simp [split]
  | cons c rest =>
    unfold split
    split
    · simp
    · split <;> simp

/-- Cutting at a separator loses nothing: joining the parts gives the text back. -/
theorem join_split (sep : Char) (t : Text) : join sep (split sep t) = t := by
  induction t with
  | nil => rfl
  | cons c rest ih =>
    unfold split
    split
    · rename_i h
      cases hs : split sep rest with
      | nil => exact absurd hs (split_ne_nil sep rest)
      | cons part parts => rw [hs] at ih; simp [join, h, ih]
    · cases hs : split sep rest with
      | nil => exact absurd hs (split_ne_nil sep rest)
      | cons part parts =>
        rw [hs] at ih
        cases parts with
        | nil => simpa [join] using ih
        | cons p ps => simp [join] at ih ⊢; exact ih

theorem mem_join {sep c : Char} {parts : List Text} (h : c ∈ join sep parts) :
    c = sep ∨ ∃ part ∈ parts, c ∈ part := by
  induction parts with
  | nil => cases h
  | cons part rest ih =>
    cases rest with
    | nil => exact .inr ⟨part, by simp, h⟩
    | cons next others =>
      have h : c ∈ part ++ sep :: join sep (next :: others) := h
      rcases List.mem_append.1 h with h | h
      · exact .inr ⟨part, by simp, h⟩
      · rcases List.mem_cons.1 h with rfl | h
        · exact .inl rfl
        · exact (ih h).imp_right fun ⟨p, hm, hc⟩ => ⟨p, List.mem_cons_of_mem _ hm, hc⟩

/-- No part holds the separator it was cut at. -/
theorem not_mem_of_mem_split {sep : Char} {t part : Text} (h : part ∈ split sep t) :
    sep ∉ part := by
  induction t generalizing part with
  | nil => simp_all [split]
  | cons c rest ih =>
    unfold split at h
    split at h
    · rcases List.mem_cons.1 h with rfl | h
      · simp
      · exact ih h
    · rename_i hc
      split at h
      · simp_all [Ne.symm hc]
      · rename_i first others hs
        rcases List.mem_cons.1 h with rfl | h
        · have := ih (hs ▸ List.mem_cons_self)
          simp [this, Ne.symm hc]
        · exact ih (hs ▸ List.mem_cons_of_mem _ h)

/-- A text without the separator is a single part. -/
theorem split_of_not_mem {sep : Char} {t : Text} (h : sep ∉ t) : split sep t = [t] := by
  induction t with
  | nil => rfl
  | cons c rest ih =>
    have hc : c ≠ sep := fun e => h (e ▸ List.mem_cons_self)
    simp [split, hc, ih fun hr => h (List.mem_cons_of_mem _ hr)]

/-- The part before the first separator comes first. -/
theorem split_append_cons {sep : Char} {part : Text} (h : sep ∉ part) (t : Text) :
    split sep (part ++ sep :: t) = part :: split sep t := by
  induction part with
  | nil => simp [split]
  | cons c rest ih =>
    have hc : c ≠ sep := fun e => h (e ▸ List.mem_cons_self)
    simp [split, hc, ih fun hr => h (List.mem_cons_of_mem _ hr)]

/-- Parts that do not hold the separator are found again in the text they are joined to. -/
theorem split_join {sep : Char} {parts : List Text} (h : ∀ part ∈ parts, sep ∉ part)
    (hne : parts ≠ []) : split sep (join sep parts) = parts := by
  induction parts with
  | nil => exact absurd rfl hne
  | cons part rest ih =>
    cases rest with
    | nil => exact split_of_not_mem (h part List.mem_cons_self)
    | cons next others =>
      rw [join, split_append_cons (h part List.mem_cons_self)]
      · rw [ih (fun p hp => h p (List.mem_cons_of_mem _ hp)) (by simp)]
      · simp

/-- The text after a given beginning, if it begins so. -/
def dropPrefix? : Text → Text → Option Text
  | [], t => some t
  | _ :: _, [] => none
  | p :: ps, c :: cs => if p = c then dropPrefix? ps cs else none

theorem dropPrefix?_eq_some_iff {beginning t more : Text} :
    dropPrefix? beginning t = some more ↔ t = beginning ++ more := by
  induction beginning generalizing t with
  | nil => simp [dropPrefix?]
  | cons c rest ih =>
    cases t with
    | nil => simp [dropPrefix?]
    | cons d others =>
      rw [dropPrefix?]
      split
      · rename_i h
        simp [h, ih]
      · rename_i h
        simp [Ne.symm h]

/-- Whether a text begins with another one. -/
def startsWith (t beginning : Text) : Bool := (dropPrefix? beginning t).isSome

theorem startsWith_iff {t beginning : Text} :
    startsWith t beginning = true ↔ beginning <+: t := by
  rw [startsWith, Option.isSome_iff_exists]
  exact exists_congr fun _ => dropPrefix?_eq_some_iff.trans eq_comm

/-- The text before the first occurrence of a character and the text after it,
or `none` where the character does not occur. -/
def cut? (mark : Char) : Text → Option (Text × Text)
  | [] => none
  | c :: rest =>
    if c = mark then some ([], rest)
    else (cut? mark rest).map fun (before, after) => (c :: before, after)

/-- Whether a backslash followed by the given character occurs. -/
def hasEscaped (mark : Char) : Text → Bool
  | '\\' :: c :: rest => c = mark || hasEscaped mark (c :: rest)
  | _ :: rest => hasEscaped mark rest
  | [] => false

/-- Each backslash in front of the given character removed. -/
def unescape (mark : Char) : Text → Text
  | '\\' :: c :: rest =>
    if c = mark then mark :: unescape mark rest else '\\' :: unescape mark (c :: rest)
  | c :: rest => c :: unescape mark rest
  | [] => []

/-- The order of texts by code point: the first difference decides, and a
proper beginning comes first. -/
def before : Text → Text → Bool
  | _, [] => false
  | [], _ :: _ => true
  | a :: as, b :: bs => if a = b then before as bs else decide (a.toNat < b.toNat)

/-- The texts in code point order; equal ones keep their places. -/
def sort (texts : List Text) : List Text := texts.mergeSort fun a b => !before b a

/-- A natural number in decimal. -/
def ofNat (n : Nat) : Text := Nat.toDigits 10 n

/-- An integer in decimal, with a minus sign in front of a negative one. -/
def ofInt : Int → Text
  | .ofNat n => ofNat n
  | .negSucc n => '-' :: ofNat (n + 1)

/-- A text filled up on the left with a character to at least a given length. -/
def padLeft (width : Nat) (fill : Char) (t : Text) : Text :=
  List.replicate (width - t.length) fill ++ t

/-- A natural number in lower-case hexadecimal, of at least the given number of digits. -/
def hex (width n : Nat) : Text := padLeft width '0' (Nat.toDigits 16 n)

end Text

end Dotfiles
