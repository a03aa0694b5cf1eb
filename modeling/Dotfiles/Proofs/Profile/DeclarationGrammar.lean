import Dotfiles.Proofs.Path.Renormalizing
import Dotfiles.Proofs.Profile.Grammar
import Dotfiles.Proofs.Profile.Written

/-!
The grammar of declarations, said without reading them. Two grammars differ in what counts as a
method between angle brackets and as a list of globs: the documented one, and the one that is taken
in practice, in which a line feed may follow the closing bracket and the globs may be held by
anything that holds texts alone. Everything that is refused is reported as a fault of the document,
unless reading stops at a key that cannot be written out.
-/

namespace Dotfiles

/-- Whether a path begins with a prefix that no path of a profile may begin with: with two
backslashes or, where paths have drives, with two separators or with any character and a colon. -/
def Path.HasRejectedPrefix (drives : Bool) (p : Path) : Prop :=
  ∃ a b rest, p = a :: b :: rest ∧
    (a = '\\' ∧ b = '\\' ∨ drives = true ∧ (b = ':' ∨ Path.IsSeparator a ∧ Path.IsSeparator b))

/-- What a value holds, if it can be gone through: the items of a list, the keys of a mapping, the
members of a set, the two values of a pair, the numbers of bytes. -/
def Value.items? : Value → Option (List Value)
  | .list items => some items
  | .map fields => some (fields.map fun field => .scalar field.1)
  | .set members => some (members.map .scalar)
  | .pair a b => some [a, b]
  | .scalar (.bytes data) => some (data.map fun b => .scalar (.int b.toNat))
  | _ => none

/-- The kind that an error is reported as, if it is reported. -/
def Error.kind? (e : Error) : Option Report.Kind := e.report?.map (·.kind)

namespace Declaration

/-- What grammars of declarations differ in. -/
structure Grammar where
  /-- Whether a text stands for a method. -/
  IsMethod : Text → Prop
  /-- Whether a value stands for a list of globs. -/
  AreGlobs : Value → Prop

namespace Grammar

/-- The documented grammar: a method stands between angle brackets, and globs are a text or a list
of texts. -/
def documented : Grammar where
  IsMethod t := ∃ m : Method, t = '<' :: (m.name ++ ['>'])
  AreGlobs v := (∃ t, v = .text t) ∨ ∃ globs : List Text, v = .list (globs.map .text)

/-- The grammar that is taken. -/
def taken : Grammar where
  IsMethod t := ∃ m : Method, t = '<' :: (m.name ++ ['>']) ∨ t = '<' :: (m.name ++ ['>', '\n'])
  AreGlobs v := (∃ t, v = .text t) ∨ ∃ globs : List Text, v.items? = some (globs.map .text)

/-- Whether a value can stand under the key of an attribute. -/
def CanStand (g : Grammar) (drives : Bool) : AttributeKey → Value → Prop
  | .source, v => ∃ t, v = .text t ∧ ¬ Path.HasRejectedPrefix drives t
  | .method, v => ∃ m : Method, v = .text m.name
  | .recursive, v => ∃ b, v = .scalar (.bool b)
  | .ignore, v => g.AreGlobs v

end Grammar

/-- Whether a value is a declaration: nothing, a method, a source, or a mapping whose keys are
texts. What stands in a mapping under the key of an attribute sets it; other reserved keys do not
matter; and under all other keys, which are paths, there are declarations. -/
inductive IsDeclared (g : Grammar) (drives : Bool) : Value → Prop
  | null : IsDeclared g drives .null
  | method {t : Text} (h : g.IsMethod t) : IsDeclared g drives (.text t)
  | source {t : Text} (h : t.head? ≠ some '<') (hp : ¬ Path.HasRejectedPrefix drives t) :
    IsDeclared g drives (.text t)
  | map {fields : Fields} (texts : ∀ field ∈ fields, ∃ key, field.1 = .text key)
    (attributes : ∀ slot value, (Scalar.text (AttributeKey.text slot), value) ∈ fields →
      g.CanStand drives slot value)
    (paths : ∀ key value, (Scalar.text key, value) ∈ fields → isReserved key = false →
      ¬ Path.HasRejectedPrefix drives key)
    (below : ∀ key value, (Scalar.text key, value) ∈ fields → isReserved key = false →
      IsDeclared g drives value) : IsDeclared g drives (.map fields)

/-- Whether reading stops, with nothing refused before, at a key that is no text and has more digits
than are ever written, or does not end. -/
inductive IsCutShort (drives : Bool) : Value → Prop
  | endless : IsCutShort drives .endless
  | key {before after : Fields} {key : Scalar} {value : Value}
    (hbefore : IsDeclared .taken drives (.map before)) (hkey : key.isWritable = false) :
    IsCutShort drives (.map (before ++ (key, value) :: after))
  | inside {before after : Fields} {key : Text} {value : Value}
    (hbefore : IsDeclared .taken drives (.map before)) (hres : isReserved key = false)
    (hkey : ¬ Path.HasRejectedPrefix drives key) (h : IsCutShort drives value) :
    IsCutShort drives (.map (before ++ (.text key, value) :: after))

variable {drives : Bool} {place : Path} {t name : Text} {value : Value}

section Paths

theorem isRejected_iff {p : Path} :
    Path.isRejected drives (Path.drivePrefix p) = true ↔ Path.HasRejectedPrefix drives p := by
  rcases p with _ | ⟨a, _ | ⟨b, rest⟩⟩
  · rw [Path.drivePrefix_of_short (by simp)]
    simp [Path.isRejected, Path.HasRejectedPrefix]
  · rw [Path.drivePrefix_of_short (by simp)]
    simp [Path.isRejected, Path.HasRejectedPrefix]
  · rw [Path.isRejected_drivePrefix_iff]
    simp [Path.HasRejectedPrefix]

theorem isOk_normalPath {p : Path} :
    (normalPath drives p).isOk = true ↔ ¬ Path.HasRejectedPrefix drives p := by
  rw [← isRejected_iff, normalPath, Path.normalize]
  cases Path.isRejected drives (Path.drivePrefix p) <;>
    simp [Except.mapError, Except.isOk, Except.toBool]

end Paths

section Methods

/-- A name stands between the opening bracket and the closing one, which ends the text or the line
that the text begins with. -/
theorem bracketedName?_eq_some_iff :
    bracketedName? t = some name ↔ '\n' ∉ name ∧ (t = name ++ ['>'] ∨ t = name ++ ['>', '\n']) := by
  have hreverse : ∀ closing inner : Text, t.reverse = closing ++ inner ↔
      t = inner.reverse ++ closing.reverse := by
    intro closing inner
    rw [List.reverse_eq_iff, List.reverse_append]
  rw [bracketedName?, Option.filter_eq_some_iff, and_comm]
  refine and_congr (by simp) ?_
  constructor
  · intro h
    split at h
    · rename_i inner heq
      cases h
      exact .inl ((hreverse ['>'] inner).1 heq)
    · rename_i inner heq
      cases h
      exact .inr ((hreverse ['\n', '>'] inner).1 heq)
    · cases h
  · rintro (rfl | rfl) <;> simp

theorem isOk_methodOf {written : Text} :
    (methodOf name written).isOk = true ↔ ∃ m : Method, name = m.name := by
  unfold methodOf
  constructor
  · intro h
    split at h
    · rename_i m hm
      have hname := List.find?_some hm
      exact ⟨m, (of_decide_eq_true hname).symm⟩
    · cases h
  · rintro ⟨m, rfl⟩
    cases m <;> rfl

/-- The names of methods stand on one line. -/
theorem not_mem_name (m : Method) : '\n' ∉ m.name := by
  cases m <;> decide

theorem bracketedName?_eq_name_iff {m : Method} : bracketedName? t = some m.name ↔
    t = m.name ++ ['>'] ∨ t = m.name ++ ['>', '\n'] := by
  rw [bracketedName?_eq_some_iff, and_iff_right (not_mem_name m)]

theorem isOk_bracketed {rest : Text} : (attributesOfText drives ('<' :: rest)).isOk = true ↔
    Grammar.taken.IsMethod ('<' :: rest) := by
  have hmethod : Grammar.taken.IsMethod ('<' :: rest) ↔
      ∃ m : Method, bracketedName? rest = some m.name := by
    simp only [Grammar.taken, bracketedName?_eq_name_iff, List.cons.injEq, true_and]
  rw [hmethod, attributesOfText]
  cases bracketedName? rest with
  | none => simp [Except.isOk, Except.toBool]
  | some name => simp only [Except.isOk_map, isOk_methodOf, Option.some.injEq]

/-- A text is a method if it begins with a bracket, and a source if it does not. -/
theorem isOk_attributesOfText : (attributesOfText drives t).isOk = true ↔
    Grammar.taken.IsMethod t ∨ t.head? ≠ some '<' ∧ ¬ Path.HasRejectedPrefix drives t := by
  by_cases h : t.head? = some '<'
  · obtain ⟨rest, rfl⟩ := List.head?_eq_some_iff.1 h
    rw [isOk_bracketed]
    simp
  · have hmethod : ¬ Grammar.taken.IsMethod t := by
      rintro ⟨m, rfl | rfl⟩ <;> exact h rfl
    rw [or_iff_right hmethod, and_iff_right h, ← isOk_normalPath]
    unfold attributesOfText
    split
    · exact absurd rfl h
    · rw [Except.isOk_map]

end Methods

section Globs

theorem mapM_globOfValue_eq_ok_iff {items : List Value} {globs : List Text} :
    items.mapM GlobList.globOfValue = .ok globs ↔ items = globs.map .text := by
  induction items generalizing globs with
  | nil => cases globs <;> simp [pure, Except.pure]
  | cons item rest ih =>
    have hitem : ∀ glob, GlobList.globOfValue item = .ok glob ↔ item = .text glob := by
      intro glob
      unfold GlobList.globOfValue Value.text
      split <;> simp_all
    rw [List.mapM_cons, Except.bind_eq_ok_iff]
    cases globs with
    | nil =>
      simp only [Except.bind_eq_ok_iff]
      simp [pure, Except.pure]
    | cons glob globs =>
      simp only [Except.bind_eq_ok_iff, hitem, ih]
      simp [pure, Except.pure]

theorem ofValue_of_items? {items : List Value} (h : value.items? = some items) :
    GlobList.ofValue value = GlobList.mk <$> items.mapM GlobList.globOfValue := by
  unfold Value.items? at h
  split at h <;> cases h
  · rfl
  · rw [List.mapM_map]
    rfl
  · rw [List.mapM_map]
    rfl
  · rfl
  · rw [List.mapM_map]
    rfl

/-- Globs are taken from whatever can be gone through and holds texts alone. -/
theorem isOk_ofValue : (GlobList.ofValue value).isOk = true ↔ Grammar.taken.AreGlobs value := by
  by_cases htext : ∃ t, value = .text t
  · obtain ⟨t, rfl⟩ := htext
    exact iff_of_true rfl (.inl ⟨t, rfl⟩)
  · have htaken : Grammar.taken.AreGlobs value ↔
        ∃ globs : List Text, value.items? = some (globs.map .text) := or_iff_right htext
    rw [htaken]
    cases hitems : value.items? with
    | none =>
      refine iff_of_false (fun h => ?_) (by simp)
      unfold GlobList.ofValue at h
      split at h
      · exact htext ⟨_, rfl⟩
      all_goals first | cases hitems | cases h
    | some items =>
      rw [ofValue_of_items? hitems, Except.isOk_map, Except.isOk_iff]
      simp only [mapM_globOfValue_eq_ok_iff, Option.some.injEq]

end Globs

section Attributes

/-- What is accepted under the key of an attribute is what can stand there. -/
theorem isOk_setAttribute_iff {slot : AttributeKey} :
    (setAttribute drives [] .empty slot value).isOk = true ↔
      Grammar.taken.CanStand drives slot value := by
  constructor
  · intro h
    unfold setAttribute at h
    split at h
    · rename_i t
      rw [Except.isOk_bind (b := true) fun _ => rfl, Bool.and_true] at h
      exact ⟨t, rfl, isOk_normalPath.1 h⟩
    · rename_i t
      rw [Except.isOk_bind (b := true) fun _ => rfl, Bool.and_true] at h
      obtain ⟨m, rfl⟩ := isOk_methodOf.1 h
      exact ⟨m, rfl⟩
    · rename_i b
      exact ⟨b, rfl⟩
    · refine isOk_ofValue.1 ?_
      split at h
      · rename_i hglobs
        rw [hglobs]
        rfl
      · cases h
    · cases h
  · intro h
    cases slot with
    | source =>
      obtain ⟨t, rfl, hp⟩ := h
      exact (Except.isOk_bind (b := true) fun _ => rfl).trans (by rw [isOk_normalPath.2 hp]; rfl)
    | method =>
      obtain ⟨m, rfl⟩ := h
      cases m <;> rfl
    | recursive =>
      obtain ⟨b, rfl⟩ := h
      rfl
    | ignore =>
      obtain ⟨globs, hglobs⟩ := Except.isOk_iff.1 (isOk_ofValue.2 h)
      rw [setAttribute, hglobs]
      rfl

/-- Whether a field can stand in a declaration. -/
theorem isField_iff {key : Text} : isField drives (.text key, value) = true ↔
    (∀ slot, key = AttributeKey.text slot → Grammar.taken.CanStand drives slot value) ∧
      (isReserved key = false →
        ¬ Path.HasRejectedPrefix drives key ∧ isDeclaration drives value = true) := by
  simp only [isField, areFields, Bool.and_true]
  cases hres : isReserved key with
  | true =>
    rw [if_pos rfl, and_iff_left (by simp), canSet]
    cases hslot : AttributeKey.ofText? key with
    | some slot =>
      have hkey := text_of_ofText? hslot
      rw [isOk_setAttribute_iff]
      constructor
      · rintro h other rfl
        rw [ofText?_text] at hslot
        cases hslot
        exact h
      · exact fun h => h slot hkey.symm
    | none =>
      refine iff_of_true rfl ?_
      rintro slot rfl
      rw [ofText?_text] at hslot
      cases hslot
  | false =>
    rw [if_neg (by simp), Bool.and_eq_true, isOk_normalPath]
    refine ⟨fun h => ⟨?_, fun _ => h⟩, fun h => h.2 rfl⟩
    rintro slot rfl
    rw [isReserved_text] at hres
    cases hres

end Attributes

section Declared

mutual

/-- What is read as a declaration is one by the grammar that is taken. -/
theorem isDeclared_of_isDeclaration : ∀ {v : Value}, isDeclaration drives v = true →
    IsDeclared .taken drives v
  | .scalar .null, _ => .null
  | .scalar (.text t), h => by
    rw [isDeclaration, isOk_attributesOfText] at h
    rcases h with h | ⟨h, hp⟩
    · exact .method h
    · exact .source h hp
  | .map fields, h => by
    rw [isDeclaration] at h
    have hfield := areFields_iff.1 h
    refine .map ?_ ?_ ?_ (isDeclared_below h)
    · rintro ⟨key, value⟩ hm
      have hkey := hfield _ hm
      cases key with
      | text key => exact ⟨key, rfl⟩
      | _ => cases hkey
    · exact fun slot value hm => (isField_iff.1 (hfield _ hm)).1 slot rfl
    · exact fun key value hm hres => ((isField_iff.1 (hfield _ hm)).2 hres).1

theorem isDeclared_below : ∀ {fields : Fields}, areFields drives fields = true →
    ∀ key value, (Scalar.text key, value) ∈ fields → isReserved key = false →
      IsDeclared .taken drives value
  | [], _, _, _, hm, _ => by cases hm
  | (key', value') :: rest, h, key, value, hm, hres => by
    rw [areFields_cons, Bool.and_eq_true] at h
    rcases List.mem_cons.1 hm with he | hm
    · cases he
      exact isDeclared_of_isDeclaration ((isField_iff.1 h.1).2 hres).2
    · exact isDeclared_below h.2 key value hm hres

end

/-- A value is a declaration by the grammar that is taken just if it is read as one. -/
theorem isDeclaration_iff {v : Value} :
    isDeclaration drives v = true ↔ IsDeclared .taken drives v := by
  refine ⟨isDeclared_of_isDeclaration, fun h => ?_⟩
  induction h with
  | null => rfl
  | method h => exact isOk_attributesOfText.2 (.inl h)
  | source h hp => exact isOk_attributesOfText.2 (.inr ⟨h, hp⟩)
  | map texts attributes paths _ ih =>
    rw [isDeclaration, areFields_iff]
    rintro ⟨key, value⟩ hm
    obtain ⟨key, rfl⟩ := texts _ hm
    refine isField_iff.2 ⟨?_, fun hres => ⟨paths key value hm hres, ih key value hm hres⟩⟩
    rintro slot rfl
    exact attributes slot value hm

theorem Grammar.taken_areGlobs {v : Value} (h : Grammar.documented.AreGlobs v) :
    Grammar.taken.AreGlobs v := by
  rcases h with h | ⟨globs, rfl⟩
  · exact .inl h
  · exact .inr ⟨globs, rfl⟩

/-- Every documented declaration is taken. -/
theorem isDeclared_taken {v : Value} (h : IsDeclared .documented drives v) :
    IsDeclared .taken drives v := by
  induction h with
  | null => exact .null
  | method h =>
    obtain ⟨m, hm⟩ := h
    exact .method ⟨m, .inl hm⟩
  | source h hp => exact .source h hp
  | map texts attributes paths _ ih =>
    refine .map texts (fun slot value hm => ?_) paths ih
    have hstands := attributes slot value hm
    cases slot with
    | ignore => exact Grammar.taken_areGlobs hstands
    | _ => exact hstands

end Declared

section Failures

/-- Whether an error is reported as a fault of the document, in its format or in one of its
paths. -/
def IsFault (e : Error) : Prop := e.kind? = some .format ∨ e.kind? = some .rejectedPath

theorem isFault_of_normalPath {p : Path} {e : Error} (h : normalPath drives p = .error e) :
    IsFault e := by
  unfold normalPath at h
  cases hnormal : Path.normalize drives p with
  | ok q =>
    rw [hnormal] at h
    cases h
  | error fault =>
    rw [hnormal] at h
    cases h
    exact .inr rfl

theorem isFault_of_methodOf {written : Text} {e : Error} (h : methodOf name written = .error e) :
    IsFault e := by
  unfold methodOf at h
  split at h <;> cases h
  exact .inl rfl

theorem isFault_of_attributesOfText {e : Error} (h : attributesOfText drives t = .error e) :
    IsFault e := by
  unfold attributesOfText at h
  split at h
  · split at h
    · exact isFault_of_methodOf (Except.map_eq_error_iff.1 h)
    · cases h
      exact .inl rfl
  · exact isFault_of_normalPath (Except.map_eq_error_iff.1 h)

theorem isFault_of_setAttribute {a : Attributes} {slot : AttributeKey} {e : Error}
    (h : setAttribute drives place a slot value = .error e) : IsFault e := by
  unfold setAttribute at h
  split at h
  · exact isFault_of_normalPath (Except.map_eq_error_iff.1 h)
  · exact isFault_of_methodOf (Except.map_eq_error_iff.1 h)
  · cases h
  · split at h <;> cases h
    exact .inl rfl
  · cases h
    exact .inl rfl

theorem readFields_notText {done : Reading} {key : Scalar} (h : ∀ t, key ≠ .text t)
    {rest : Fields} : readFields drives place done ((key, value) :: rest) =
      .fail (if key.isWritable then .format (.keyNotText place key) else .unwritable) := by
  cases key <;> first | rfl | exact absurd rfl (h _)

/-- Without a fault of the document a field stops reading only by a key that cannot be written out,
or by the value under a path. -/
theorem error_of_field {done : Reading} {key : Scalar} {e : Error} (he : ¬ IsFault e)
    (h : (readFields drives place done [(key, value)]).outcome = .error e) :
    key.isWritable = false ∨ ∃ t below, key = .text t ∧ isReserved t = false ∧
      ¬ Path.HasRejectedPrefix drives t ∧ (read drives below value).outcome = .error e := by
  by_cases htext : ∃ t, key = .text t
  · obtain ⟨t, rfl⟩ := htext
    cases hres : isReserved t with
    | true =>
      cases hslot : AttributeKey.ofText? t with
      | some slot =>
        rw [readFields_slot value hres hslot, Except.map_eq_error_iff] at h
        exact absurd (isFault_of_setAttribute h) he
      | none =>
        rw [readFields_unknown value hres hslot] at h
        cases h
    | false =>
      rw [readFields_target value hres] at h
      cases htarget : normalPath drives t with
      | error d =>
        rw [htarget] at h
        cases h
        exact absurd (isFault_of_normalPath htarget) he
      | ok target =>
        have hkey : ¬ Path.HasRejectedPrefix drives t := isOk_normalPath.1 (by rw [htarget]; rfl)
        rw [htarget, Except.ok_bind, Except.map_eq_error_iff] at h
        exact .inr ⟨t, Path.join [place, target], rfl, hres, hkey, h⟩
  · left
    by_contra hkey
    rw [readFields_notText fun t ht => htext ⟨t, ht⟩, if_pos (by simpa using hkey)] at h
    cases h
    exact he (.inl rfl)

mutual

/-- What stops reading without a fault of the document cuts it short. -/
theorem isCutShort_of_read {e : Error} (he : ¬ IsFault e) : ∀ {v : Value} {place : Path},
    (read drives place v).outcome = .error e → IsCutShort drives v
  | .scalar .null, _, h => by cases h
  | .scalar (.text t), _, h => by
    rw [read, Traced.outcome_bind_eq_error_iff] at h
    rcases h with h | ⟨_, _, h⟩
    · exact absurd (isFault_of_attributesOfText h) he
    · cases h
  | .map fields, place, h => by
    obtain ⟨before, key, value, after, rfl, hbefore, hfield⟩ := exists_cut_of_readFields he h
    have hdeclared : IsDeclared .taken drives (.map before) := isDeclaration_iff.1 hbefore
    rcases hfield with hkey | ⟨t, rfl, hres, hkey, hvalue⟩
    · exact .key hdeclared hkey
    · exact .inside hdeclared hres hkey hvalue
  | .endless, _, _ => .endless
  | .list items, _, h | .scalar (.bool b), _, h | .scalar (.int n), _, h
  | .scalar (.float x), _, h | .scalar .nan, _, h | .scalar (.bytes data), _, h
  | .scalar (.date _ _ _), _, h | .scalar (.moment m), _, h | .set members, _, h
  | .pair a b, _, h => by
    cases h
    exact absurd (.inl rfl) he

/-- Fields that are cut short are so at the first of them that is no field of a declaration. -/
theorem exists_cut_of_readFields {e : Error} (he : ¬ IsFault e) :
    ∀ {fields : Fields} {place : Path} {done : Reading},
      (readFields drives place done fields).outcome = .error e →
        ∃ before key value after, fields = before ++ (key, value) :: after ∧
          areFields drives before = true ∧ (key.isWritable = false ∨
            ∃ t, key = .text t ∧ isReserved t = false ∧ ¬ Path.HasRejectedPrefix drives t ∧
              IsCutShort drives value)
  | [], _, _, h => by cases h
  | (key, value) :: rest, place, done, h => by
    rw [readFields_cons] at h
    cases hfirst : (readFields drives place done [(key, value)]).outcome with
    | ok next =>
      rw [hfirst] at h
      obtain ⟨before, key', value', after, rfl, hbefore, hcut⟩ := exists_cut_of_readFields he h
      refine ⟨(key, value) :: before, key', value', after, rfl, ?_, hcut⟩
      have hok : areFields drives [(key, value)] = true := by
        rw [← isOk_readFields place done, hfirst]
        rfl
      rw [areFields_cons, isField, hok, hbefore, Bool.and_self]
    | error d =>
      rw [hfirst] at h
      cases h
      refine ⟨[], key, value, rest, rfl, rfl, ?_⟩
      rcases error_of_field he hfirst with hkey | ⟨t, below, rfl, hres, hkey, hvalue⟩
      · exact .inl hkey
      · exact .inr ⟨t, rfl, hres, hkey, isCutShort_of_read he hvalue⟩

end

/-- Behind fields that make a declaration reading goes on. -/
theorem exists_readFields_behind {before : Fields}
    (h : IsDeclared .taken drives (.map before)) (place : Path) (fields : Fields) :
    ∃ next, (read drives place (.map (before ++ fields))).outcome =
      (readFields drives place next fields).outcome := by
  have hbefore : areFields drives before = true := isDeclaration_iff.2 h
  rw [← isOk_readFields place ⟨.empty, []⟩, Except.isOk_iff] at hbefore
  obtain ⟨next, hnext⟩ := hbefore
  refine ⟨next, ?_⟩
  rw [read, readFields_append, hnext]
  rfl

/-- Reading a value that is cut short stops with one of two errors. -/
theorem IsCutShort.read_eq_error {v : Value} (h : IsCutShort drives v) (place : Path) :
    (read drives place v).outcome = .error .tooDeep ∨
      (read drives place v).outcome = .error .unwritable := by
  induction h generalizing place with
  | endless => exact .inl rfl
  | @key before after key value hbefore hkey =>
    obtain ⟨next, hnext⟩ := exists_readFields_behind hbefore place ((key, value) :: after)
    have htext : ∀ t, key ≠ .text t := by
      rintro t rfl
      cases hkey
    right
    rw [hnext, readFields_notText htext, if_neg (by simp [hkey])]
    rfl
  | @inside before after key value hbefore hres hkey _ ih =>
    obtain ⟨next, hnext⟩ := exists_readFields_behind hbefore place ((.text key, value) :: after)
    obtain ⟨target, htarget⟩ := Except.isOk_iff.1 (isOk_normalPath.2 hkey)
    refine (ih (Path.join [place, target])).imp ?_ ?_ <;>
    · intro hread
      rw [hnext, readFields_cons, readFields_target value hres, htarget, Except.ok_bind, hread]
      rfl

/-- A value that is cut short is refused without a fault of the document. -/
theorem exists_error_of_isCutShort {v : Value} (h : IsCutShort drives v) (place : Path) :
    ∃ e, (read drives place v).outcome = .error e ∧ ¬ IsFault e := by
  rcases h.read_eq_error place with hread | hread
  · exact ⟨_, hread, by simp [IsFault, Error.kind?, Error.report?]⟩
  · exact ⟨_, hread, by simp [IsFault, Error.kind?, Error.report?]⟩

end Failures

/-- Values are read as declarations by the grammar that is taken, and the documented one is part of
it. What is refused is reported as a fault of the document, in its format or in one of its paths,
unless it is cut short. -/
theorem read_iff_isDeclared (drives : Bool) (place : Path) (v : Value) :
    ((read drives place v).outcome.isOk = true ↔ IsDeclared .taken drives v) ∧
    (IsDeclared .documented drives v → IsDeclared .taken drives v) ∧
    ((∀ e, (read drives place v).outcome = .error e →
      e.kind? = some .format ∨ e.kind? = some .rejectedPath) ↔ ¬ IsCutShort drives v) := by
  refine ⟨?_, isDeclared_taken, ?_, ?_⟩
  · rw [isOk_read, isDeclaration_iff]
  · intro h hcut
    obtain ⟨e, hread, he⟩ := exists_error_of_isCutShort hcut place
    exact he (h e hread)
  · intro h e hread
    by_contra he
    exact h (isCutShort_of_read he hread)

/-- The keys of a mapping are taken for globs, a method may end in a line feed, and a number that is
never written out is no fault of the document. -/
theorem read_not_documented :
    let globs : Value := .map [(.text "~ignore".toList, .map [(.text "*.bak".toList, .null)])]
    let method : Value := .text "<copy>\n".toList
    let number : Value := .map [(.int (Nat.pow 10 Text.digitLimit), .null)]
    ((read false [] globs).outcome.isOk = true ∧ ¬ IsDeclared .documented false globs) ∧
    ((read false [] method).outcome.isOk = true ∧ ¬ IsDeclared .documented false method) ∧
    (read false [] number).outcome.failure? = some .unwritable ∧ Error.unwritable.kind? = none := by
  refine ⟨⟨rfl, fun h => ?_⟩, ⟨rfl, fun h => ?_⟩, ?_, rfl⟩
  · cases h with
    | map texts attributes =>
      rcases attributes .ignore _ (List.mem_singleton.2 rfl) with ⟨t, ht⟩ | ⟨globs, hglobs⟩
      · cases ht
      · cases hglobs
  · cases h with
    | method h =>
      obtain ⟨m, hm⟩ := h
      cases m <;> exact absurd hm (by decide)
    | source h => exact h rfl
  · have hlimit : ∀ n : Nat, Scalar.isWritable (.int n) = decide (n < Nat.pow 10 Text.digitLimit) :=
      fun _ => rfl
    have hread : ∀ n : Int, Scalar.isWritable (.int n) = false →
        (read false [] (.map [(.int n, .null)])).outcome = .error .unwritable := by
      intro n hn
      rw [read, readFields_notText (by simp), hn]
      rfl
    exact congrArg Except.failure? (hread _ ((hlimit _).trans (decide_eq_false (Nat.lt_irrefl _))))

end Declaration

end Dotfiles
