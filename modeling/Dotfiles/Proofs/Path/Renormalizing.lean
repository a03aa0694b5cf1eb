import Dotfiles.Proofs.Path.Ordinary

/-!
Normal forms that are normalized once more. A normal form has ordinary components, so there is
nothing left to drop. It need not be a path that may stand in a profile, though: a prefix is looked
for in the path as it is written, and what is written in front of a drive or a share hides it until
it is dropped.
-/

namespace Dotfiles

namespace Path

/-- Whether a path of the given components begins with a prefix that is rejected: with two
backslashes or, where paths have drives, with a letter and a colon, or with a backslash and the
slash after it. -/
def BeginsRejected (drives : Bool) : List Name → Prop
  | [] => False
  | first :: rest => ['\\', '\\'] <+: first ∨
      drives = true ∧ (first[1]? = some ':' ∨ first = ['\\'] ∧ rest ≠ [])

instance (drives : Bool) : (names : List Name) → Decidable (BeginsRejected drives names)
  | [] => inferInstanceAs (Decidable False)
  | _ :: _ => inferInstanceAs (Decidable (_ ∨ _))

/-- Whether a character separates components where slashes count as backslashes. -/
def IsSeparator (c : Char) : Prop := c = '/' ∨ c = '\\'

variable {drives : Bool} {p q : Path} {names : List Name}

section Prefixes

theorem le_of_backslashFrom? {start stop : Nat} {t : Text}
    (h : backslashFrom? start t = some stop) :
    start ≤ stop := by
  obtain ⟨i, _, rfl⟩ := Option.map_eq_some_iff.1 h
  exact Nat.le_add_right start i

/-- The prefix of a share holds the two separators in front of it. -/
theorem exists_drivePrefix_share {a b : Char} (ha : IsSeparator a) (hb : IsSeparator b)
    (rest : Text) : ∃ more, drivePrefix (a :: b :: rest) = a :: b :: more := by
  have hflat : ∀ {c}, IsSeparator c → (if c = '/' then '\\' else c) = '\\' := by
    rintro c (rfl | rfl) <;> rfl
  simp only [drivePrefix, List.map_cons, hflat ha, hflat hb]
  split
  · rename_i stop hstop
    obtain ⟨i, hi, hstop⟩ := Option.bind_eq_some_iff.1 hstop
    have hstart := le_of_backslashFrom? hi
    have hlast := le_of_backslashFrom? hstop
    obtain ⟨n, rfl⟩ : ∃ n, stop = n + 2 := ⟨stop - 2, by split at hstart <;> omega⟩
    exact ⟨rest.take n, rfl⟩
  · exact ⟨rest, rfl⟩

theorem drivePrefix_of_not_share {a b : Char} (h : ¬ (IsSeparator a ∧ IsSeparator b))
    (rest : Text) : drivePrefix (a :: b :: rest) = if b = ':' then [a, b] else [] := by
  have hflat : ∀ {c : Char}, (if c = '/' then '\\' else c) = '\\' → IsSeparator c := by
    intro c hc
    by_cases hs : c = '/'
    · exact .inl hs
    · exact .inr (by rwa [if_neg hs] at hc)
  simp only [drivePrefix, List.map_cons]
  split
  · rename_i heq
    simp only [List.cons.injEq] at heq
    exact absurd ⟨hflat heq.1, hflat heq.2.1⟩ h
  · rename_i heq
    simp only [List.cons.injEq] at heq
    by_cases hb : b = '/'
    · simp [hb] at heq
    · simp [hb] at heq
      simp [heq]
  · rename_i hcolon
    rw [if_neg]
    rintro rfl
    exact hcolon _ _ rfl

theorem isRejected_cons_cons (a b : Char) (more : Text) :
    isRejected drives (a :: b :: more) = true ↔ a = '\\' ∧ b = '\\' ∨ drives = true := by
  have hstarts : Text.startsWith (a :: b :: more) ['\\', '\\'] = true ↔ a = '\\' ∧ b = '\\' := by
    rw [Text.startsWith_iff, List.cons_prefix_cons, List.cons_prefix_cons]
    simp [eq_comm]
  rw [isRejected, Bool.and_eq_true, Bool.or_eq_true, hstarts, or_comm]
  exact and_iff_right rfl

/-- A path begins with a rejected prefix if it begins with two backslashes or, where paths have
drives, with two separators or with any character and a colon. -/
theorem isRejected_drivePrefix_iff (a b : Char) (rest : Text) :
    isRejected drives (drivePrefix (a :: b :: rest)) = true ↔
      a = '\\' ∧ b = '\\' ∨ drives = true ∧ (b = ':' ∨ IsSeparator a ∧ IsSeparator b) := by
  by_cases hshare : IsSeparator a ∧ IsSeparator b
  · obtain ⟨more, hmore⟩ := exists_drivePrefix_share hshare.1 hshare.2 rest
    rw [hmore, isRejected_cons_cons, and_iff_left (Or.inr hshare)]
  · have hbackslashes : ¬ (a = '\\' ∧ b = '\\') := fun h => hshare ⟨.inr h.1, .inr h.2⟩
    rw [drivePrefix_of_not_share hshare, or_iff_right hbackslashes, or_iff_left hshare]
    by_cases hcolon : b = ':'
    · rw [if_pos hcolon, isRejected_cons_cons, or_iff_right hbackslashes, and_iff_left hcolon]
    · rw [if_neg hcolon]
      simp [isRejected, hcolon]

theorem drivePrefix_of_short (h : p.length < 2) : drivePrefix p = [] := by
  rcases p with _ | ⟨a, _ | ⟨b, rest⟩⟩
  · rfl
  · rw [drivePrefix]
    split <;> simp_all
  · simp only [List.length_cons] at h
    omega

/-- Whether a path begins with a rejected prefix shows in its first piece, if that is not empty, and
in whether there are more. -/
theorem isRejected_ofSegments_iff {first : Name} (hnil : first ≠ []) (hslash : '/' ∉ first)
    (rest : List Text) : isRejected drives (drivePrefix (ofSegments (first :: rest))) = true ↔
      BeginsRejected drives (first :: rest) := by
  rcases first with _ | ⟨a, _ | ⟨b, more⟩⟩
  · exact absurd rfl hnil
  · -- a single character: what comes next is a slash, if anything does
    have ha : a ≠ '/' := fun he => hslash (by simp [he])
    cases rest with
    | nil =>
      rw [drivePrefix_of_short (by simp [ofSegments, Text.join])]
      simp [isRejected, BeginsRejected]
    | cons next others =>
      show isRejected drives (drivePrefix (a :: '/' :: ofSegments (next :: others))) = true ↔ _
      rw [isRejected_drivePrefix_iff]
      simp [BeginsRejected, IsSeparator, ha]
  · have ha : a ≠ '/' := fun he => hslash (by simp [he])
    have hb : b ≠ '/' := fun he => hslash (by simp [he])
    obtain ⟨behind, hbehind⟩ :
        ∃ behind, ofSegments ((a :: b :: more) :: rest) = a :: b :: behind := by
      cases rest <;> exact ⟨_, rfl⟩
    have hshare : IsSeparator a ∧ IsSeparator b ↔ a = '\\' ∧ b = '\\' :=
      and_congr (or_iff_right ha) (or_iff_right hb)
    have hbegins : BeginsRejected drives ((a :: b :: more) :: rest) ↔
        a = '\\' ∧ b = '\\' ∨ drives = true ∧ b = ':' := by
      simp [BeginsRejected, List.cons_prefix_cons, eq_comm]
    rw [hbehind, isRejected_drivePrefix_iff, hshare, hbegins]
    grind

end Prefixes

section NormalForms

theorem normalize_eq_ok_iff : normalize drives p = .ok q ↔
    isRejected drives (drivePrefix p) = false ∧ q = ofSegments (normalComponents p) := by
  rw [normalize]
  cases isRejected drives (drivePrefix p) <;> simp [eq_comm]

theorem foldl_step_ordinary (stack : List Name) (hn : ∀ name ∈ names, IsOrdinary name) :
    names.foldl step stack = names.reverse ++ stack := by
  induction names generalizing stack with
  | nil => rfl
  | cons name rest ih =>
    obtain ⟨hname, hrest⟩ := List.forall_mem_cons.1 hn
    have hstep : step stack name = name :: stack := by
      rw [step, if_neg (not_or.2 ⟨hname.ne_nil, hname.ne_dot⟩), if_neg hname.ne_dots]
    rw [List.foldl_cons, hstep, ih _ hrest, List.reverse_cons, List.append_assoc]
    rfl

/-- Of ordinary components normalizing drops none. -/
theorem normalComponents_ofSegments (hn : ∀ name ∈ names, IsOrdinary name) :
    normalComponents (ofSegments names) = names := by
  cases names with
  | nil => rfl
  | cons first rest =>
    rw [normalComponents, segments_ofSegments (fun name hm => (hn name hm).no_slash) (by simp),
      foldl_step_ordinary [] hn, List.append_nil, List.reverse_reverse]

theorem beginsRejected_iff (hn : ∀ name ∈ names, IsOrdinary name) :
    isRejected drives (drivePrefix (ofSegments names)) = true ↔ BeginsRejected drives names := by
  cases names with
  | nil =>
    rw [drivePrefix_of_short (by simp [ofSegments, Text.join])]
    simp [isRejected, BeginsRejected]
  | cons first rest =>
    have hfirst := hn first (by simp)
    exact isRejected_ofSegments_iff hfirst.ne_nil hfirst.no_slash rest

/-- A prefix that comes to stand in front is found before, if nothing stands in front of it. -/
theorem not_beginsRejected_of_head? (hp : isRejected drives (drivePrefix p) = false)
    (hhead : (segments p).head? = (normalComponents p).head?) :
    ¬ BeginsRejected drives (normalComponents p) := by
  cases hcomponents : normalComponents p with
  | nil => exact id
  | cons first rest =>
    rw [hcomponents] at hhead
    obtain ⟨more, hsegments⟩ := List.head?_eq_some_iff.1 hhead
    have hfirst := isOrdinary_of_mem_normalComponents (hcomponents ▸ List.mem_cons_self)
    have hmore : more = [] → rest = [] := by
      rintro rfl
      rw [normalComponents, hsegments] at hcomponents
      simp [step, hfirst.ne_nil, hfirst.ne_dot, hfirst.ne_dots] at hcomponents
      exact hcomponents
    intro hbegins
    have hbefore : BeginsRejected drives (first :: more) :=
      hbegins.imp_right (And.imp_right (Or.imp_right (And.imp_right (mt hmore))))
    rw [← isRejected_ofSegments_iff hfirst.ne_nil hfirst.no_slash, ← hsegments,
      ofSegments_segments, hp] at hbefore
    cases hbefore

/-- A normal form is relative and has ordinary components only. It begins with no rejected prefix,
and is its own normal form, just if its first component neither begins with two backslashes nor,
where paths have drives, has a colon as second character or is a backslash with more components
after it. No prefix comes to stand in front but by something before it being dropped. -/
theorem normalize_normalForm_iff (h : normalize drives p = .ok q) :
    isRooted q = false ∧ (q = [] ∨ ∀ piece ∈ segments q, IsOrdinary piece) ∧
      (isRejected drives (drivePrefix q) = false ↔ ¬ BeginsRejected drives (components q)) ∧
      (normalize drives q = .ok q ↔ ¬ BeginsRejected drives (components q)) ∧
      ((segments p).head? = (components q).head? → normalize drives q = .ok q) := by
  obtain ⟨hp, rfl⟩ := normalize_eq_ok_iff.1 h
  have hn : ∀ name ∈ normalComponents p, IsOrdinary name :=
    fun name hm => isOrdinary_of_mem_normalComponents hm
  have hprefix : isRejected drives (drivePrefix (ofSegments (normalComponents p))) = false ↔
      ¬ BeginsRejected drives (normalComponents p) := by
    rw [← beginsRejected_iff hn, Bool.not_eq_true]
  have hfixed : normalize drives (ofSegments (normalComponents p)) =
      .ok (ofSegments (normalComponents p)) ↔ ¬ BeginsRejected drives (normalComponents p) := by
    rw [normalize_eq_ok_iff, hprefix, normalComponents_ofSegments hn, and_iff_left rfl]
  rw [components_ofSegments_normalComponents]
  refine ⟨isRooted_ofSegments hn, ?_, hprefix, hfixed, fun hhead => ?_⟩
  · by_cases hnil : normalComponents p = []
    · exact .inl (by rw [hnil]; rfl)
    · right
      rwa [segments_ofSegments (fun name hm => (hn name hm).no_slash) hnil]
  · exact hfixed.2 (not_beginsRejected_of_head? hp hhead)

/-- A lone backslash is a normal form, also where paths have drives. -/
theorem normalize_normalForm_iff_backslash :
    normalize true "./c:/..//\\/".toList = .ok "\\".toList ∧
      ¬ BeginsRejected true (components "\\".toList) ∧
      normalize true "\\".toList = .ok "\\".toList := by
  have h : normalize true "./c:/..//\\/".toList = .ok "\\".toList := rfl
  obtain ⟨_, _, _, hfixed, _⟩ := normalize_normalForm_iff h
  have hbegins : ¬ BeginsRejected true (components "\\".toList) := by decide
  exact ⟨h, hbegins, hfixed.2 hbegins⟩

/-- A share behind a dot is taken for a name, and comes to stand in front as the dot is dropped: the
normal form begins with a prefix that is rejected, with drives or without. -/
theorem normalize_share_behindDot :
    normalize false "./\\\\host\\share".toList = .ok "\\\\host\\share".toList ∧
      isRejected false (drivePrefix "\\\\host\\share".toList) = true ∧
      normalize false "\\\\host\\share".toList =
        .error ⟨"\\\\host\\share".toList, "\\\\host\\share".toList⟩ :=
  ⟨rfl, rfl, rfl⟩

end NormalForms

end Path

end Dotfiles
