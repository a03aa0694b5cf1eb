import Dotfiles.Proofs.Path.Climbing

/-!
Where a path that is joined to a root comes to stand. Its names are put behind those of the root,
and no two paths come to stand at one place, as long as the first name below the root does not begin
with two dots. A path that begins so is never what a join comes to: the dots are taken for a step
above the root wherever they stand behind the leading slash, also at the beginning of a name.
-/

namespace Dotfiles.Path

variable {root names : List Name}

/-- What follows a leading slash does not begin with two dots once it is cleaned. -/
theorem not_isPrefix_dropClimbs (t : Text) : ¬ ['.', '.'] <+: dropClimbs t := by
  fun_induction dropClimbs t with
  | case1 rest ih => exact ih
  | case2 rest _ ih => exact ih
  | case3 t _ hrest =>
    rintro ⟨rest, rfl⟩
    exact hrest rest rfl

theorem not_isPrefix_clean (p : Path) : ¬ ['/', '.', '.'] <+: clean p := by
  rw [clean]
  split
  · simp
  · split
    · simp
    · simpa using not_isPrefix_dropClimbs _
    · rename_i hslash
      rintro ⟨rest, hq⟩
      exact hslash _ hq.symm

/-- No join begins with two dots behind a leading slash. -/
theorem not_isPrefix_join (parts : List Path) : ¬ ['/', '.', '.'] <+: join parts :=
  not_isPrefix_clean _

theorem isPrefix_ofSegments_cons {first : Name} (h : ['.', '.'] <+: first) (rest : List Name) :
    ['.', '.'] <+: ofSegments (first :: rest) := by
  cases rest with
  | nil => exact h
  | cons next more => exact h.trans (List.prefix_append _ _)

/-- Where a join is rooted, the first name does not begin with two dots. -/
theorem isGrounded_of_join {parts : List Path} (h : join parts = rooted names) :
    IsGrounded names := by
  cases names with
  | nil => simp [IsGrounded]
  | cons first rest =>
    intro name hname hdots
    cases hname
    refine not_isPrefix_join parts ?_
    rw [h, rooted]
    exact (List.prefix_cons_inj '/').2 (isPrefix_ofSegments_cons hdots rest)

/-- A relative path of plain names is put below the root. -/
theorem join_rooted_plain (hroot : ∀ name ∈ root, IsPlain name)
    (hnames : ∀ name ∈ names, IsPlain name) (hg : IsGrounded (root ++ names)) :
    join [rooted root, ofSegments names] = rooted (root ++ names) := by
  have hall := isPlain_append hroot hnames
  have hgroot : IsGrounded root := by
    cases root with
    | nil => simp [IsGrounded]
    | cons first rest => exact hg
  have happend : append (rooted root) (ofSegments names) = rooted (root ++ names) := by
    by_cases hne : names = []
    · subst hne
      rw [List.append_nil]
      rfl
    · have hordinary : ∀ name ∈ names, IsOrdinary name := fun name hm => (hnames name hm).isOrdinary
      have hclean : clean (ofSegments names) = ofSegments names := by
        rw [clean_ofSegments hordinary, dropFinalDot_of_endsPlainly
          (endsPlainly_of_steps fun name hm => .inr (hnames name hm))]
      exact append_rooted_relative (fun n hm => (hroot n hm).ne_nil)
        (ofSegments_ne_nil hordinary hne) hclean
        (fun n hm => IsStep.ne_nil_and_no_slash (.inr (hnames n hm))) hne
  have hled : ledFrom [] (root ++ names) = root ++ names := ledFrom_of_plain [] hall
  rw [join, List.foldl_cons, List.foldl_cons, List.foldl_nil, append_nil_rooted hroot hgroot,
    happend, clean_cancelAll_clean (fun name hm => .inr (hall name hm))
      (by rwa [dropWhile_dots_of_plain hall]) (by rwa [hled]), hled]

/-- Joining a path of plain names to a root of plain names puts them behind one another just if the
first name of all does not begin with two dots. Where this is so, different paths come to stand at
different places. -/
theorem join_rooted_plain_iff (hroot : ∀ name ∈ root, IsPlain name)
    (hnames : ∀ name ∈ names, IsPlain name) :
    (join [rooted root, ofSegments names] = rooted (root ++ names) ↔ IsGrounded (root ++ names)) ∧
      ∀ others : List Name, (∀ name ∈ others, IsPlain name) →
        IsGrounded (root ++ names) → IsGrounded (root ++ others) →
        join [rooted root, ofSegments names] = join [rooted root, ofSegments others] →
        names = others := by
  refine ⟨⟨isGrounded_of_join, join_rooted_plain hroot hnames⟩, ?_⟩
  intro others hothers hg hgothers hsame
  rw [join_rooted_plain hroot hnames hg, join_rooted_plain hroot hothers hgothers,
    rooted_inj (isPlain_append hroot hnames) (isPlain_append hroot hothers)] at hsame
  exact List.append_cancel_left hsame

/-- Below a root with a name, further names that begin with two dots are kept, and keep paths
apart. -/
theorem join_rooted_plain_iff_dotted :
    let root := [".a".toList]
    let names := ["..b".toList, "...".toList, ".c".toList]
    let others := ["b".toList, "...".toList, ".c".toList]
    (∀ name ∈ root, IsPlain name) ∧ (∀ name ∈ names, IsPlain name) ∧
      (∀ name ∈ others, IsPlain name) ∧ IsGrounded (root ++ names) ∧ IsGrounded (root ++ others) ∧
      join [rooted root, ofSegments names] = "/.a/..b/.../.c".toList ∧
      join [rooted root, ofSegments names] ≠ join [rooted root, ofSegments others] := by
  intro root names others
  have hroot : ∀ name ∈ root, IsPlain name := by decide
  have hnames : ∀ name ∈ names, IsPlain name := by decide
  have hothers : ∀ name ∈ others, IsPlain name := by decide
  have hg : IsGrounded (root ++ names) := by decide
  have hgothers : IsGrounded (root ++ others) := by decide
  obtain ⟨hjoin, hinj⟩ := join_rooted_plain_iff hroot hnames
  refine ⟨hroot, hnames, hothers, hg, hgothers, hjoin.2 hg, fun hsame => ?_⟩
  have heq : names = others := hinj others hothers hg hgothers hsame
  exact absurd heq (by decide)

/-- Right below the root a name loses the two dots it begins with, and so comes to stand where
another path does. -/
theorem join_root_losesDots :
    IsPlain "..foo".toList ∧ IsPlain "foo".toList ∧
      join [rooted [], ofSegments ["..foo".toList]] = "/foo".toList ∧
      join [rooted [], ofSegments ["foo".toList]] = "/foo".toList ∧
      rooted ([] ++ ["..foo".toList]) ≠ "/foo".toList := by
  decide +kernel

end Dotfiles.Path
