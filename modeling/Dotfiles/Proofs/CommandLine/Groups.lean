import Dotfiles.CommandLine.Arguments
import Dotfiles.Proofs.Except
import Mathlib.Algebra.Ring.Int.Defs
import Mathlib.Data.List.DropRight

/-!
Command lines as sequences of groups. A group is an option together with its value, which may be the
argument behind it, or the command word. A command line that is accepted is written out by exactly
one sequence of groups, and what it says is read off these: the last path given for each root, and a
verbosity that is counted from the last level set.
-/

namespace Dotfiles.CommandLine

/-- The short form of the option that sets a root. -/
def Root.short : Root → Text
  | .source => "-s".toList
  | .target => "-t".toList

/-- The long form of the option that sets a root. -/
def Root.long : Root → Text
  | .source => "--source".toList
  | .target => "--target".toList

/-- The word for a command. -/
def Command.word : Command → Text
  | .compile => "compile".toList
  | .list => "ls".toList

/-- How an option and its path are written: in one argument or in two, with the short or the long
form of the option. -/
inductive Form where
  | short
  | shortApart
  | long
  | longApart
  deriving DecidableEq, Repr

/-- The first argument of an option with its path. -/
def Form.first (which : Root) (path : Path) : Form → Text
  | .short => which.short ++ path
  | .shortApart => which.short
  | .long => which.long ++ '=' :: path
  | .longApart => which.long

/-- What follows as an argument of its own. -/
def Form.second? (path : Path) : Form → Option Text
  | .short | .long => none
  | .shortApart | .longApart => some path

/-- The arguments that set a root to a path. -/
def Form.written (form : Form) (which : Root) (path : Path) : List Text :=
  form.first which path :: (form.second? path).toList

/-- Whether a path can be written in a form. Only directly behind the short option it cannot be
empty. -/
def Form.Fits (path : Path) : Form → Prop
  | .short => path ≠ []
  | _ => True

/-- A group of arguments that belong together. -/
inductive Group where
  | root (which : Root) (path : Path) (form : Form) (fits : form.Fits path)
  /-- A hyphen with the letter v once and so many times more. -/
  | letters (more : Nat)
  | verbose
  /-- A level of verbosity, as it is written. -/
  | level (number : Text)
  | command (c : Command)

namespace Group

/-- The arguments of a group. -/
def written : Group → List Text
  | .root which path form _ => form.written which path
  | .letters more => ['-' :: List.replicate (more + 1) 'v']
  | .verbose => ["--verbose".toList]
  | .level number => ["--verbose=".toList ++ number]
  | .command c => [c.word]

/-- What a group is about. -/
inductive Concern where
  | root (which : Root)
  | verbosity
  | command
  deriving DecidableEq

def concern : Group → Concern
  | .root which _ _ _ => .root which
  | .letters _ | .verbose | .level _ => .verbosity
  | .command _ => .command

/-- The path that a group gives for a root. -/
def pathFor? (which : Root) : Group → Option Path
  | .root other path _ _ => if other = which then some path else none
  | _ => none

/-- The level that a group sets the verbosity to. What is no integer counts as one. -/
def level? : Group → Option Int
  | .level number => some ((Text.readInt? number).getD 1)
  | _ => none

/-- How many levels a group adds to the verbosity. -/
def count : Group → Int
  | .letters more => more + 1
  | .verbose => 1
  | _ => 0

def command? : Group → Option Command
  | .command c => some c
  | _ => none

end Group

/-- The arguments of a sequence of groups. -/
def written (groups : List Group) : List Text := groups.flatMap Group.written

/-- The path that was given last for a root. -/
def lastPath? (which : Root) (groups : List Group) : Option Path :=
  (groups.filterMap (Group.pathFor? which)).getLast?

/-- The last level set, with everything added that is counted behind it. There is none if no group
is about the verbosity. -/
def verbosity? (groups : List Group) : Option Int :=
  if groups.any fun g => g.concern = .verbosity then
    some ((groups.filterMap Group.level?).getLast?.getD 0 +
      ((groups.rtakeWhile fun g => g.level? = none).map Group.count).sum)
  else none

/-- What groups say together. -/
def optionsOf (groups : List Group) : Options :=
  ⟨lastPath? .source groups, lastPath? .target groups, verbosity? groups, []⟩

/-- The command words among groups. -/
def commandsIn (groups : List Group) : List Command := groups.filterMap Group.command?

/-- What has been read, with one more group. -/
def addGroup (read : Options × Option Command) : Group → Except Exit (Options × Option Command)
  | .root which path _ _ => .ok (setRoot read.1 which path, read.2)
  | .letters more =>
    .ok ({ read.1 with verbosity := some (read.1.verbosity.getD 0 + (more + 1)) }, read.2)
  | .verbose => .ok ({ read.1 with verbosity := some (read.1.verbosity.getD 0 + 1) }, read.2)
  | .level number =>
    .ok ({ read.1 with verbosity := some ((Text.readInt? number).getD 1) }, read.2)
  | .command c => (fun command => (read.1, some command)) <$> addCommand read.2 c.word

variable {which : Root} {path : Path} {form : Form} {arg name : Text} {rest : List Text}
  {groups before : List Group} {read : Options × Option Command}

section Arguments

theorem ofText_short (hne : path ≠ []) :
    Argument.ofText (which.short ++ path) = .root which path := by
  obtain ⟨c, more, rfl⟩ := List.exists_cons_of_ne_nil hne
  cases which <;> rfl

theorem ofText_long : Argument.ofText (which.long ++ '=' :: path) = .root which path := by
  cases which <;> rfl

theorem ofText_letters (more : Nat) :
    Argument.ofText ('-' :: List.replicate (more + 1) 'v') = .more (more + 1) := by
  cases more with
  | zero => rfl
  | succ more =>
    simp [Argument.ofText, Argument.ofRoot?, Argument.ofVerbosity?, Text.dropPrefix?,
      List.replicate_succ]

/-- An argument that is taken for a path of a root gives it, or announces it. -/
theorem ofRoot?_eq_some {short long : Text} {a : Argument}
    (h : Argument.ofRoot? which short long arg = some a) :
    ((arg = short ∨ arg = long) ∧ ∃ name, a = .rootNext which name) ∨
      ∃ path, a = .root which path ∧
        (arg = long ++ '=' :: path ∨ path ≠ [] ∧ arg = short ++ path) := by
  unfold Argument.ofRoot? at h
  split at h
  · rename_i he
    cases h
    exact .inl ⟨.inl he, _, rfl⟩
  · rename_i hne
    split at h
    · rename_i he
      cases h
      exact .inl ⟨.inr he, _, rfl⟩
    · split at h
      · rename_i path hlong
        cases h
        rw [Text.dropPrefix?_eq_some_iff] at hlong
        exact .inr ⟨_, rfl, .inl (by simpa using hlong)⟩
      · rename_i path _ hshort
        cases h
        rw [Text.dropPrefix?_eq_some_iff] at hshort
        refine .inr ⟨path, rfl, .inr ⟨?_, hshort⟩⟩
        rintro rfl
        exact hne (by simpa using hshort)
      · cases h

/-- A hyphen with nothing but the letter v behind it. -/
theorem exists_letters {vs : Text} (hvs : (!vs.isEmpty && vs.all (· = 'v')) = true) :
    ∃ g : Group, g.written = ['-' :: vs] := by
  cases vs with
  | nil => cases hvs
  | cons v more =>
    have hall : ∀ c ∈ v :: more, c = 'v' := by simpa using hvs
    refine ⟨.letters more.length, ?_⟩
    rw [List.eq_replicate_of_mem hall]
    rfl

theorem ofVerbosity?_eq_some {a : Argument} (h : Argument.ofVerbosity? arg = some a) :
    ∃ g : Group, g.written = [arg] := by
  unfold Argument.ofVerbosity? at h
  split at h
  · rename_i he
    rw [Bool.or_eq_true, decide_eq_true_eq, decide_eq_true_eq] at he
    rcases he with rfl | rfl
    · exact ⟨.letters 0, rfl⟩
    · exact ⟨.verbose, rfl⟩
  · cases hlevel : Text.dropPrefix? "--verbose=".toList arg with
    | some number => exact ⟨.level number, by rw [Text.dropPrefix?_eq_some_iff.1 hlevel]; rfl⟩
    | none =>
      rw [hlevel] at h
      split at h
      · cases ‹none = some _›
      · split at h
        · rename_i hvs
          exact exists_letters hvs
        · cases h
      · cases h

/-- What an argument is taken for, in the order in which that is tried. -/
theorem ofText_cases (arg : Text) :
    (∃ which : Root,
        Argument.ofRoot? which which.short which.long arg = some (Argument.ofText arg)) ∨
      Argument.ofVerbosity? arg = some (Argument.ofText arg) ∨
      Argument.ofText arg = .help ∨ Argument.ofText arg = .version ∨
      (∃ name, Argument.ofText arg = .unknown name) ∨ Argument.ofText arg = .word arg := by
  unfold Argument.ofText
  simp only
  cases hs : Argument.ofRoot? .source "-s".toList "--source".toList arg with
  | some a => exact .inl ⟨.source, hs⟩
  | none =>
    cases ht : Argument.ofRoot? .target "-t".toList "--target".toList arg with
    | some a => exact .inl ⟨.target, ht⟩
    | none =>
      cases hv : Argument.ofVerbosity? arg with
      | some a => exact .inr (.inl rfl)
      | none =>
        refine .inr (.inr ?_)
        simp only [Option.or_none]
        split
        · exact .inl rfl
        · split
          · exact .inr (.inl rfl)
          · split
            · exact .inr (.inr (.inl ⟨_, rfl⟩))
            · exact .inr (.inr (.inl ⟨_, rfl⟩))
            · exact .inr (.inr (.inr rfl))

theorem eq_word_of_addCommand {command : Option Command} {c : Command}
    (h : addCommand command arg = .ok c) : arg = c.word := by
  unfold addCommand at h
  split at h
  · cases h
  · rename_i found hfound
    cases h
    unfold Command.ofWord? at hfound
    split at hfound
    · cases hfound
      assumption
    · split at hfound
      · cases hfound
        assumption
      · cases hfound
  · cases h

end Arguments

section Reading

/-- Reading goes on behind a group with what it adds. -/
theorem parseFrom_group (g : Group) (rest : List Text) :
    parseFrom read.1 read.2 (g.written ++ rest) =
      addGroup read g >>= fun next => parseFrom next.1 next.2 rest := by
  cases g with
  | root which path form fits =>
    cases form with
    | short =>
      show parseFrom read.1 read.2 ((which.short ++ path) :: rest) = _
      rw [parseFrom, ofText_short fits]
      rfl
    | shortApart => cases which <;> rfl
    | long =>
      show parseFrom read.1 read.2 ((which.long ++ '=' :: path) :: rest) = _
      rw [parseFrom, ofText_long]
      rfl
    | longApart => cases which <;> rfl
  | letters more =>
    show parseFrom read.1 read.2 (('-' :: List.replicate (more + 1) 'v') :: rest) = _
    rw [parseFrom, ofText_letters]
    rfl
  | verbose => rfl
  | level number => rfl
  | command c =>
    obtain ⟨options, command⟩ := read
    cases c <;> cases command <;> rfl

theorem parseFrom_written (read : Options × Option Command) (groups : List Group)
    (rest : List Text) :
    parseFrom read.1 read.2 (written groups ++ rest) =
      groups.foldlM addGroup read >>= fun next => parseFrom next.1 next.2 rest := by
  induction groups generalizing read with
  | nil => rfl
  | cons g groups ih =>
    rw [written, List.flatMap_cons, List.append_assoc, parseFrom_group, List.foldlM_cons]
    cases addGroup read g with
    | error e => rfl
    | ok next => exact ih next

/-- Arguments that are accepted begin with a group. -/
theorem exists_group {result : Options × Option Command}
    (h : parseFrom read.1 read.2 (arg :: rest) = .ok result) :
    ∃ (g : Group) (more : List Text), arg :: rest = g.written ++ more := by
  rw [parseFrom] at h
  rcases ofText_cases arg with ⟨which, hroot⟩ | hverbosity | he | he | ⟨name, he⟩ | he
  · rcases ofRoot?_eq_some hroot with ⟨harg, name, he⟩ | ⟨path, he, rfl | ⟨hne, rfl⟩⟩
    · rw [he] at h
      cases rest with
      | nil => cases h
      | cons path more =>
        rcases harg with rfl | rfl
        · exact ⟨.root which path .shortApart trivial, more, rfl⟩
        · exact ⟨.root which path .longApart trivial, more, rfl⟩
    · exact ⟨.root which path .long trivial, rest, rfl⟩
    · exact ⟨.root which path .short hne, rest, rfl⟩
  · obtain ⟨g, hg⟩ := ofVerbosity?_eq_some hverbosity
    exact ⟨g, rest, by rw [hg]; rfl⟩
  · rw [he] at h
    cases h
  · rw [he] at h
    cases h
  · rw [he] at h
    cases h
  · rw [he] at h
    simp only at h
    split at h
    · rename_i c hc
      exact ⟨.command c, rest, by rw [eq_word_of_addCommand hc]; rfl⟩
    · cases h

/-- What is accepted is a sequence of groups, read one after another. -/
theorem parseFrom_eq_ok_iff (read : Options × Option Command) {args : List Text}
    {result : Options × Option Command} :
    parseFrom read.1 read.2 args = .ok result ↔
      ∃ groups, written groups = args ∧ groups.foldlM addGroup read = .ok result := by
  constructor
  · intro h
    induction hlength : args.length using Nat.strong_induction_on generalizing args read with
    | _ n ih =>
      cases args with
      | nil => exact ⟨[], rfl, h⟩
      | cons arg rest =>
        obtain ⟨g, more, hg⟩ := exists_group h
        rw [hg, parseFrom_group] at h
        obtain ⟨next, hnext, h⟩ := Except.bind_eq_ok_iff.1 h
        have hshorter : more.length < n := by
          rw [← hlength, hg, List.length_append]
          have hpos : 0 < g.written.length := by cases g <;> simp [Group.written, Form.written]
          omega
        obtain ⟨groups, hgroups, hread⟩ := ih more.length hshorter next h rfl
        refine ⟨g :: groups, ?_, ?_⟩
        · rw [hg, ← hgroups]
          rfl
        · rw [List.foldlM_cons, hnext]
          exact hread
  · rintro ⟨groups, rfl, h⟩
    rw [← List.append_nil (written groups), parseFrom_written, h]
    rfl

end Reading

section Unique

/-- What the first argument of a group is taken for, and whether it begins with two hyphens. -/
def Group.taken : Group → Argument × Bool
  | .root which path .short _ => (.root which path, false)
  | .root which path .long _ => (.root which path, true)
  | .root which _ .shortApart _ => (.rootNext which (which.short.drop 1), false)
  | .root which _ .longApart _ => (.rootNext which (which.long.drop 2), true)
  | .letters more => (.more (more + 1), false)
  | .verbose => (.more 1, true)
  | .level number => (.level ((Text.readInt? number).getD 1), true)
  | .command c => (.word c.word, false)

theorem exists_written_eq (g : Group) : ∃ first second, g.written = first :: second ∧
    (Argument.ofText first, Text.startsWith first "--".toList) = g.taken := by
  cases g with
  | root which path form fits =>
    cases form with
    | short =>
      refine ⟨_, _, rfl, ?_⟩
      obtain ⟨c, more, rfl⟩ := List.exists_cons_of_ne_nil fits
      cases which <;> rfl
    | shortApart => cases which <;> exact ⟨_, _, rfl, rfl⟩
    | long => cases which <;> exact ⟨_, _, rfl, rfl⟩
    | longApart => cases which <;> exact ⟨_, _, rfl, rfl⟩
  | letters more =>
    refine ⟨_, _, rfl, ?_⟩
    rw [ofText_letters]
    rfl
  | verbose => exact ⟨_, _, rfl, rfl⟩
  | level number => exact ⟨_, _, rfl, rfl⟩
  | command c => cases c <;> exact ⟨_, _, rfl, rfl⟩

/-- Where a group ends is seen from its arguments. -/
theorem written_append_inj {g g' : Group} {rest rest' : List Text}
    (h : g.written ++ rest = g'.written ++ rest') : g = g' ∧ rest = rest' := by
  have htaken : g.taken = g'.taken := by
    obtain ⟨first, second, hg, htaken⟩ := exists_written_eq g
    obtain ⟨first', second', hg', htaken'⟩ := exists_written_eq g'
    rw [hg, hg', List.cons_append, List.cons_append, List.cons.injEq] at h
    rw [← htaken, ← htaken', h.1]
  cases g with
  | root which path form fits =>
    cases g' with
    | root which' path' form' fits' =>
      -- option and form are seen from the first argument, and the path may be the second one
      cases form <;> cases form' <;> simp [Group.taken] at htaken <;>
        obtain ⟨rfl, _⟩ := htaken <;>
        simpa [Group.written, Form.written, Form.first, Form.second?] using h
    | _ => cases form <;> cases htaken
  | letters more =>
    cases g' with
    | letters more' =>
      have hmore : (more : Int) = more' := by simpa [Group.taken] using htaken
      obtain rfl := Int.ofNat_inj.1 hmore
      exact ⟨rfl, List.append_cancel_left h⟩
    | root which' path' form' fits' => cases form' <;> cases htaken
    | _ => cases htaken
  | verbose =>
    cases g' with
    | verbose => exact ⟨rfl, List.append_cancel_left h⟩
    | root which' path' form' fits' => cases form' <;> cases htaken
    | _ => cases htaken
  | level number =>
    cases g' with
    | level number' => simpa [Group.written] using h
    | root which' path' form' fits' => cases form' <;> cases htaken
    | _ => cases htaken
  | command c =>
    cases g' with
    | command c' =>
      obtain rfl : c = c' := by
        cases c <;> cases c' <;> first | rfl | cases htaken
      exact ⟨rfl, List.append_cancel_left h⟩
    | root which' path' form' fits' => cases form' <;> cases htaken
    | _ => cases htaken

/-- Arguments are written out by one sequence of groups at most. -/
theorem written_injective : Function.Injective written := by
  intro groups
  induction groups with
  | nil =>
    intro groups' h
    cases groups' with
    | nil => rfl
    | cons g' groups' =>
      obtain ⟨first, second, hg, _⟩ := exists_written_eq g'
      simp [written, hg] at h
  | cons g groups ih =>
    intro groups' h
    cases groups' with
    | nil =>
      obtain ⟨first, second, hg, _⟩ := exists_written_eq g
      simp [written, hg] at h
    | cons g' groups' =>
      rw [written, written, List.flatMap_cons, List.flatMap_cons] at h
      obtain ⟨rfl, hrest⟩ := written_append_inj h
      rw [ih hrest]

end Unique

section Meaning

theorem lastPath?_concat (which : Root) (groups : List Group) (g : Group) :
    lastPath? which (groups ++ [g]) = (g.pathFor? which).or (lastPath? which groups) := by
  cases hg : g.pathFor? which <;> simp [lastPath?, List.filterMap_append, hg]

theorem Group.adds_nothing {g : Group} (hg : g.concern ≠ .verbosity) :
    g.level? = none ∧ g.count = 0 := by
  cases g with
  | root | command => exact ⟨rfl, rfl⟩
  | letters | verbose | level => exact absurd rfl hg

/-- What is not about the verbosity leaves it alone. -/
theorem verbosity?_concat_other (groups : List Group) {g : Group} (hg : g.concern ≠ .verbosity) :
    verbosity? (groups ++ [g]) = verbosity? groups := by
  obtain ⟨hlevel, hcount⟩ := Group.adds_nothing hg
  simp [verbosity?, hg, hlevel, hcount]

theorem verbosity?_concat_level (groups : List Group) (number : Text) :
    verbosity? (groups ++ [.level number]) = some ((Text.readInt? number).getD 1) := by
  simp [verbosity?, Group.concern, Group.level?]

/-- Without a group about it the verbosity is as if it were zero. -/
theorem getD_verbosity? (groups : List Group) : (verbosity? groups).getD 0 =
    (groups.filterMap Group.level?).getLast?.getD 0 +
      ((groups.rtakeWhile fun g => g.level? = none).map Group.count).sum := by
  induction groups using List.reverseRecOn with
  | nil => rfl
  | append_singleton groups g ih =>
    by_cases hg : g.concern = .verbosity
    · simp [verbosity?, hg]
    · rw [verbosity?_concat_other _ hg, ih]
      obtain ⟨hlevel, hcount⟩ := Group.adds_nothing hg
      simp [hlevel, hcount]

theorem verbosity?_concat_count (groups : List Group) {g : Group}
    (hg : g.concern = .verbosity) (hlevel : g.level? = none) :
    verbosity? (groups ++ [g]) = some ((verbosity? groups).getD 0 + g.count) := by
  rw [getD_verbosity?]
  simp [verbosity?, hg, hlevel, Int.add_assoc]

/-- An option adds to what the groups in front of it say, and leaves the command alone. -/
theorem addGroup_optionsOf {g : Group} (hg : g.concern ≠ .command) (command : Option Command) :
    addGroup (optionsOf groups, command) g = .ok (optionsOf (groups ++ [g]), command) := by
  have hpath := fun which => lastPath?_concat which groups g
  cases g with
  | root which path form fits =>
    have hverbosity := verbosity?_concat_other groups
      (g := .root which path form fits) (by simp [Group.concern])
    cases which <;> simp [addGroup, setRoot, optionsOf, hpath, hverbosity, Group.pathFor?]
  | letters more =>
    have hverbosity := verbosity?_concat_count groups (g := .letters more) rfl rfl
    simp [addGroup, optionsOf, hpath, hverbosity, Group.pathFor?, Group.count]
  | verbose =>
    have hverbosity := verbosity?_concat_count groups (g := .verbose) rfl rfl
    simp [addGroup, optionsOf, hpath, hverbosity, Group.pathFor?, Group.count]
  | level number =>
    have hverbosity := verbosity?_concat_level groups number
    simp [addGroup, optionsOf, hpath, hverbosity, Group.pathFor?]
  | command c => exact absurd rfl hg

theorem optionsOf_concat_command (c : Command) :
    optionsOf (groups ++ [.command c]) = optionsOf groups := by
  have hpath := fun which => lastPath?_concat which groups (.command c)
  have hverbosity := verbosity?_concat_other groups (g := .command c)
    (by simp [Group.concern])
  simp [optionsOf, hpath, hverbosity, Group.pathFor?]

theorem addCommand_word_eq_ok_iff {command : Option Command} {c next : Command} :
    addCommand command c.word = .ok next ↔ command = none ∧ next = c := by
  cases command with
  | none =>
    have hword : addCommand none c.word = .ok c := by cases c <;> rfl
    rw [hword, Except.ok.injEq, eq_comm]
    exact (and_iff_right rfl).symm
  | some found => simp [addCommand]

theorem commandsIn_concat (g : Group) :
    commandsIn (groups ++ [g]) = commandsIn groups ++ g.command?.toList := by
  cases hg : g.command? <;> simp [commandsIn, List.filterMap_append, hg]

/-- Groups can be read one after another if there is at most one command word among them, and say
together what is read. -/
theorem foldlM_addGroup_eq_ok_iff {options : Options} {command : Option Command} :
    groups.foldlM addGroup (Options.empty, none) = .ok (options, command) ↔
      (commandsIn groups).length ≤ 1 ∧ options = optionsOf groups ∧
        command = (commandsIn groups).head? := by
  induction groups using List.reverseRecOn generalizing options command with
  | nil =>
    show Except.ok (Options.empty, none) = Except.ok (options, command) ↔ _
    rw [Except.ok.injEq, Prod.mk.injEq, eq_comm, @eq_comm _ none]
    exact (and_iff_right (Nat.zero_le 1)).symm
  | append_singleton groups g ih =>
    rw [List.foldlM_append, Except.bind_eq_ok_iff]
    simp only [List.foldlM_cons, List.foldlM_nil, bind_pure, Prod.exists, ih, commandsIn_concat]
    by_cases hg : g.concern = .command
    · cases g with
      | command c =>
        rw [optionsOf_concat_command]
        simp only [addGroup, Except.map_eq_ok_iff, addCommand_word_eq_ok_iff, Group.command?]
        constructor
        · rintro ⟨_, _, ⟨_, rfl, rfl⟩, _, ⟨hnone, rfl⟩, he⟩
          cases he
          rw [List.head?_eq_none_iff.1 hnone]
          exact ⟨Nat.le_refl 1, rfl, rfl⟩
        · rintro ⟨hle, rfl, rfl⟩
          have hnil : commandsIn groups = [] := by
            rw [← List.length_eq_zero_iff]
            simpa using hle
          rw [hnil]
          exact ⟨_, _, ⟨Nat.zero_le 1, rfl, rfl⟩, c, ⟨rfl, rfl⟩, rfl⟩
      | _ => cases hg
    · have hnone : g.command? = none := by cases g <;> first | rfl | exact absurd rfl hg
      rw [hnone, Option.toList_none, List.append_nil]
      constructor
      · rintro ⟨_, _, ⟨hle, rfl, rfl⟩, h⟩
        rw [addGroup_optionsOf hg] at h
        cases h
        exact ⟨hle, rfl, rfl⟩
      · rintro ⟨hle, rfl, rfl⟩
        exact ⟨_, _, ⟨hle, rfl, rfl⟩, addGroup_optionsOf hg _⟩

end Meaning

section Laws

/-- Groups about different things can be read in either order, also where the second command word
is one too many. -/
theorem addGroup_comm {g g' : Group} (h : g.concern ≠ g'.concern) :
    (addGroup read g >>= fun next => addGroup next g') =
      addGroup read g' >>= fun next => addGroup next g := by
  obtain ⟨options, command⟩ := read
  cases g with
  | root which path form fits =>
    cases g' with
    | root which' path' form' fits' =>
      cases which <;> cases which' <;> first | rfl | exact absurd rfl h
    | command c => cases which <;> cases command <;> cases c <;> rfl
    | _ => cases which <;> rfl
  | command c =>
    cases g' with
    | root which path form fits => cases which <;> cases command <;> cases c <;> rfl
    | command c' => exact absurd rfl h
    | _ => cases command <;> cases c <;> rfl
  | letters _ | verbose | level _ =>
    cases g' with
    | root which path form fits => cases which <;> rfl
    | command c => cases command <;> cases c <;> rfl
    | _ => exact absurd rfl h

/-- What a form writes is read alike for all forms. -/
theorem parseFrom_form (fits : form.Fits path) (rest : List Text) :
    parseFrom read.1 read.2 (form.written which path ++ rest) =
      parseFrom (setRoot read.1 which path) read.2 rest :=
  parseFrom_group (.root which path form fits) rest

/-- Behind the same groups, arguments that are read alike are parsed alike. -/
theorem parse_written_append_congr {args args' : List Text}
    (h : ∀ read : Options × Option Command,
      parseFrom read.1 read.2 args = parseFrom read.1 read.2 args') :
    parse (written before ++ args) = parse (written before ++ args') := by
  have hargs := fun args => parseFrom_written (Options.empty, none) before args
  exact (hargs args).trans ((bind_congr fun next => h next).trans (hargs args').symm)

end Laws

/-- A command line is accepted if it is written out by groups with one command word at most, which
can be done in one way only, and it says what they say. The forms of an option with its path can be
put for each other in any place, and so can two neighbouring groups about different things. -/
theorem parse_groups :
    Function.Injective written ∧
      (∀ args options command, parse args = .ok (options, command) ↔
        ∃ groups, written groups = args ∧ (commandsIn groups).length ≤ 1 ∧
          options = optionsOf groups ∧ command = (commandsIn groups).head?) ∧
      (∀ (before : List Group) (which : Root) (path : Path) (form form' : Form) (rest : List Text),
        form.Fits path → form'.Fits path →
          parse (written before ++ (form.written which path ++ rest)) =
            parse (written before ++ (form'.written which path ++ rest))) ∧
      (∀ (before : List Group) (first second : Group) (rest : List Text),
        first.concern ≠ second.concern →
          parse (written before ++ (first.written ++ (second.written ++ rest))) =
            parse (written before ++ (second.written ++ (first.written ++ rest)))) := by
  refine ⟨written_injective, fun args options command => ?_, ?_, ?_⟩
  · refine (parseFrom_eq_ok_iff (Options.empty, none)).trans (exists_congr fun _ => ?_)
    exact and_congr_right fun _ => foldlM_addGroup_eq_ok_iff
  · intro before which path form form' rest fits fits'
    exact parse_written_append_congr fun read =>
      (parseFrom_form fits rest).trans (parseFrom_form fits' rest).symm
  · intro before first second rest hne
    refine parse_written_append_congr fun read => ?_
    simp only [parseFrom_group]
    rw [← bind_assoc, ← bind_assoc, addGroup_comm hne]

theorem parse_groups_trace_reset :
    parse ["-v".toList, "--verbose=x".toList, "-vv".toList, "-s".toList, "-t".toList, "ls".toList,
        "--target=/t".toList] =
      .ok (⟨some "-t".toList, some "/t".toList, some 3, []⟩, some .list) ∧
    parse ["-v".toList, "-s".toList, "-t".toList, "ls".toList] =
      parse ["-v".toList, "-s-t".toList, "ls".toList] ∧
    parse ["-v".toList, "-s".toList, "-t".toList, "ls".toList] =
      parse ["-v".toList, "ls".toList, "-s".toList, "-t".toList] := by
  refine ⟨(parse_groups.2.1 _ _ _).2 ?_, ?_, ?_⟩
  · exact ⟨[.letters 0, .level "x".toList, .letters 1,
      .root .source "-t".toList .shortApart trivial, .command .list,
      .root .target "/t".toList .long trivial], rfl, by decide, rfl, rfl⟩
  · exact parse_groups.2.2.1 [.letters 0] .source "-t".toList .shortApart .short ["ls".toList]
      trivial (show "-t".toList ≠ [] by decide)
  · exact parse_groups.2.2.2 [.letters 0] (.root .source "-t".toList .shortApart trivial)
      (.command .list) [] (by decide)

end Dotfiles.CommandLine
