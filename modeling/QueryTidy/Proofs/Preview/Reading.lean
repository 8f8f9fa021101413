import QueryTidy.CommandLine.Arguments
import QueryTidy.Proofs.Run.ToolChoice

/-!
# How tools read their arguments

By the usual convention an argument that begins with a minus sign is an option, or stands for the
standard input, and every other argument is an operand, until an argument `--` makes operands of all
that follow (`Reading.ofArguments`). A command of the library puts the path of the file where it is
read by this convention. So it compares the file with its new version for every path that does not
begin with a minus sign (`Comparer.reading_of_path`), and no other: a path that does is taken for an
option (`Comparer.reading_of_dashed`), or for the end of the options
(`Comparer.reading_of_separator`).
-/

namespace QueryTidy

/-- What a program takes its arguments for. -/
structure Reading where
  /-- The arguments that are options or stand for the standard input. -/
  options : List Bytes
  operands : List Bytes
  deriving DecidableEq, Repr

namespace Reading

/-- The argument that ends the options. -/
def separator : Bytes := [Argument.minus, Argument.minus]

/-- The arguments as the usual convention reads them. -/
def ofArguments : List Bytes → Reading
  | [] => ⟨[], []⟩
  | argument :: rest =>
      if argument = separator then ⟨[], rest⟩
      else
        let reading := ofArguments rest
        if argument.head? = some Argument.minus then ⟨argument :: reading.options, reading.operands⟩
        else ⟨reading.options, argument :: reading.operands⟩

variable {argument : Bytes} {rest : List Bytes}

/-- An argument with a minus sign is an option. -/
theorem of_option (h : argument.head? = some Argument.minus) (hne : argument ≠ separator) :
    ofArguments (argument :: rest) =
      ⟨argument :: (ofArguments rest).options, (ofArguments rest).operands⟩ := by
  rw [ofArguments, if_neg hne]
  exact if_pos h

/-- An argument without a minus sign is an operand. -/
theorem of_operand (h : argument.head? ≠ some Argument.minus) :
    ofArguments (argument :: rest) =
      ⟨(ofArguments rest).options, argument :: (ofArguments rest).operands⟩ := by
  have hne : argument ≠ separator := by
    rintro rfl
    exact h rfl
  rw [ofArguments, if_neg hne]
  exact if_neg h

end Reading

namespace Comparer

open Reading (ofArguments)

/-- What a tool takes the arguments of a command for. The version control system is told first what
to do. -/
def reading : Comparer → Command → Option Reading
  | .diff, command => some (ofArguments command.args)
  | .git, command =>
      match command.args with
      | [] => none
      | word :: rest =>
          if word = Utf8.encode "diff".toList then some (ofArguments rest) else none

/-- The options in front of the files. -/
def leadingOptions : Comparer → List Bytes
  | .diff => Comparer.diff.fixedOptions
  | .git => Comparer.git.fixedOptions.tail

/-- The options behind the files. -/
def closingOptions (c : Comparer) (color : Bool) : List Bytes :=
  if c = .diff ∧ color then [colorOption] else []

/-- The command is read from the path on as any arguments are. -/
theorem reading_comparison (c : Comparer) (color : Bool) (path : Path) :
    c.reading (c.comparison color path Handover.contentPath) =
      some ⟨c.leadingOptions ++
          (ofArguments (path :: Handover.contentPath :: c.closingOptions color)).options,
        (ofArguments (path :: Handover.contentPath :: c.closingOptions color)).operands⟩ := by
  cases c with
  | diff =>
      show some (ofArguments (Utf8.encode "--unified=10".toList :: _)) = _
      rw [Reading.of_option (by decide) (by decide)]
      rfl
  | git =>
      show some (ofArguments (Utf8.encode "--word-diff".toList :: _)) = _
      rw [Reading.of_option (by decide) (by decide)]
      rfl

/-- Behind the path come the new version, which is an operand, and the options there. -/
theorem reading_behind_path (c : Comparer) (color : Bool) :
    ofArguments (Handover.contentPath :: c.closingOptions color) =
      ⟨c.closingOptions color, [Handover.contentPath]⟩ := by
  cases c <;> cases color <;> decide

variable (c : Comparer) (color : Bool) {path : Path}

/-- A path without a minus sign in front is compared with the new version. -/
theorem reading_of_path (h : path.head? ≠ some Argument.minus) :
    c.reading (c.comparison color path Handover.contentPath) =
      some ⟨c.leadingOptions ++ c.closingOptions color, [path, Handover.contentPath]⟩ := by
  rw [reading_comparison, Reading.of_operand h, reading_behind_path]

/-- A path with a minus sign in front is an option, and nothing is left to compare the new version
with. -/
theorem reading_of_dashed (h : path.head? = some Argument.minus) (hne : path ≠ Reading.separator) :
    c.reading (c.comparison color path Handover.contentPath) =
      some ⟨c.leadingOptions ++ path :: c.closingOptions color, [Handover.contentPath]⟩ := by
  rw [reading_comparison, Reading.of_option h hne, reading_behind_path]

/-- The path `--` makes operands of all that follows, and is none. -/
theorem reading_of_separator :
    c.reading (c.comparison color Reading.separator Handover.contentPath) =
      some ⟨c.leadingOptions, Handover.contentPath :: c.closingOptions color⟩ := by
  rw [reading_comparison, ofArguments, if_pos rfl]
  rw [List.append_nil]

end Comparer

namespace Program

/-- A tool compares the given file with its new version, with the options that it is always given
and the one for color, exactly when the path does not begin with a minus sign. All starts of a tool
in a run that shows changes are such commands of the one tool that is settled, for files of the run
that have to change. -/
theorem tools_compare_two_files (c : Comparer) (color : Bool) (path : Path)
    (f : Text → FormatResult) (host : Host) (choice : ComparerChoice) (paths : List Path)
    (t : Tree) (storage : Storage) :
    (c.reading (c.comparison color path Handover.contentPath) =
        some ⟨c.leadingOptions ++ c.closingOptions color, [path, Handover.contentPath]⟩ ↔
      path.head? ≠ some Argument.minus) ∧
    ∀ r ∈ startRecords ((showChanges f host choice color paths).run t storage).logs,
      ∃ used : Comparer, choice.settle (Availability.found host.tools) = some used ∧
        ∃ file ∈ paths, t.change? f file ≠ none ∧
          r = Handover.runningRecord (used.comparison color file Handover.contentPath) := by
  constructor
  · refine ⟨?_, c.reading_of_path color⟩
    intro hreading hdashed
    by_cases hseparator : path = Reading.separator
    · subst hseparator
      rw [c.reading_of_separator color] at hreading
      have hoperands := congrArg Reading.operands (Option.some.inj hreading)
      exact absurd (List.cons.inj hoperands).1 (by decide)
    · rw [c.reading_of_dashed color hdashed hseparator] at hreading
      have hoperands := congrArg Reading.operands (Option.some.inj hreading)
      exact absurd (congrArg List.length hoperands) (by simp)
  · intro r hr
    cases hsettle : choice.settle (Availability.found host.tools) with
    | none =>
        rw [(shown_by_none_of_settle hsettle).started] at hr
        cases hr
    | some used =>
        obtain ⟨logs, hlogs, hrun⟩ := show_changes_run f host choice color paths t storage
        rw [hrun, start_records_append, hlogs, List.nil_append] at hr
        exact ⟨used, rfl, Batch.process_all_starts (b := showingBatch f host choice color) rfl rfl
          hsettle paths t storage r hr⟩

/-- A file that is shown by the plain tool in color, beside one that is in canonical form. It is the
one file that the tool is started for. -/
theorem shown_file_is_compared :
    let tool : ToolBehavior := .echoing [] (.code 0) (.code 1)
    let host : Host := ⟨⟨some (.executable tool), none⟩, none⟩
    let q := Utf8.encode ['q']
    let r := Utf8.encode ['r']
    let t : Tree := ⟨[([q], .file (Utf8.encode "x  +  y".toList)),
      ([r], .file (Utf8.encode "x + y\n".toList))]⟩
    let shown := (showChanges Query.format host (.named .diff) true [q, r]).run t
    Comparer.diff.reading (Comparer.diff.comparison true q Handover.contentPath) =
        some ⟨[Utf8.encode "--unified=10".toList, Utf8.encode "--color".toList],
          [q, Utf8.encode "/dev/fd/3".toList]⟩ ∧
      startRecords shown.logs ≠ [] ∧
      ∀ record ∈ startRecords shown.logs,
        record = Handover.runningRecord (Comparer.diff.comparison true q Handover.contentPath) := by
  intro tool host q r t shown
  obtain ⟨hreading, hstarts⟩ :=
    tools_compare_two_files .diff true q Query.format host (.named .diff) [q, r] t .roomy
  refine ⟨?_, by decide +kernel, ?_⟩
  · rw [hreading.mpr (by decide)]
    rfl
  · intro record hrecord
    obtain ⟨used, hused, path, hpath, hchange, hcommand⟩ := hstarts record hrecord
    obtain rfl : .diff = used := by
      rw [ComparerChoice.settle_named] at hused
      exact Option.some.inj hused
    rcases List.mem_cons.mp hpath with rfl | hlast
    · exact hcommand
    · obtain rfl : path = r := List.mem_singleton.mp hlast
      exact absurd (by decide +kernel) hchange

/-- The path `-q` is a path of the command line behind `--`. The tool is not told to compare it: it
takes it for an option, and has only the new version left. -/
theorem dashed_path_is_not_compared :
    let q := Utf8.encode "-q".toList
    Arguments.read [Utf8.encode "--dry-run".toList, Utf8.encode "--".toList, q] =
        .run ⟨true, .auto, false, [q]⟩ ∧
      Comparer.diff.reading (Comparer.diff.comparison false q Handover.contentPath) =
        some ⟨[Utf8.encode "--unified=10".toList, q], [Handover.contentPath]⟩ ∧
      ¬∀ (c : Comparer) (color : Bool) (path : Path), path ≠ [] → 0 ∉ path →
        c.reading (c.comparison color path Handover.contentPath) =
          some ⟨c.leadingOptions ++ c.closingOptions color, [path, Handover.contentPath]⟩ := by
  intro q
  have hq : Comparer.diff.reading (Comparer.diff.comparison false q Handover.contentPath) =
      some ⟨[Utf8.encode "--unified=10".toList, q], [Handover.contentPath]⟩ := by decide
  refine ⟨by decide +kernel, hq, ?_⟩
  intro h
  have hcompared := h .diff false q (by decide) (by decide)
  rw [hq] at hcompared
  exact absurd hcompared (by decide)

end Program

end QueryTidy
