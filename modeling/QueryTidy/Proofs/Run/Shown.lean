import QueryTidy.Proofs.Run.Fatal
import QueryTidy.Proofs.Run.Preview

/-!
# What a run that shows changes prints

A tool that reads the side channel is started for every file that has to change, since a path that
can be read can be passed on to it (`Comparer.launch_comparison`). What it prints is the record of
that file (`Batch.shownRecord`), and how it exits is the result of the file (`Batch.exitResult`).
The files are left alone, so each of them comes to what it comes to alone, and a run prints the
records of its files one after the other (`Batch.every_change_is_shown_once`).
-/

namespace QueryTidy

open QueryTidy.Action

variable {f : Text → FormatResult} {t : Tree} {path : Path} {paths : List Path}

/-! ## Tools that read the side channel -/

/-- The tool that prints its name, its arguments and the content of the side channel, and exits with
the given number or is ended by a signal. -/
def ToolBehavior.reader (version : Bytes) (versionExit : ExitStatus) (exit : Option Int) :
    ToolBehavior :=
  .echoing version versionExit (exit.elim .signal ExitStatus.ofInt)

/-- A path that can be read has no NUL byte. -/
theorem Tree.no_nul_of_read {data : Bytes} (h : t.read path = .ok data) : 0 ∉ path := by
  intro hnul
  have hresolve : t.resolve path = .error .nulInPath := by
    unfold Tree.resolve
    rw [if_pos hnul]
  have hread : t.read path = .error .nulInPath := by
    unfold Tree.read Tree.locate
    rw [hresolve]
  rw [hread] at h
  cases h

/-- A file that has to change can be read. -/
theorem Tree.read_of_change {content : Content} (h : t.change? f path = some content) :
    ∃ data, t.read path = .ok data := by
  obtain ⟨data, -, -, hread, -⟩ := Tree.read_of_verdict_change (Tree.verdict_change_iff.2 h)
  exact ⟨data, hread⟩

/-- An executable tool is started for every path without a NUL byte. -/
theorem Comparer.launch_comparison {tools : Toolset} {comparer : Comparer}
    {behavior : ToolBehavior} (htool : tools.find? comparer.program = some (.executable behavior))
    (hpath : 0 ∉ path) (color : Bool) :
    tools.launch (comparer.comparison color path Handover.contentPath) = .ok behavior := by
  -- The path is the only word of the command that is not fixed.
  have hnul : (comparer.comparison color path Handover.contentPath).hasNul = false := by
    have hword : path.contains 0 = false := by simpa using hpath
    have hfixed : ((comparer.program :: comparer.fixedOptions).any fun word => word.contains 0) =
        false := by
      cases comparer <;> decide
    have hlast : ([Handover.contentPath, Comparer.colorOption].any fun word => word.contains 0) =
        false := by
      decide
    simp only [List.any_cons, List.any_nil, Bool.or_eq_false_iff] at hfixed hlast
    unfold Command.hasNul Comparer.comparison
    split <;> simp [hword, hfixed, hlast, -List.contains_eq_mem]
  unfold Toolset.launch
  rw [hnul]
  have hprogram : (comparer.comparison color path Handover.contentPath).program =
      comparer.program := rfl
  rw [hprogram, htool]
  rfl

namespace Batch

variable {b : Batch} {comparer : Comparer} {content : Content} {storage : Storage}

/-- The record of a file that a tool prints which reads the side channel: its name, the fixed
options, the path and that of the side channel, the option for color where the plain tool is to use
it, and the new content. There is none unless the file has to change. -/
def shownRecord (comparer : Comparer) (color : Bool) (f : Text → FormatResult) (t : Tree)
    (path : Path) : Bytes :=
  match t.change? f path with
  | none => []
  | some content =>
      ToolBehavior.transcript
        ⟨comparer.program, comparer.fixedOptions ++ [path, Handover.contentPath]
          ++ if comparer = .diff ∧ color then [Comparer.colorOption] else []⟩
        content.bytes

/-- The result of a file for which a tool exits with the given number, of which the lowest byte
counts, or is ended by a signal. -/
def exitResult (path : Path) : Option Int → FileResult
  | none => .error (.preview path .killed)
  | some n =>
      if n % 256 = 0 ∨ n % 256 = 1 then .ok .previewed
      else .error (.preview path (.exit (n % 256)))

/-- The exit of a tool decides on the result of its file. -/
theorem preview_result_of_exit (path : Path) (exit : Option Int) :
    previewResult path (PreviewFault.ofExit (exit.elim .signal ExitStatus.ofInt).code?) =
      exitResult path exit := by
  cases exit with
  | none => rfl
  | some n =>
      have hbyte : ((n % 256).toNat : Int) = n % 256 :=
        Int.toNat_of_nonneg (Int.emod_nonneg n (by decide))
      simp only [Option.elim, ExitStatus.ofInt, ExitStatus.code?, PreviewFault.ofExit, exitResult,
        hbyte]
      split <;> rfl

/-- A file that need not change does so with a result that says why. -/
theorem shown_result_of_no_change (hchange : t.change? f path = none) :
    b.shownResult comparer f t path = .ok .unchanged ∨
      (∃ e, b.shownResult comparer f t path = .error (.read path e)) ∨
        ∃ message, b.shownResult comparer f t path = .error (.parse path message) := by
  unfold shownResult
  cases hverdict : t.verdict f path with
  | crash => exact .inl rfl
  | fits => exact .inl rfl
  | fault fault =>
      rcases Tree.verdict_fault_cases hverdict with ⟨e, rfl⟩ | ⟨message, rfl⟩
      · exact .inr (.inl ⟨e, rfl⟩)
      · exact .inr (.inr ⟨message, rfl⟩)
  | change content => exact absurd hverdict (Tree.verdict_ne_change hchange content)

/-- A file that need not change is not shown. -/
theorem process_file_not_shown (hf : b.formatter = Formatter.ofResult f)
    (hchange : t.change? f path = none) : ((b.processFile path).run t storage).output = [] := by
  rw [process_file_run hf]
  cases hverdict : t.verdict f path with
  | change content => exact absurd hverdict (Tree.verdict_ne_change hchange content)
  | _ => rfl

/-- Where changes are shown by a tool, a run that does not stop the program goes through files of
which none stops the formatter. -/
theorem verdict_of_preview_finishes (hmode : b.mode = .preview)
    (hcomparer : b.settings.comparer = some comparer) (hf : b.formatter = Formatter.ofResult f)
    (h : ((b.processAll paths).run t storage).result ≠ .crashed) :
    ∀ path ∈ paths, t.verdict f path ≠ .crash := by
  induction paths with
  | nil => exact fun _ hpath => nomatch hpath
  | cons path rest ih =>
      by_cases hcrash : t.verdict f path = .crash
      · have hstop : ((b.processFile path).run t storage).result = .crashed := by
          rw [process_file_run hf, hcrash]
        rw [process_all_crash hstop] at h
        exact absurd rfl h
      · refine List.forall_mem_cons.2 ⟨hcrash, ih fun hrest => h ?_⟩
        rw [process_all_cons (process_file_preview storage hmode hcomparer hf hcrash)
          shown_result_not_fatal, hrest]
        rfl

section

variable (f) (comparer) (color : Bool) {tools : Toolset} {version : Bytes}
  {versionExit : ExitStatus} {exit : Option Int}

/-- The batch that shows changes with a tool, on a host that has pipes. -/
def showing (tools : Toolset) : Batch :=
  ⟨Formatter.ofResult f, .preview, ⟨some comparer, color⟩, ⟨tools, none⟩⟩

variable {f comparer}

/-- A tool that reads the side channel prints the record of a file. -/
theorem process_file_shown
    (htool : tools.find? comparer.program =
      some (.executable (ToolBehavior.reader version versionExit exit)))
    (path : Path) (t : Tree) (storage : Storage) :
    (((showing f comparer color tools).processFile path).run t storage).output =
      shownRecord comparer color f t path := by
  unfold shownRecord
  cases hchange : t.change? f path with
  | none => exact process_file_not_shown rfl hchange
  | some content =>
      obtain ⟨data, hread⟩ := Tree.read_of_change hchange
      have hlaunch := Comparer.launch_comparison htool (Tree.no_nul_of_read hread) color
      exact (process_file_preview_answer (b := showing f comparer color tools) storage rfl rfl rfl
        (Tree.verdict_change_iff.2 hchange) rfl hlaunch).1

/-- The result of a file that has to change is the exit of the tool. -/
theorem shown_result_of_change
    (htool : tools.find? comparer.program =
      some (.executable (ToolBehavior.reader version versionExit exit)))
    (hchange : t.change? f path = some content) :
    (showing f comparer color tools).shownResult comparer f t path = exitResult path exit := by
  obtain ⟨data, hread⟩ := Tree.read_of_change hchange
  have hlaunch := Comparer.launch_comparison htool (Tree.no_nul_of_read hread) color
  rw [(process_file_preview_answer (b := showing f comparer color tools) .roomy rfl rfl
    rfl (Tree.verdict_change_iff.2 hchange) rfl hlaunch).2]
  exact preview_result_of_exit path exit

/-- A run that shows changes with a tool that reads the side channel prints the record of each file
that has to change, once for each time that its path is given, in the order of the paths, and
nothing else. Each path has a result: for a file that has to change, the tool was run well if it
exits with 0 or 1, the fault names any other exit, and it is told apart from the end by a signal;
every other file is in canonical form, cannot be read or is refused. The program stops only on a
text that stops the formatter. -/
theorem every_change_is_shown_once
    (htool : tools.find? comparer.program =
      some (.executable (ToolBehavior.reader version versionExit exit)))
    (paths : List Path) (t : Tree) (storage : Storage) :
    let run := ((showing f comparer color tools).process paths).run t storage
    (run.result = .crashed → ∃ text, f text = .crash) ∧
      (run.result ≠ .crashed →
        run.output = paths.flatMap (shownRecord comparer color f t) ∧
        ∃ result : Path → FileResult,
          run.result = .finished (.ok ⟨paths.map fun path => (path, result path)⟩) ∧
          ∀ path,
            (t.change? f path ≠ none → result path = exitResult path exit) ∧
            (t.change? f path = none → result path = .ok .unchanged ∨
              (∃ e, result path = .error (.read path e)) ∨
              ∃ message, result path = .error (.parse path message))) := by
  intro run
  have hrun : run = _ := process_run paths t
  refine ⟨fun hcrash => ?_, fun hfinishes => ?_⟩
  · rw [hrun, reported_crashed_iff] at hcrash
    exact text_of_process_all_crash rfl hcrash
  · rw [hrun, Ne, reported_crashed_iff] at hfinishes
    -- No file changes, so the verdicts that count are those in the tree at the start.
    have hverdicts := verdict_of_preview_finishes rfl rfl rfl hfinishes
    obtain ⟨hresult, houtput⟩ :=
      process_all_preview (b := showing f comparer color tools) storage rfl rfl rfl hverdicts
    rw [hrun, hresult, houtput]
    refine ⟨?_, (showing f comparer color tools).shownResult comparer f t, rfl,
      fun path => ⟨?_, ?_⟩⟩
    · exact List.flatMap_congr fun path _ => process_file_shown color htool path t storage
    · intro hchange
      obtain ⟨content, hcontent⟩ := Option.ne_none_iff_exists'.1 hchange
      exact shown_result_of_change color htool hcontent
    · exact shown_result_of_no_change

end

/-- A file that has to change is shown each time that its path is given, and a tool that exits with
257 says that there are differences. -/
theorem file_given_twice_is_shown_twice :
    let q := Utf8.encode ['q']
    let r := Utf8.encode ['r']
    let m := Utf8.encode ['m']
    let t : Tree :=
      ⟨[([q], .file (Utf8.encode ['a', ' '])), ([r], .file (Utf8.encode ['a', '\n']))]⟩
    let tools : Toolset :=
      ⟨some (.executable (ToolBehavior.reader [] (.code 0) (some 257))), none⟩
    let b := showing (fun _ => .formatted ['a']) .diff true tools
    let run := (b.process [q, m, r, q]).run t
    let shown := Utf8.encode
      "[diff]\n--unified=10\nq\n/dev/fd/3\n--color\n[formatted]\na\n[end]\n".toList
    tools.find? Comparer.diff.program =
        some (.executable (ToolBehavior.reader [] (.code 0) (some 257))) ∧
      run.output = shown ++ shown ∧
      ∃ report, run.result = .finished (.ok report) ∧ (q, .ok .previewed) ∈ report.results := by
  intro q r m t tools b run shown
  have htool : tools.find? Comparer.diff.program =
      some (.executable (ToolBehavior.reader [] (.code 0) (some 257))) := rfl
  obtain ⟨hcrash, hends⟩ := every_change_is_shown_once (f := fun _ => .formatted ['a']) true
    htool [q, m, r, q] t .roomy
  obtain ⟨houtput, result, hresult, hpaths⟩ := hends fun h => by
    obtain ⟨text, htext⟩ := hcrash h
    cases htext
  refine ⟨htool, houtput.trans (by decide +kernel), _, hresult, ?_⟩
  have hq : result q = .ok .previewed := (hpaths q).1 (by decide +kernel)
  simp [hq]

end Batch

end QueryTidy
