import QueryTidy.Proofs.Preview.Found
import QueryTidy.Proofs.Run.Frame
import QueryTidy.Proofs.Run.Shown

/-!
# Tools that are there

The tools are looked for once, before the first file, and started later, once for each file that has
to change. What was found can be started, since the path of a file that has to change can be passed
on to a tool; so no file comes to the fault that the tool cannot be started
(`Batch.started_of_executable`). What a run does with its tool, up to the first file that stops the
formatter, is `Batch.process_all_used`, and without a tool `Batch.process_all_unused`; what else is
installed does not matter (`Batch.process_all_other_host`). `Program.tool_that_is_there_is_used`
puts this together with what is found.
-/

namespace QueryTidy

open QueryTidy.Action

/-! ## What is done with a tool -/

/-- The records of tools that are started for a file, in order. -/
def startRecords (logs : List LogRecord) : List LogRecord :=
  logs.filter fun r => r.area = .handover

/-- Records of starts come in the order of all records. -/
@[simp] theorem start_records_append (logs logs' : List LogRecord) :
    startRecords (logs ++ logs') = startRecords logs ++ startRecords logs' :=
  List.filter_append logs logs'

/-- Where no record is about a start, there are none to list. -/
theorem start_records_eq_nil {logs : List LogRecord} (h : ∀ r ∈ logs, r.area ≠ .handover) :
    startRecords logs = [] :=
  List.filter_eq_nil_iff.2 fun r hr => by simpa using h r hr

namespace Batch

variable {b : Batch} {f : Text → FormatResult} {t : Tree} {path : Path} {paths : List Path}
  {c : Comparer} {tool : ToolBehavior} {content : Content} {storage : Storage}

/-- The files of a list before the first one that stops the formatter. -/
def reached (f : Text → FormatResult) (t : Tree) (paths : List Path) : List Path :=
  paths.takeWhile fun path => t.verdict f path ≠ .crash

section

variable (c : Comparer) (color : Bool) (tool : ToolBehavior) (f : Text → FormatResult) (t : Tree)
  (path : Path)

/-- What a tool prints when it is to show the new content of a file, and how it exits. -/
def use (content : Content) : Bytes × ExitStatus :=
  tool.run (c.comparison color path Handover.contentPath) t content.bytes

/-- What a tool prints for a file: nothing unless the file has to change. -/
def usePrinted : Bytes :=
  match t.change? f path with
  | none => []
  | some content => (use c color tool t path content).1

/-- The start of a tool for a file: there is none unless the file has to change. -/
def useStart : List LogRecord :=
  match t.change? f path with
  | none => []
  | some _ => [Handover.runningRecord (c.comparison color path Handover.contentPath)]

/-- The result of a file that need not change. -/
def unusedResult : FileResult :=
  match t.verdict f path with
  | .fault fault => .error fault
  | _ => .ok .unchanged

/-- The result of a file: if it has to change, it is how the tool exits. -/
def useResult : FileResult :=
  match t.change? f path with
  | none => unusedResult f t path
  | some content =>
      previewResult path (PreviewFault.ofExit (use c color tool t path content).2.code?)

end

/-- The result of a file that need not change does not end the run. -/
theorem unused_result_not_fatal : endsRun (unusedResult f t path) = false := by
  unfold unusedResult
  split
  · exact Tree.verdict_fault_not_fatal ‹_›
  · rfl

/-- However a tool exits, the run goes on. -/
theorem use_result_not_fatal {color : Bool} :
    endsRun (useResult c color tool f t path) = false := by
  unfold useResult
  split
  · exact unused_result_not_fatal
  · unfold previewResult
    split <;> rfl

/-- A file that need not change has a result that says why, and no tool is started for it. -/
theorem process_file_unused (hf : b.formatter = Formatter.ofResult f)
    (hchange : t.change? f path = none) (hcrash : t.verdict f path ≠ .crash) :
    ∃ logs, (b.processFile path).run t storage = ⟨.finished (unusedResult f t path), t, logs, []⟩ ∧
      startRecords logs = [] := by
  rw [process_file_run hf]
  unfold unusedResult
  cases hverdict : t.verdict f path with
  | crash => exact absurd hverdict hcrash
  | fault fault => exact ⟨[], rfl, rfl⟩
  | fits => exact ⟨[fitsRecord path], rfl, rfl⟩
  | change content => exact absurd hverdict (Tree.verdict_ne_change hchange content)

/-- An executable tool is started for a file that has to change, and its exit is the result. -/
theorem process_file_used (hf : b.formatter = Formatter.ofResult f) (hmode : b.mode = .preview)
    (hcomparer : b.settings.comparer = some c) (hpipe : b.host.pipeFault = none)
    (htool : b.host.tools.find? c.program = some (.executable tool))
    (hcrash : t.verdict f path ≠ .crash) :
    ∃ logs, (b.processFile path).run t storage =
        ⟨.finished (useResult c b.settings.color tool f t path), t, logs,
          usePrinted c b.settings.color tool f t path⟩ ∧
      startRecords logs = useStart c b.settings.color f t path := by
  unfold useResult usePrinted useStart
  cases hchange : t.change? f path with
  | none => exact process_file_unused hf hchange hcrash
  | some content =>
      obtain ⟨data, hread⟩ := Tree.read_of_change hchange
      have hlaunch : b.host.tools.launch (b.comparison c path) = .ok tool :=
        Comparer.launch_comparison htool (Tree.no_nul_of_read hread) b.settings.color
      rw [process_file_run hf, Tree.verdict_change_iff.2 hchange]
      simp only [treat_preview_run hmode hcomparer, Handover.result, Handover.printed,
        Handover.records, hpipe, hlaunch]
      exact ⟨_, rfl, rfl⟩

/-- Faults that are logged are not starts of a tool. -/
theorem start_records_fault (r : FileResult) : startRecords (faultRecords r) = [] :=
  start_records_eq_nil fun record h => by
    obtain ⟨fault, -, rfl⟩ := List.mem_map.1 h
    exact fun h => nomatch h

/-- The files that are reached after one that does not stop the formatter. -/
theorem reached_cons (hcrash : t.verdict f path ≠ .crash) (rest : List Path) :
    reached f t (path :: rest) = path :: reached f t rest :=
  List.takeWhile_cons_of_pos (by simpa using hcrash)

/-- No file is reached from one on that stops the formatter. -/
theorem reached_cons_crash (hcrash : t.verdict f path = .crash) (rest : List Path) :
    reached f t (path :: rest) = [] :=
  List.takeWhile_cons_of_neg (by simpa using hcrash)

/-- All files are reached if none stops the formatter. -/
theorem reached_eq_self (h : ∀ path ∈ paths, t.verdict f path ≠ .crash) :
    reached f t paths = paths := by
  induction paths with
  | nil => rfl
  | cons path rest ih =>
      obtain ⟨hpath, hrest⟩ := List.forall_mem_cons.1 h
      rw [reached_cons hpath, ih hrest]

/-- With an executable tool, a run starts it for every file that is reached and has to change, in
order, prints what the tool prints, and ends with a result for every file if all are reached. -/
theorem process_all_used (hf : b.formatter = Formatter.ofResult f) (hmode : b.mode = .preview)
    (hcomparer : b.settings.comparer = some c) (hpipe : b.host.pipeFault = none)
    (htool : b.host.tools.find? c.program = some (.executable tool)) (paths : List Path)
    (t : Tree) (storage : Storage) :
    ((b.processAll paths).run t storage).output =
        (reached f t paths).flatMap (usePrinted c b.settings.color tool f t) ∧
      startRecords ((b.processAll paths).run t storage).logs =
        (reached f t paths).flatMap (useStart c b.settings.color f t) ∧
      ((b.processAll paths).run t storage).result =
        if reached f t paths = paths then
          .finished (.ok (paths.map fun p => (p, useResult c b.settings.color tool f t p)))
        else .crashed := by
  induction paths with
  | nil => exact ⟨rfl, rfl, rfl⟩
  | cons path rest ih =>
      by_cases hcrash : t.verdict f path = .crash
      · have hfile : (b.processFile path).run t storage = ⟨.crashed, t, [], []⟩ := by
          rw [process_file_run hf, hcrash]
        rw [process_all_crash (by rw [hfile]), hfile, reached_cons_crash hcrash]
        exact ⟨rfl, rfl, rfl⟩
      · obtain ⟨logs, hfile, hlogs⟩ :=
          process_file_used hf hmode hcomparer hpipe htool hcrash
        obtain ⟨houtput, hstarts, hresult⟩ := ih
        rw [process_all_cons hfile use_result_not_fatal, reached_cons hcrash]
        refine ⟨?_, ?_, ?_⟩
        · rw [houtput, List.flatMap_cons]
        · simp only [start_records_append, start_records_fault, hlogs, hstarts, List.nil_append,
            List.flatMap_cons]
        · simp only [hresult, List.cons.injEq, true_and]
          split <;> rfl

/-- Without a tool, a run starts none and prints nothing. It ends at the first file that has to
change, if one is reached. -/
theorem process_all_unused (hf : b.formatter = Formatter.ofResult f) (hmode : b.mode = .preview)
    (hcomparer : b.settings.comparer = none) (paths : List Path) (t : Tree) (storage : Storage) :
    ((b.processAll paths).run t storage).output = [] ∧
      startRecords ((b.processAll paths).run t storage).logs = [] ∧
      ((∃ p ∈ reached f t paths, t.change? f p ≠ none) →
        ((b.processAll paths).run t storage).result = .finished (.error .noComparer)) ∧
      ((∀ p ∈ reached f t paths, t.change? f p = none) →
        ((b.processAll paths).run t storage).result =
          if reached f t paths = paths then
            .finished (.ok (paths.map fun p => (p, unusedResult f t p)))
          else .crashed) := by
  induction paths with
  | nil => exact ⟨rfl, rfl, fun ⟨_, h, _⟩ => (nomatch h), fun _ => rfl⟩
  | cons path rest ih =>
      by_cases hcrash : t.verdict f path = .crash
      · have hfile : (b.processFile path).run t storage = ⟨.crashed, t, [], []⟩ := by
          rw [process_file_run hf, hcrash]
        rw [process_all_crash (by rw [hfile]), hfile, reached_cons_crash hcrash]
        exact ⟨rfl, rfl, fun ⟨_, h, _⟩ => (nomatch h), fun _ => rfl⟩
      · rw [reached_cons hcrash]
        cases hchange : t.change? f path with
        | some content =>
            have hfile : (b.processFile path).run t storage =
                ⟨.finished (.error .noComparer), t, [diffingRecord path], []⟩ := by
              rw [process_file_run hf, Tree.verdict_change_iff.2 hchange]
              exact treat_without_comparer hmode hcomparer path content t
            rw [process_all_fatal (by rw [hfile]) rfl, hfile]
            refine ⟨rfl, rfl, fun _ => rfl, fun h => ?_⟩
            rw [h path List.mem_cons_self] at hchange
            cases hchange
        | none =>
            obtain ⟨logs, hfile, hlogs⟩ := process_file_unused (b := b) hf hchange hcrash
            obtain ⟨houtput, hstarts, hfatal, hothers⟩ := ih
            rw [process_all_cons hfile unused_result_not_fatal]
            refine ⟨by rw [houtput]; rfl, ?_, fun ⟨p, hp, h⟩ => ?_, fun h => ?_⟩
            · simp only [start_records_append, start_records_fault, hlogs, hstarts, List.nil_append]
            · rcases List.mem_cons.1 hp with rfl | hp
              · exact absurd hchange h
              · rw [hfatal ⟨p, hp, h⟩]
                rfl
            · rw [hothers fun p hp => h p (List.mem_cons_of_mem _ hp)]
              simp only [List.cons.injEq, true_and]
              split <;> rfl

/-! ## Faults of starting a tool -/

/-- An executable tool can be started for every file that has to change. -/
theorem started_of_executable (hf : b.formatter = Formatter.ofResult f) (hmode : b.mode = .preview)
    (htools : ∀ c, b.settings.comparer = some c →
      ∃ tool, b.host.tools.find? c.program = some (.executable tool))
    {r : FileResult} (hresult : ((b.processFile path).run t storage).result = .finished r)
    (p : Path) (e : IoError) : r ≠ .error (.preview p (.notStarted e)) := by
  rintro rfl
  rw [process_file_run hf] at hresult
  cases hverdict : t.verdict f path with
  | crash => simp [hverdict] at hresult
  | fits => simp [hverdict] at hresult
  | fault fault =>
      rcases Tree.verdict_fault_cases hverdict with ⟨e, rfl⟩ | ⟨message, rfl⟩ <;>
        simp [hverdict] at hresult
  | change content =>
      cases hcomparer : b.settings.comparer with
      | none => simp [hverdict, treat_without_comparer hmode hcomparer] at hresult
      | some c =>
          obtain ⟨tool, htool⟩ := htools c hcomparer
          obtain ⟨data, hread⟩ := Tree.read_of_change (Tree.verdict_change_iff.1 hverdict)
          have hlaunch : b.host.tools.launch (b.comparison c path) = .ok tool :=
            Comparer.launch_comparison htool (Tree.no_nul_of_read hread) b.settings.color
          have hnot : ∀ e, Handover.result b.host (b.comparison c path) t content.bytes ≠
              .error (.notStarted e) := by
            intro e
            unfold Handover.result
            cases b.host.pipeFault with
            | some e => simp
            | none =>
                simp only [hlaunch, PreviewFault.ofExit]
                split
                · split <;> simp
                · simp
          simp only [hverdict, treat_preview_run hmode hcomparer, Completion.finished.injEq]
            at hresult
          unfold previewResult at hresult
          split at hresult
          · cases hresult
          · rename_i reason hreason
            cases hresult
            exact hnot e hreason

/-- With a tool that is executable, or none, no file of a run comes to the fault that the tool
cannot be started. -/
theorem all_started_of_executable (hf : b.formatter = Formatter.ofResult f)
    (hmode : b.mode = .preview)
    (htools : ∀ c, b.settings.comparer = some c →
      ∃ tool, b.host.tools.find? c.program = some (.executable tool))
    {results : List (Path × FileResult)}
    (hrun : ((b.processAll paths).run t storage).result = .finished (.ok results)) :
    ∀ item ∈ results, ∀ p e, item.2 ≠ .error (.preview p (.notStarted e)) := by
  induction paths generalizing t results with
  | nil =>
      cases hrun
      exact fun _ hitem => nomatch hitem
  | cons path rest ih =>
      obtain ⟨r, others, hfile, -, hothers, rfl⟩ := process_all_cons_of_finished hrun
      exact List.forall_mem_cons.2 ⟨started_of_executable hf hmode htools hfile, ih hothers⟩

/-! ## Other tools -/

/-- The tool that a run starts for a file is the one of the batch, and the file has to change. -/
theorem process_file_starts (hf : b.formatter = Formatter.ofResult f) (hmode : b.mode = .preview)
    (hcomparer : b.settings.comparer = some c) (path : Path) (t : Tree) (storage : Storage) :
    ∀ r ∈ startRecords ((b.processFile path).run t storage).logs,
      t.change? f path ≠ none ∧ r = Handover.runningRecord (b.comparison c path) := by
  rw [process_file_run hf]
  cases hverdict : t.verdict f path with
  | crash => exact fun _ hr => nomatch hr
  | fault fault => exact fun _ hr => nomatch hr
  | fits => exact fun _ hr => nomatch hr
  | change content =>
      simp only [treat_preview_run hmode hcomparer, Handover.records]
      intro r hr
      refine ⟨by simp [Tree.verdict_change_iff.1 hverdict], ?_⟩
      obtain ⟨hr, harea⟩ := List.mem_filter.1 hr
      rcases List.mem_cons.1 hr with rfl | hr
      · simp [diffingRecord] at harea
      rcases List.mem_cons.1 hr with rfl | hr
      · simp [showingRecord] at harea
      split at hr
      · cases hr
      · exact List.mem_singleton.1 hr

/-- All starts of a run are those of the tool of the batch, for files of the run that have to
change. -/
theorem process_all_starts (hf : b.formatter = Formatter.ofResult f) (hmode : b.mode = .preview)
    (hcomparer : b.settings.comparer = some c) (paths : List Path) (t : Tree) (storage : Storage) :
    ∀ r ∈ startRecords ((b.processAll paths).run t storage).logs,
      ∃ path ∈ paths, t.change? f path ≠ none ∧
        r = Handover.runningRecord (b.comparison c path) := by
  induction paths with
  | nil => exact fun _ hr => nomatch hr
  | cons path rest ih =>
      have hhere := process_file_starts hf hmode hcomparer path t storage
      have htree : ((b.processFile path).run t storage).tree = t :=
        process_file_keeps_tree hmode (hf ▸ Formatter.of_result_keeps_tree f) path t storage
      have hfirst := first_file b path rest t storage
      generalize (b.processAll (path :: rest)).run t storage = whole at hfirst
      cases hfirst with
      | crash => exact fun r hr => ⟨path, List.mem_cons_self, hhere r hr⟩
      | fatal => exact fun r hr => ⟨path, List.mem_cons_self, hhere r hr⟩
      | goesOn =>
          intro r hr
          simp only [htree, start_records_append, start_records_fault, List.nil_append,
            List.mem_append] at hr
          rcases hr with hr | hr
          · exact ⟨path, List.mem_cons_self, hhere r hr⟩
          · obtain ⟨p, hp, h⟩ := ih r hr
            exact ⟨p, List.mem_cons_of_mem _ hp, h⟩

/-- What a run does with its tool does not depend on what else is installed. -/
theorem process_all_other_host {host : Host} (hcomparer : b.settings.comparer = some c)
    (hpipe : host.pipeFault = b.host.pipeFault)
    (htool : host.tools.find? c.program = b.host.tools.find? c.program) (paths : List Path) :
    Batch.processAll { b with host := host } paths = b.processAll paths := by
  have hperform : ∀ path content,
      Handover.perform host (c.comparison b.settings.color path Handover.contentPath) content =
        Handover.perform b.host (c.comparison b.settings.color path Handover.contentPath)
          content := by
    intro path content
    have hlaunch : host.tools.launch (c.comparison b.settings.color path Handover.contentPath) =
        b.host.tools.launch (c.comparison b.settings.color path Handover.contentPath) := by
      have hprogram : (c.comparison b.settings.color path Handover.contentPath).program =
          c.program := rfl
      unfold Toolset.launch
      rw [hprogram, htool]
    unfold Handover.perform
    rw [hpipe, hlaunch]
  have htreat : ∀ path content,
      Batch.treat { b with host := host } path content = b.treat path content := by
    intro path content
    unfold treat preview
    simp only [hcomparer, hperform]
  have hfile : ∀ path, Batch.processFile { b with host := host } path = b.processFile path := by
    intro path
    unfold processFile
    simp only [htreat]
  induction paths with
  | nil => rfl
  | cons path rest ih => simp only [processAll, hfile, ih]

end Batch

/-! ## Runs that show changes -/

namespace Program

open Batch

variable {f : Text → FormatResult} {host : Host} {color : Bool} {paths : List Path} {t : Tree}
  {storage : Storage}

/-- Find the tools, settle which one shows changes, and show those of the files. -/
def showChanges (f : Text → FormatResult) (host : Host) (choice : ComparerChoice) (color : Bool)
    (paths : List Path) : Action (Except Fault Report) := do
  let available ← Availability.probe host.tools
  let settings ← PreviewSettings.settle choice available color
  Batch.process ⟨Formatter.ofResult f, .preview, settings, host⟩ paths

/-- The batch of such a run. -/
def showingBatch (f : Text → FormatResult) (host : Host) (choice : ComparerChoice) (color : Bool) :
    Batch :=
  ⟨Formatter.ofResult f, .preview, ⟨choice.settle (Availability.found host.tools), color⟩, host⟩

/-- A run that shows changes is the run over its files with the tool that is settled, after records
that are no starts of a tool. -/
theorem show_changes_run (f : Text → FormatResult) (host : Host) (choice : ComparerChoice)
    (color : Bool) (paths : List Path) (t : Tree) (storage : Storage) :
    ∃ logs, startRecords logs = [] ∧ (showChanges f host choice color paths).run t storage =
      ⟨reported (((showingBatch f host choice color).processAll paths).run t storage).result,
        (((showingBatch f host choice color).processAll paths).run t storage).tree,
        logs ++ (((showingBatch f host choice color).processAll paths).run t storage).logs,
        (((showingBatch f host choice color).processAll paths).run t storage).output⟩ := by
  obtain ⟨logs, hprobe, hareas⟩ := Availability.probe_run host.tools
  refine ⟨logs ++ [⟨.debug, .settings, "Resolved differ ".toList ++ choice.toText ++ " to ".toList
    ++ ComparerChoice.settledText (choice.settle (Availability.found host.tools))⟩], ?_, ?_⟩
  · refine start_records_eq_nil fun r hr => ?_
    rcases List.mem_append.1 hr with hr | hr
    · rw [hareas r hr]
      exact fun h => nomatch h
    · obtain rfl := List.mem_singleton.1 hr
      exact fun h => nomatch h
  · unfold showChanges PreviewSettings.settle
    simp only [run_bind, hprobe, run_log, run_pure, process_run, List.append_nil, List.nil_append,
      List.append_assoc]
    rfl

/-- A run that shows changes, with an executable tool: the tool is started for every file that has
to change, in order, and prints what it prints for that file; the run ends with a result for every
file, which is how the tool exits if the file has to change. A file that stops the formatter ends
all this. -/
structure ShownBy (c : Comparer) (color : Bool) (tool : ToolBehavior) (f : Text → FormatResult)
    (t : Tree) (paths : List Path) (run : Effect (Except Fault Report)) : Prop where
  printed : run.output = (reached f t paths).flatMap (usePrinted c color tool f t)
  started : startRecords run.logs = (reached f t paths).flatMap (useStart c color f t)
  result : run.result =
    if reached f t paths = paths then
      .finished (.ok ⟨paths.map fun path => (path, useResult c color tool f t path)⟩)
    else .crashed

/-- A run that shows changes, without a tool: none is started, and the run ends with the fault that
there is none if a file that has to change is reached. -/
structure ShownByNone (f : Text → FormatResult) (t : Tree) (paths : List Path)
    (run : Effect (Except Fault Report)) : Prop where
  printed : run.output = []
  started : startRecords run.logs = []
  fatal : (∃ path ∈ reached f t paths, t.change? f path ≠ none) →
    run.result = .finished (.error .noComparer)
  others : (∀ path ∈ reached f t paths, t.change? f path = none) → run.result =
    if reached f t paths = paths then
      .finished (.ok ⟨paths.map fun path => (path, unusedResult f t path)⟩)
    else .crashed

/-- A tool that is settled and executable shows the changes. -/
theorem shown_by_of_settle {choice : ComparerChoice} {c : Comparer} {tool : ToolBehavior}
    (hpipe : host.pipeFault = none)
    (hsettle : choice.settle (Availability.found host.tools) = some c)
    (htool : host.tools.find? c.program = some (.executable tool)) :
    ShownBy c color tool f t paths ((showChanges f host choice color paths).run t storage) := by
  obtain ⟨logs, hlogs, hrun⟩ := show_changes_run f host choice color paths t storage
  obtain ⟨houtput, hstarts, hresult⟩ :=
    process_all_used (b := showingBatch f host choice color) rfl rfl hsettle hpipe htool paths t
      storage
  rw [hrun]
  refine ⟨houtput, ?_, ?_⟩
  · rw [start_records_append, hlogs, hstarts]
    rfl
  · simp only [hresult]
    split <;> rfl

/-- Without a settled tool nothing is shown. -/
theorem shown_by_none_of_settle {choice : ComparerChoice}
    (hsettle : choice.settle (Availability.found host.tools) = none) :
    ShownByNone f t paths ((showChanges f host choice color paths).run t storage) := by
  obtain ⟨logs, hlogs, hrun⟩ := show_changes_run f host choice color paths t storage
  obtain ⟨houtput, hstarts, hfatal, hothers⟩ :=
    process_all_unused (b := showingBatch f host choice color) rfl rfl hsettle paths t storage
  rw [hrun]
  refine ⟨houtput, ?_, fun h => ?_, fun h => ?_⟩
  · rw [start_records_append, hlogs, hstarts]
    rfl
  · simp only [hfatal h]
    rfl
  · simp only [hothers h]
    split <;> rfl

/-- How the program ends after showing changes. -/
def endingOf : Completion (Except Fault Report) → Ending
  | .finished (.ok report) => .exit (if report.isClean then 0 else 1)
  | .finished (.error _) => .exit 1
  | .crashed => .crash

/-- A dry run of the program is a run that shows changes, and ends as that run does. -/
theorem run_of_dry_run {start : Start} {o : Options}
    (hread : Arguments.read start.arguments = .run o) (hdry : o.dryRun = true) :
    (run start storage).output =
        ((showChanges Query.format start.host o.choice start.terminal o.paths).run
          start.tree storage).output ∧
      (run start storage).ending = endingOf
        ((showChanges Query.format start.host o.choice start.terminal o.paths).run
          start.tree storage).result := by
  obtain ⟨dryRun, choice, verbose, paths⟩ := o
  obtain rfl : dryRun = true := hdry
  obtain ⟨logs, hwork, -⟩ := work_run_batch start.host start.terminal true choice
  obtain ⟨logs', -, hshow⟩ :=
    show_changes_run Query.format start.host choice start.terminal paths start.tree storage
  have hbatch : batchOf start.host start.terminal true choice =
      showingBatch Query.format start.host choice start.terminal := rfl
  rw [hbatch] at hwork
  simp only [run, hread, hwork, hshow, finish, run_bind, process_run]
  cases ((showingBatch Query.format start.host choice start.terminal).processAll paths).run
    start.tree storage with
  | mk result u logs output =>
      cases result with
      | crashed => exact ⟨rfl, rfl⟩
      | finished value => cases value <;> simp [reported, ending, endingOf, run_bind]

/-- Only a text that stops the formatter keeps a run from reaching a file. -/
theorem text_of_not_reached (h : reached f t paths ≠ paths) :
    ∃ path ∈ paths, ∃ text, t.text? path = some text ∧ f text = .crash := by
  by_cases hcrash : ∃ path ∈ paths, t.verdict f path = .crash
  · obtain ⟨path, hpath, hverdict⟩ := hcrash
    exact ⟨path, hpath, Tree.text_of_verdict_crash hverdict⟩
  · exact absurd (reached_eq_self fun path hpath hverdict => hcrash ⟨path, hpath, hverdict⟩) h

/-- The tool that shows changes is one that is there. In a run that chooses the tool itself no file
comes to the fault that it cannot be started. The version control system shows the changes if it is
executable, succeeds when it is asked for its version, and reports at least 2.42; the plain tool
does if it is executable and the version control system cannot; and if neither can, the run ends
with the fault that there is no tool as soon as a file has to change. A tool that is named is the
only one that is started for a file, and what else is installed makes no difference. All this is so
for every file before the first one that stops the formatter. A dry run of the program is such a
run. -/
theorem tool_that_is_there_is_used (f : Text → FormatResult) (host : Host) (color : Bool)
    (paths : List Path) (t : Tree) (storage : Storage) :
    let run := fun choice => (showChanges f host choice color paths).run t storage
    (∀ report, (run .auto).result = .finished (.ok report) →
      ∀ item ∈ report.results, ∀ p e, item.2 ≠ .error (.preview p (.notStarted e))) ∧
    (∀ tool, host.pipeFault = none → host.tools.GitShows tool →
      ShownBy .git color tool f t paths (run .auto)) ∧
    (∀ tool, host.pipeFault = none → (∀ other, ¬host.tools.GitShows other) →
      host.tools.diff = some (.executable tool) →
        ShownBy .diff color tool f t paths (run .auto)) ∧
    ((∀ other, ¬host.tools.GitShows other) → (∀ tool, host.tools.diff ≠ some (.executable tool)) →
      ShownByNone f t paths (run .auto)) ∧
    (∀ c, (∀ r ∈ startRecords (run (.named c)).logs, ∃ path ∈ paths,
        r = Handover.runningRecord (c.comparison color path Handover.contentPath)) ∧
      ∀ host' : Host, host'.pipeFault = host.pipeFault →
        host'.tools.find? c.program = host.tools.find? c.program →
          let other := (showChanges f host' (.named c) color paths).run t storage
          other.result = (run (.named c)).result ∧ other.output = (run (.named c)).output ∧
            startRecords other.logs = startRecords (run (.named c)).logs) ∧
    (reached f t paths ≠ paths →
      ∃ path ∈ paths, ∃ text, t.text? path = some text ∧ f text = .crash) ∧
    (∀ (start : Start) (o : Options), Arguments.read start.arguments = .run o → o.dryRun = true →
      let shown :=
        (showChanges Query.format start.host o.choice start.terminal o.paths).run start.tree storage
      (Program.run start storage).output = shown.output ∧
        (Program.run start storage).ending = endingOf shown.result) := by
  intro run
  refine ⟨fun report hreport => ?_, fun tool hpipe htool => ?_, fun tool hpipe hgit htool => ?_,
    fun hgit hdiff => shown_by_none_of_settle (ComparerChoice.settle_auto_none hgit hdiff),
    fun c => ⟨fun r hr => ?_, fun host' hpipe htool => ?_⟩, text_of_not_reached,
    fun start o hread hdry => run_of_dry_run hread hdry⟩
  · obtain ⟨logs, -, hrun⟩ := show_changes_run f host .auto color paths t storage
    simp only [run, hrun, reported_ok_iff] at hreport
    exact all_started_of_executable (b := showingBatch f host .auto color) rfl rfl
      (fun c hc => ComparerChoice.executable_of_settle_auto hc) hreport
  · refine shown_by_of_settle hpipe (ComparerChoice.settle_auto_git htool) ?_
    rw [Comparer.program, Toolset.find_git, htool.1]
  · refine shown_by_of_settle hpipe (ComparerChoice.settle_auto_diff hgit htool) ?_
    rw [Comparer.program, Toolset.find_diff, htool]
  · obtain ⟨logs, hlogs, hrun⟩ := show_changes_run f host (.named c) color paths t storage
    simp only [run, hrun, start_records_append, hlogs, List.nil_append] at hr
    obtain ⟨path, hpath, -, hrecord⟩ := process_all_starts
      (b := showingBatch f host (.named c) color) rfl rfl (ComparerChoice.settle_named _ c) paths t
      storage r hr
    exact ⟨path, hpath, hrecord⟩
  · obtain ⟨logs, hlogs, hrun⟩ := show_changes_run f host (.named c) color paths t storage
    obtain ⟨logs', hlogs', hrun'⟩ := show_changes_run f host' (.named c) color paths t storage
    have hsettle : showingBatch f host' (.named c) color =
        { showingBatch f host (.named c) color with host := host' } := by
      simp only [showingBatch, ComparerChoice.settle_named]
    have hsame := process_all_other_host (b := showingBatch f host (.named c) color)
      (ComparerChoice.settle_named _ c) hpipe htool paths
    simp only [run, hrun, hrun', hsettle, hsame, start_records_append, hlogs, hlogs', and_self]

/-- A file that has to change, shown by the version control system of version 2.42, by the plain
tool where the other one is of version 2.5, and by none where the plain one is a directory. The
version control system is used if it is named, however old it is. -/
theorem file_is_shown_by_what_is_there :
    let tool : String → ToolBehavior := fun version =>
      .echoing (Utf8.encode version.toList) (.code 0) (.code 1)
    let recent : Host :=
      ⟨⟨some .plainFile, some (.executable (tool "git version 2.42.0\n"))⟩, none⟩
    let old : Host :=
      ⟨⟨some (.executable (tool "")), some (.executable (tool "git version 2.5\n"))⟩, none⟩
    let missing : Host :=
      ⟨⟨some .directory, some (.executable (tool "git version 2.5\n"))⟩, none⟩
    let q := Utf8.encode ['q']
    let t : Tree := ⟨[([q], .file (Utf8.encode "x  +  y".toList))]⟩
    let start : Start := ⟨[Utf8.encode "--dry-run".toList, q], none, t, recent, false⟩
    let shown := fun host choice => (showChanges Query.format host choice false [q]).run t
    recent.tools.GitShows (tool "git version 2.42.0\n") ∧
      (shown recent .auto).output = Utf8.encode
        "[git]\ndiff\n--word-diff\nq\n/dev/fd/3\n[formatted]\nx + y\n[end]\n".toList ∧
      (∀ report, (shown recent .auto).result = .finished (.ok report) →
        ∀ item ∈ report.results, ∀ p e, item.2 ≠ .error (.preview p (.notStarted e))) ∧
      (Program.run start).output = (shown recent .auto).output ∧
      (∀ other, ¬old.tools.GitShows other) ∧
      (shown old .auto).output = Utf8.encode
        "[diff]\n--unified=10\nq\n/dev/fd/3\n[formatted]\nx + y\n[end]\n".toList ∧
      (shown missing .auto).result = .finished (.error .noComparer) ∧
      (shown missing (.named .git)).output = (shown old (.named .git)).output ∧
      ∀ r ∈ startRecords (shown old (.named .git)).logs, ∃ path ∈ [q],
        r = Handover.runningRecord (Comparer.git.comparison false path Handover.contentPath) := by
  intro tool recent old missing q t start shown
  have hrecent := tool_that_is_there_is_used Query.format recent false [q] t .roomy
  have hold := tool_that_is_there_is_used Query.format old false [q] t .roomy
  have hmissing := tool_that_is_there_is_used Query.format missing false [q] t .roomy
  have hgit : recent.tools.GitShows (tool "git version 2.42.0\n") :=
    ⟨rfl, rfl, ⟨2, 42⟩, by decide +kernel, .inr ⟨rfl, Nat.le_refl _⟩⟩
  have hnot : ∀ other, ¬old.tools.GitShows other := by
    have hfound : (Availability.found old.tools).git = false := by decide +kernel
    intro other h
    rw [Availability.found_git_iff.2 ⟨other, h⟩] at hfound
    cases hfound
  have hnot' : ∀ other, ¬missing.tools.GitShows other := hnot
  have hread : Arguments.read start.arguments = .run ⟨true, .auto, false, [q]⟩ := by decide +kernel
  refine ⟨hgit, ?_, hrecent.1, ?_, hnot, ?_, ?_, ?_, (hold.2.2.2.2.1 .git).1⟩
  · rw [(hrecent.2.1 _ rfl hgit).printed]
    decide +kernel
  · exact (hrecent.2.2.2.2.2.2 start _ hread rfl).1
  · rw [(hold.2.2.1 (tool "") rfl hnot rfl).printed]
    decide +kernel
  · refine (hmissing.2.2.2.1 hnot' fun tool h => ?_).fatal ⟨q, ?_, ?_⟩
    · cases h
    · decide +kernel
    · decide +kernel
  · exact ((hold.2.2.2.2.1 .git).2 missing rfl rfl).2.1

/-- A file that stops the formatter keeps the tool from a file after it that has to change. -/
theorem long_range_keeps_tool_from_later_file :
    let tool : ToolBehavior :=
      .echoing (Utf8.encode "git version 2.42.0\n".toList) (.code 0) (.code 0)
    let host : Host := ⟨⟨none, some (.executable tool)⟩, none⟩
    let a := Utf8.encode ['a']
    let b := Utf8.encode ['b']
    let t : Tree := ⟨[([a], .file (Utf8.encode "foo[1e30]".toList)),
      ([b], .file (Utf8.encode "x  +  y".toList))]⟩
    let run := (showChanges Query.format host .auto false [a, b]).run t
    host.tools.GitShows tool ∧ t.change? Query.format b ≠ none ∧
      (run.result matches .crashed) = true ∧ run.output = [] ∧ startRecords run.logs = [] := by
  intro tool host a b t run
  have hgit : host.tools.GitShows tool :=
    ⟨rfl, rfl, ⟨2, 42⟩, by decide +kernel, .inr ⟨rfl, Nat.le_refl _⟩⟩
  exact ⟨hgit, by decide +kernel, by decide +kernel, by decide +kernel, by decide +kernel⟩

end Program

end QueryTidy
