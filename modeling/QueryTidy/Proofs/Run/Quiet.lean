import QueryTidy.Program

/-!
# Quiet actions

Everything that comes before the first file of a run is quiet (`Action.Quiet`): it finishes, does
not depend on the files and leaves them alone, prints nothing and logs for debugging only, which is
not shown unless it is asked for (`Program.log_text_quiet`). So a run of the program is one over its
files (`Program.work_run`).
-/

namespace QueryTidy

namespace Action

/-- The action leaves the files as they are, prints nothing and finishes with the same value and the
same records whatever the files are; what it logs is for debugging only. -/
def Quiet {α : Type} (action : Action α) : Prop :=
  ∃ a logs, (∀ t storage, action.run t storage = ⟨.finished a, t, logs, []⟩) ∧
    ∀ r ∈ logs, r.level = .debug

variable {α β : Type}

/-- Yielding a value is quiet. -/
theorem quiet_pure (a : α) : (pure a : Action α).Quiet :=
  ⟨a, [], fun _ _ => rfl, fun _ hr => nomatch hr⟩

/-- Logging for debugging is quiet. -/
theorem quiet_log (area : LogArea) (text : Text) : (log .debug area text).Quiet :=
  ⟨(), _, fun _ _ => rfl, fun r hr => by
    obtain rfl : r = ⟨.debug, area, text⟩ := List.mem_singleton.1 hr
    rfl⟩

/-- After a quiet action the next one starts from the same files and its output is the only one. -/
theorem Quiet.run_bind {first : Action α} (hfirst : first.Quiet) {a : α} {u : Tree}
    (ha : (first.run u).result = .finished a) :
    ∃ logs, (∀ {β : Type} (next : α → Action β) (t : Tree) (storage : Storage),
      (first >>= next).run t storage =
        ⟨((next a).run t storage).result, ((next a).run t storage).tree,
          logs ++ ((next a).run t storage).logs, ((next a).run t storage).output⟩) ∧
      ∀ r ∈ logs, r.level = .debug := by
  obtain ⟨a', logs, hrun, hlogs⟩ := hfirst
  obtain rfl : a' = a := by
    rw [hrun] at ha
    cases ha
    rfl
  refine ⟨logs, fun next t storage => ?_, hlogs⟩
  rw [run_bind_finished (by rw [hrun]), hrun]
  rfl

/-- Two quiet actions one after the other are quiet. -/
theorem Quiet.bind {first : Action α} {next : α → Action β} (hfirst : first.Quiet)
    (hnext : ∀ a, (next a).Quiet) : (first >>= next).Quiet := by
  obtain ⟨a, ha⟩ : ∃ a, (first.run ⟨[]⟩).result = .finished a := by
    obtain ⟨a, _, hrun, _⟩ := hfirst
    exact ⟨a, by rw [hrun]⟩
  obtain ⟨logs, hrun, hlogs⟩ := hfirst.run_bind ha
  obtain ⟨c, logs', hrun', hlogs'⟩ := hnext a
  refine ⟨c, logs ++ logs', fun t storage => ?_, fun r hr => ?_⟩
  · rw [hrun, hrun']
  · rcases List.mem_append.1 hr with hr | hr
    · exact hlogs r hr
    · exact hlogs' r hr

end Action

open QueryTidy.Action

/-- Looking for the tools is quiet. -/
theorem Availability.probe_quiet (tools : Toolset) : (Availability.probe tools).Quiet := by
  refine Quiet.bind ?_ fun git => (quiet_log _ _).bind fun _ => quiet_pure _
  unfold Availability.probeGit
  by_cases hgit : tools.has ToolBehavior.gitName
  · simp only [hgit]
    exact (quiet_log _ _).bind fun _ => quiet_pure _
  · simp only [hgit]
    exact quiet_pure _

/-- The tools that are found: the version control system has to be new enough as well. -/
def Availability.found (tools : Toolset) : Availability :=
  ⟨tools.has ToolBehavior.diffName, tools.has ToolBehavior.gitName &&
    (Availability.gitVersion? tools).any (·.atLeast GitVersion.firstUsable)⟩

/-- Looking for the tools yields those that are found, which shows them in color on a terminal. -/
theorem Availability.probe_result (tools : Toolset) (t : Tree) :
    ((Availability.probe tools).run t).result = .finished (Availability.found tools) := by
  unfold Availability.probe Availability.probeGit Availability.found
  by_cases hgit : tools.has ToolBehavior.gitName
  · simp only [hgit]
    rfl
  · simp only [hgit]
    rfl

/-- Settling which tool is used is quiet. -/
theorem PreviewSettings.settle_quiet (choice : ComparerChoice) (available : Availability)
    (color : Bool) : (PreviewSettings.settle choice available color).Quiet :=
  (quiet_log _ _).bind fun _ => quiet_pure _

namespace Program

/-- The filter of a run for which none is given and that asks for no more messages. -/
theorem filter_of_none :
    filterOf false none = (⟨[⟨some "promfmt".toList, 3⟩], []⟩, []) := by
  decide +kernel

/-- Without the option for more messages and without a filter of the environment, records are shown
one after the other. -/
theorem log_text_append (logs logs' : List LogRecord) :
    logText false none (logs ++ logs') = logText false none logs ++ logText false none logs' := by
  simp only [logText, filter_of_none, List.filter_append, List.flatMap_append, List.flatten_nil,
    List.nil_append]

/-- Without the option for more messages and without a filter of the environment, nothing that is
logged for debugging is shown. -/
theorem log_text_quiet {logs : List LogRecord} (h : ∀ r ∈ logs, r.level = .debug) :
    logText false none logs = [] := by
  have hshows : ∀ r ∈ logs, LogFilter.shows ⟨[⟨some "promfmt".toList, 3⟩], []⟩ r = false := by
    intro r hr
    have hlevel := h r hr
    obtain ⟨level, area, text⟩ := r
    obtain rfl : level = .debug := hlevel
    cases area <;> rfl
  have hnone : logs.filter (LogFilter.shows ⟨[⟨some "promfmt".toList, 3⟩], []⟩) = [] :=
    List.filter_eq_nil_iff.2 fun r hr => by rw [hshows r hr]; decide
  simp only [logText, filter_of_none, hnone, List.flatMap_nil, List.flatten_nil, List.append_nil]

/-- What is left of the work when the tools are found and settled. -/
def finish (b : Batch) (paths : List Path) : Action Nat := do
  match ← b.process paths with
  | .ok report => pure (if report.isClean then 0 else 1)
  | .error fault => do
      Action.log .error .program fault.message
      pure 1

/-- The batch of a run: the formatter of queries, and the tool that the choice settles on among
those that are found, which shows them in color on a terminal. -/
def batchOf (host : Host) (terminal dryRun : Bool) (choice : ComparerChoice) : Batch :=
  ⟨Formatter.query, RunMode.ofPreview dryRun,
    ⟨choice.settle (Availability.found host.tools), terminal⟩, host⟩

/-- The work over any files is the work with the batch of the run, after records that are for
debugging only. -/
theorem work_run_batch (host : Host) (terminal dryRun : Bool) (choice : ComparerChoice) :
    let b := batchOf host terminal dryRun choice
    ∃ logs, (∀ verbose paths t storage,
      (work host terminal ⟨dryRun, choice, verbose, paths⟩).run t storage =
        ⟨((finish b paths).run t storage).result, ((finish b paths).run t storage).tree,
          logs ++ ((finish b paths).run t storage).logs,
          ((finish b paths).run t storage).output⟩) ∧
      ∀ r ∈ logs, r.level = .debug := by
  intro b
  obtain ⟨logs, hprobe, hlogs⟩ := (Availability.probe_quiet host.tools).run_bind
    (u := ⟨[]⟩) (Availability.probe_result _ _)
  obtain ⟨logs', hsettle, hlogs'⟩ :=
    (PreviewSettings.settle_quiet choice (Availability.found host.tools) terminal).run_bind
      (u := ⟨[]⟩) (a := ⟨choice.settle (Availability.found host.tools), terminal⟩) rfl
  refine ⟨logs ++ logs', fun verbose paths t storage => ?_, fun r hr => ?_⟩
  · have hwork : work host terminal ⟨dryRun, choice, verbose, paths⟩ =
        (Availability.probe host.tools >>= fun available =>
          PreviewSettings.settle choice available terminal >>= fun settings =>
            finish ⟨Formatter.query, RunMode.ofPreview dryRun, settings, host⟩ paths) := rfl
    rw [hwork, hprobe, hsettle, List.append_assoc]
    rfl
  · rcases List.mem_append.1 hr with hr | hr
    · exact hlogs r hr
    · exact hlogs' r hr

/-- The tools and the settings of a run do not depend on its files: the work over any files is the
work with one batch, after records that are for debugging only. -/
theorem work_run_over (host : Host) (terminal dryRun : Bool) (choice : ComparerChoice) :
    ∃ b : Batch, b.formatter = Formatter.query ∧ b.mode = RunMode.ofPreview dryRun ∧
      ∃ logs, (∀ verbose paths t storage,
        (work host terminal ⟨dryRun, choice, verbose, paths⟩).run t storage =
          ⟨((finish b paths).run t storage).result, ((finish b paths).run t storage).tree,
            logs ++ ((finish b paths).run t storage).logs,
            ((finish b paths).run t storage).output⟩) ∧
        ∀ r ∈ logs, r.level = .debug :=
  ⟨batchOf host terminal dryRun choice, rfl, rfl, work_run_batch host terminal dryRun choice⟩

/-- The work of a run is the work over its files with some settings. -/
theorem work_run (host : Host) (terminal : Bool) (o : Options) (t : Tree) (storage : Storage) :
    ∃ b : Batch, b.formatter = Formatter.query ∧ b.mode = RunMode.ofPreview o.dryRun ∧
      ∃ logs, (work host terminal o).run t storage =
        ⟨((finish b o.paths).run t storage).result, ((finish b o.paths).run t storage).tree,
          logs ++ ((finish b o.paths).run t storage).logs,
          ((finish b o.paths).run t storage).output⟩ ∧
        ∀ r ∈ logs, r.level = .debug := by
  obtain ⟨b, hformatter, hmode, logs, hrun, hlogs⟩ := work_run_over host terminal o.dryRun o.choice
  exact ⟨b, hformatter, hmode, logs, hrun o.verbose o.paths t storage, hlogs⟩

end Program

end QueryTidy
