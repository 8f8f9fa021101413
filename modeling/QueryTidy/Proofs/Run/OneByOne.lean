import QueryTidy.Proofs.CommandLine.Settings
import QueryTidy.Proofs.Run.Concat
import QueryTidy.Proofs.Run.Quiet

/-!
# One run over many files, many runs over one file

A run of the program over a first file and others is the run over the first file and then, on the
tree that it leaves, the run over the others (`Program.run_cons`), unless the first file ends it:
there is no tool to show its changes with, or it stops the program. So a run over many files does
what runs over one file at a time do, up to the first of them that ends early
(`Program.one_run_is_many_runs`).
-/

namespace QueryTidy

open QueryTidy.Action

/-- The beginning of a list up to the first item with the property, that item included. -/
def upTo {α : Type} (p : α → Bool) : List α → List α
  | [] => []
  | a :: rest => if p a then [a] else a :: upTo p rest

/-- Without an item with the property, the beginning is the whole list. -/
theorem up_to_eq_self {α : Type} {p : α → Bool} {l : List α} (h : ∀ a ∈ l, p a = false) :
    upTo p l = l := by
  induction l with
  | nil => rfl
  | cons a rest ih =>
      rw [upTo, h a List.mem_cons_self, ih fun x hx => h x (List.mem_cons_of_mem _ hx)]
      rfl

/-! ## Files that end a run -/

namespace Batch

variable {b : Batch} {f : Text → FormatResult} {path : Path} {t : Tree} {storage : Storage}

/-- What is logged in a run over files does not concern the program as a whole. -/
theorem process_all_records (hf : b.formatter = Formatter.ofResult f) (paths : List Path)
    (t : Tree) (storage : Storage) :
    ∀ r ∈ ((b.processAll paths).run t storage).logs, r.area ≠ .program := by
  induction paths generalizing t with
  | nil => exact fun r hr => absurd hr List.not_mem_nil
  | cons path rest ih =>
      have hhere := process_file_records hf path t storage
      have hfirst := first_file b path rest t storage
      generalize (b.processAll (path :: rest)).run t storage = whole at hfirst
      cases hfirst with
      | crash => exact fun r hr => (hhere r hr).2
      | fatal => exact fun r hr => (hhere r hr).2
      | goesOn result =>
          intro r hr
          simp only [List.mem_append] at hr
          rcases hr with hr | hr | hr
          · exact (hhere r hr).2
          · obtain ⟨fault, -, rfl⟩ := List.mem_map.1 hr
            intro harea
            cases harea
          · exact ih _ r hr

end Batch

/-- Only the want of a tool to show changes with is fatal. -/
theorem Fault.ends_run_iff {fault : Fault} : fault.endsRun = true ↔ fault = .noComparer := by
  cases fault <;> simp [Fault.endsRun]

/-- The worse of two endings. -/
def Ending.worse : Ending → Ending → Ending
  | .exit status, .exit status' => .exit (max status status')
  | _, _ => .crash

/-- After an exit, two runs end with the status 0 if both statuses are 0. -/
theorem Ending.worse_eq_success {status : Nat} {e : Ending} :
    (Ending.exit status).worse e = .exit 0 ↔ status = 0 ∧ e = .exit 0 := by
  cases e with
  | crash => simp [worse]
  | exit status' => simp [worse]

/-- After an exit, two runs crash if the second one does. -/
theorem Ending.worse_eq_crash {status : Nat} {e : Ending} :
    (Ending.exit status).worse e = .crash ↔ e = .crash := by
  cases e <;> simp [worse]

/-- What two runs one after the other leave. -/
def Outcome.andThen (first last : Outcome) : Outcome :=
  ⟨first.ending.worse last.ending, first.output ++ last.output, first.errors ++ last.errors,
    last.tree⟩

namespace Program

variable {b : Batch} {f : Text → FormatResult} {path : Path} {paths rest : List Path} {t : Tree}
  {storage : Storage}

/-- The record of a run that ends because there is no tool to show changes with. -/
def noComparerRecord : LogRecord :=
  ⟨.error, .program, Fault.noComparer.message⟩

/-- The exit status of a run with the given results. -/
def statusOf (results : List (Path × FileResult)) : Nat :=
  if (Report.mk results).isClean then 0 else 1

/-- The exit status for one result. -/
def statusOfResult (r : FileResult) : Nat :=
  if (Report.fault? r).isSome then 1 else 0

/-- The exit status of results is the worst of the statuses for each. -/
theorem status_of_cons (path : Path) (r : FileResult) (results : List (Path × FileResult)) :
    statusOf ((path, r) :: results) = max (statusOfResult r) (statusOf results) := by
  have hclean : ∀ items, statusOf items = if (Report.mk items).faults = [] then 0 else 1 := by
    intro items
    simp only [statusOf, Report.isClean, List.isEmpty_iff]
  cases r with
  | ok treatment =>
      have hfaults : (Report.mk ((path, .ok treatment) :: results)).faults =
          (Report.mk results).faults := rfl
      rw [hclean, hclean, hfaults]
      exact (Nat.zero_max _).symm
  | error fault =>
      have hfaults : (Report.mk ((path, .error fault) :: results)).faults =
          fault :: (Report.mk results).faults := rfl
      have hone : statusOfResult (.error fault) = 1 := rfl
      rw [hclean, hclean, hfaults, hone, if_neg (List.cons_ne_nil _ _)]
      split <;> rfl

/-- What is left of a run, in terms of the run over its files. -/
theorem finish_run (b : Batch) (paths : List Path) (t : Tree) (storage : Storage) :
    (finish b paths).run t storage =
      match ((b.processAll paths).run t storage).result with
      | .crashed =>
          ⟨.crashed, ((b.processAll paths).run t storage).tree,
            ((b.processAll paths).run t storage).logs, ((b.processAll paths).run t storage).output⟩
      | .finished (.ok results) =>
          ⟨.finished (statusOf results), ((b.processAll paths).run t storage).tree,
            ((b.processAll paths).run t storage).logs, ((b.processAll paths).run t storage).output⟩
      | .finished (.error fault) =>
          ⟨.finished 1, ((b.processAll paths).run t storage).tree,
            ((b.processAll paths).run t storage).logs ++ [⟨.error, .program, fault.message⟩],
            ((b.processAll paths).run t storage).output⟩ := by
  unfold finish
  rw [run_bind, Batch.process_run]
  cases ((b.processAll paths).run t storage).result with
  | crashed => rfl
  | finished value => cases value <;> simp [Batch.reported, run_bind, statusOf]

/-- What two parts of a run leave one after the other. -/
def joined (status : Nat) (first : Effect FileResult) (records : List LogRecord)
    (last : Effect Nat) : Effect Nat :=
  ⟨match last.result with
    | .finished status' => .finished (max status status')
    | .crashed => .crashed,
    last.tree, first.logs ++ (records ++ last.logs), first.output ++ last.output⟩

/-- A first file that stops the program is all there is to the run. -/
theorem finish_of_crash (h : ((b.processFile path).run t storage).result = .crashed)
    (rest : List Path) :
    (finish b (path :: rest)).run t storage =
      ⟨.crashed, ((b.processFile path).run t storage).tree,
        ((b.processFile path).run t storage).logs,
        ((b.processFile path).run t storage).output⟩ := by
  rw [finish_run, Batch.process_all_crash h]

/-- A first file with a fatal fault is all there is to the run. -/
theorem finish_of_fatal
    (h : ((b.processFile path).run t storage).result = .finished (.error .noComparer))
    (rest : List Path) :
    (finish b (path :: rest)).run t storage =
      ⟨.finished 1, ((b.processFile path).run t storage).tree,
        ((b.processFile path).run t storage).logs ++ [noComparerRecord],
        ((b.processFile path).run t storage).output⟩ := by
  rw [finish_run, Batch.process_all_fatal h rfl]
  rfl

/-- After a first file with another result, the run goes on with the rest. -/
theorem finish_of_result {r : FileResult}
    (h : ((b.processFile path).run t storage).result = .finished r)
    (hends : Batch.endsRun r = false) (rest : List Path) :
    (finish b (path :: rest)).run t storage =
      joined (statusOfResult r) ((b.processFile path).run t storage) (Batch.faultRecords r)
        ((finish b rest).run ((b.processFile path).run t storage).tree storage) := by
  rw [finish_run, finish_run, Batch.process_all_goes_on h hends]
  cases ((b.processAll rest).run ((b.processFile path).run t storage).tree storage).result with
  | crashed => rfl
  | finished value =>
      cases value with
      | error fault =>
          have hmax : max (statusOfResult r) 1 = 1 := by
            unfold statusOfResult
            split <;> rfl
          simp only [Batch.withResult, joined, hmax, List.append_assoc]
      | ok results => simp only [Batch.withResult, joined, status_of_cons]

/-- A single file with such a result is all there is to the run. -/
theorem finish_single {r : FileResult}
    (h : ((b.processFile path).run t storage).result = .finished r)
    (hends : Batch.endsRun r = false) :
    (finish b [path]).run t storage =
      ⟨.finished (statusOfResult r), ((b.processFile path).run t storage).tree,
        ((b.processFile path).run t storage).logs ++ Batch.faultRecords r,
        ((b.processFile path).run t storage).output⟩ := by
  have hnil : ∀ u, (finish b []).run u storage = ⟨.finished 0, u, [], []⟩ := fun _ => rfl
  simp only [finish_of_result h hends, hnil, joined, Nat.max_zero, List.append_nil]

/-! ## Runs with the same settings -/

/-- The start of a run with the settings over the paths. -/
def startWith (settings : List Setting) (host : Host) (terminal : Bool) (paths : List Path)
    (t : Tree) : Start :=
  ⟨settings.flatMap Setting.words ++ Arguments.separator :: paths, none, t, host, terminal⟩

/-- The starts of runs over one path at a time, each on the tree that the run before it leaves. -/
def separately (settings : List Setting) (host : Host) (terminal : Bool) (storage : Storage) :
    List Path → Tree → List Start
  | [], _ => []
  | path :: rest, t =>
      startWith settings host terminal [path] t ::
        separately settings host terminal storage rest
          (run (startWith settings host terminal [path] t) storage).tree

/-- The run ends because there is no tool to show changes with. -/
def lacksComparer (storage : Storage) (s : Start) : Bool :=
  match Arguments.read s.arguments with
  | .run o => decide (noComparerRecord ∈ ((work s.host s.terminal o).run s.tree storage).logs)
  | _ => false

/-- The run ends early: there is no tool to show changes with, or the program stops. -/
def endsEarly (storage : Storage) (s : Start) : Bool :=
  lacksComparer storage s || decide ((run s storage).ending = .crash)

variable {settings : List Setting} {host : Host}

/-- Runs with the same settings over any files are what is left of them with the same batch. -/
theorem run_start_with (hsettings : (settings.map Setting.name).Nodup) (host : Host)
    (terminal : Bool) :
    ∃ b : Batch, b.formatter = Formatter.query ∧ ∀ paths t storage, paths ≠ [] → [] ∉ paths →
      run (startWith settings host terminal paths t) storage =
        ⟨ending ((finish b paths).run t storage).result, ((finish b paths).run t storage).output,
          logText false none ((finish b paths).run t storage).logs,
          ((finish b paths).run t storage).tree⟩ ∧
      lacksComparer storage (startWith settings host terminal paths t) =
        decide (noComparerRecord ∈ ((finish b paths).run t storage).logs) := by
  obtain ⟨b, hformatter, -, logs, hwork, hlogs⟩ := work_run_over host terminal
    (Setting.options settings []).dryRun (Setting.options settings []).choice
  refine ⟨b, hformatter, fun paths t storage hpaths hempty => ?_⟩
  have hread := Arguments.read_settings hsettings hpaths hempty
  have hrun := hwork false paths t storage
  have hquiet : noComparerRecord ∉ logs := fun hmem => nomatch hlogs _ hmem
  constructor
  · simp only [run, startWith, hread]
    rw [Setting.options] at hrun ⊢
    rw [hrun, log_text_append, log_text_quiet hlogs, List.nil_append]
  · simp only [lacksComparer, startWith, hread]
    rw [Setting.options] at hrun ⊢
    simp only [hrun, List.mem_append, hquiet, false_or]

/-- A run over a first file and others is the run over the first file and, unless that ends early,
the run over the others on the tree that is left. -/
theorem run_cons (hsettings : (settings.map Setting.name).Nodup) (hrest : rest ≠ [])
    (hempty : [] ∉ path :: rest) (host : Host) (terminal : Bool) (t : Tree)
    (storage : Storage) :
    let first := startWith settings host terminal [path] t
    run (startWith settings host terminal (path :: rest) t) storage =
      if endsEarly storage first then run first storage
      else (run first storage).andThen
        (run (startWith settings host terminal rest (run first storage).tree) storage) := by
  intro first
  obtain ⟨b, hformatter, hrun⟩ := run_start_with hsettings host terminal
  have hpath : [] ∉ [path] := by
    intro hmem
    exact hempty (List.mem_cons.2 (.inl (List.mem_singleton.1 hmem)))
  obtain ⟨hfirst, hlacks⟩ := hrun [path] t storage (List.cons_ne_nil _ _) hpath
  obtain ⟨hwhole, -⟩ := hrun (path :: rest) t storage (List.cons_ne_nil _ _) hempty
  have hlast := fun u =>
    (hrun rest u storage hrest fun hmem => hempty (List.mem_cons_of_mem _ hmem)).1
  have hrecords := Batch.process_file_records (hformatter.trans Formatter.query_eq) path t storage
  cases hresult : ((b.processFile path).run t storage).result with
  | crashed =>
      rw [finish_of_crash hresult] at hfirst hwhole
      rw [if_pos (by simp [endsEarly, first, hfirst, ending]), hwhole, hfirst]
  | finished r =>
      cases hends : Batch.endsRun r with
      | true =>
          obtain ⟨fault, rfl, hfatal⟩ := Batch.fault_of_ends_run hends
          obtain rfl := Fault.ends_run_iff.1 hfatal
          rw [finish_of_fatal hresult] at hfirst hwhole hlacks
          rw [if_pos (by simp [endsEarly, first, hlacks]), hwhole, hfirst]
      | false =>
          -- The record of a missing tool is one of the whole program, which no file writes.
          rw [finish_single hresult hends] at hfirst hlacks
          have hrecord : noComparerRecord ∉
              ((b.processFile path).run t storage).logs ++ Batch.faultRecords r := by
            intro hmem
            rcases List.mem_append.1 hmem with hmem | hmem
            · exact (hrecords _ hmem).2 rfl
            · obtain ⟨fault, -, hfault⟩ := List.mem_map.1 hmem
              cases hfault
          have hgoes : endsEarly storage first = false := by
            simp [endsEarly, first, hlacks, hrecord, hfirst, ending]
          rw [hgoes, hwhole, hfirst, finish_of_result hresult hends, hlast, Outcome.andThen, joined]
          simp only [log_text_append, List.append_assoc]
          cases ((finish b rest).run
            ((b.processFile path).run t storage).tree storage).result <;> rfl

/-- A run over one path crashes or ends with a status of at most one; it ends with the status one
where there is no tool to show changes with. -/
theorem run_single (hsettings : (settings.map Setting.name).Nodup) (hpath : path ≠ [])
    (host : Host) (terminal : Bool) (t : Tree) (storage : Storage) :
    let first := startWith settings host terminal [path] t
    ((run first storage).ending = .crash ∨
        ∃ status ≤ 1, (run first storage).ending = .exit status) ∧
      (lacksComparer storage first = true → (run first storage).ending = .exit 1) := by
  intro first
  obtain ⟨b, hformatter, hrun⟩ := run_start_with hsettings host terminal
  obtain ⟨hfirst, hlacks⟩ := hrun [path] t storage (List.cons_ne_nil _ _)
    fun hmem => hpath (List.mem_singleton.1 hmem).symm
  rw [hfirst, hlacks]
  have hrecords := Batch.process_all_records (hformatter.trans Formatter.query_eq) [path] t storage
  rw [finish_run]
  cases ((b.processAll [path]).run t storage).result with
  | crashed => exact ⟨.inl rfl, fun h => absurd rfl (hrecords _ (of_decide_eq_true h))⟩
  | finished value =>
      cases value with
      | error fault => exact ⟨.inr ⟨1, Nat.le_refl 1, rfl⟩, fun _ => rfl⟩
      | ok results =>
          refine ⟨.inr ⟨statusOf results, ?_, rfl⟩,
            fun h => absurd rfl (hrecords _ (of_decide_eq_true h))⟩
          unfold statusOf
          split <;> decide

/-! ## Runs one after the other -/

/-- The outcome is what the runs leave one after the other. -/
structure Leave (storage : Storage) (runs : List Start) (outcome : Outcome) : Prop where
  tree : runs.getLast?.map (fun s => (run s storage).tree) = some outcome.tree
  output : outcome.output = runs.flatMap fun s => (run s storage).output
  errors : outcome.errors = runs.flatMap fun s => (run s storage).errors
  success : outcome.ending = .exit 0 ↔ ∀ s ∈ runs, (run s storage).ending = .exit 0
  crash : outcome.ending = .crash ↔ ∃ s ∈ runs, (run s storage).ending = .crash
  noComparer : (∃ s ∈ runs, lacksComparer storage s = true) → outcome.ending = .exit 1

/-- A single run leaves what it leaves. -/
theorem leave_single {s : Start}
    (h : lacksComparer storage s = true → (run s storage).ending = .exit 1) :
    Leave storage [s] (run s storage) where
  tree := rfl
  output := (List.flatMap_singleton ..).symm
  errors := (List.flatMap_singleton ..).symm
  success := by simp
  crash := by simp
  noComparer := by simpa using h

/-- A run that does not end early comes before others. -/
theorem Leave.cons {s : Start} {runs : List Start} {outcome : Outcome}
    (h : Leave storage runs outcome) (hgoes : endsEarly storage s = false)
    (hstatus : (run s storage).ending = .crash ∨
      ∃ status ≤ 1, (run s storage).ending = .exit status) :
    Leave storage (s :: runs) ((run s storage).andThen outcome) := by
  obtain ⟨hlacks, hcrash⟩ : lacksComparer storage s = false ∧ (run s storage).ending ≠ .crash := by
    simpa [endsEarly] using hgoes
  obtain ⟨status, hle, hending⟩ := hstatus.resolve_left hcrash
  have hworse : ((run s storage).andThen outcome).ending =
      (Ending.exit status).worse outcome.ending := by
    rw [Outcome.andThen, hending]
  constructor
  case tree =>
    obtain ⟨last, hlast, htree⟩ := Option.map_eq_some_iff.1 h.tree
    rw [List.getLast?_cons, hlast, Option.map_some, Option.getD_some, htree]
    rfl
  case output => rw [Outcome.andThen, h.output, List.flatMap_cons]
  case errors => rw [Outcome.andThen, h.errors, List.flatMap_cons]
  case success =>
    rw [hworse, Ending.worse_eq_success, h.success, List.forall_mem_cons, hending,
      Ending.exit.injEq]
  case crash =>
    rw [hworse, Ending.worse_eq_crash, h.crash]
    simp [hcrash]
  case noComparer =>
    intro hlater
    have hone : outcome.ending = .exit 1 := h.noComparer (by simpa [hlacks] using hlater)
    rw [hworse, hone, Ending.worse, Nat.max_eq_right hle]

/-- A run over many files does what runs over one file at a time do, each on the tree that the run
before it leaves, up to the first of them that ends early: it leaves the tree that the last of these
leaves, what it writes to the two streams is what they write, it ends with the status 0 if all of
them do, with the status 1 if one of them lacks a tool to show changes with, and it crashes if one
of them does. Unless one ends early, these are all runs. -/
theorem one_run_is_many_runs (hsettings : (settings.map Setting.name).Nodup) (hpaths : paths ≠ [])
    (hempty : [] ∉ paths) (host : Host) (terminal : Bool) (t : Tree) (storage : Storage) :
    let runs := separately settings host terminal storage paths t
    Leave storage (upTo (endsEarly storage) runs)
        (run (startWith settings host terminal paths t) storage) ∧
      ((∀ s ∈ runs, endsEarly storage s = false) → upTo (endsEarly storage) runs = runs) := by
  refine ⟨?_, up_to_eq_self⟩
  -- On the paths: the runs over the rest start from the tree that the first run leaves.
  induction paths generalizing t with
  | nil => exact absurd rfl hpaths
  | cons path rest ih =>
      have hpath : path ≠ [] := fun h => hempty (List.mem_cons.2 (.inl h.symm))
      obtain ⟨hstatus, hlacks⟩ := run_single hsettings hpath host terminal t storage
      rw [separately, upTo]
      cases rest with
      | nil =>
          simp only [separately, upTo, ite_self]
          exact leave_single hlacks
      | cons next more =>
          rw [run_cons hsettings (List.cons_ne_nil _ _) hempty]
          cases hearly : endsEarly storage (startWith settings host terminal [path] t) with
          | true => exact leave_single hlacks
          | false =>
              refine Leave.cons (ih (List.cons_ne_nil _ _) ?_ _) hearly hstatus
              exact fun hmem => hempty (List.mem_cons_of_mem _ hmem)

/-- A run without any tools over three paths that shows changes ends with the second one, after
which only the runs over the first two count. -/
theorem second_file_lacks_comparer :
    let t : Tree := ⟨[([Utf8.encode ['q']], .file (Utf8.encode "x + y\n".toList)),
      ([Utf8.encode ['r']], .file (Utf8.encode "x  +  y".toList))]⟩
    let host : Host := ⟨⟨none, none⟩, none⟩
    let settings : List Setting := [.dryRun, .choice .auto false]
    let paths := [Utf8.encode ['q'], Utf8.encode ['r'], Utf8.encode ['q']]
    let runs := separately settings host false .roomy paths t
    ((settings.map Setting.name).Nodup ∧ paths ≠ [] ∧ [] ∉ paths) ∧
      Leave .roomy (upTo (endsEarly .roomy) runs) (run (startWith settings host false paths t)) ∧
      (upTo (endsEarly .roomy) runs).length = 2 ∧
      (run (startWith settings host false paths t)).ending = .exit 1 := by
  intro t host settings paths runs
  have hsettings : (settings.map Setting.name).Nodup := by decide
  have hpaths : paths ≠ [] := List.cons_ne_nil _ _
  have hempty : [] ∉ paths := by decide
  exact ⟨⟨hsettings, hpaths, hempty⟩,
    (one_run_is_many_runs hsettings hpaths hempty host false t .roomy).1, by decide +kernel,
    by decide +kernel⟩

/-- A file that stops the program keeps one run from the file after it, but not the run over that
file alone: the trees that are left differ, although no run lacks a tool to show changes with. -/
theorem crash_keeps_later_file_back :
    let t : Tree := ⟨[([Utf8.encode ['q']], .file (Utf8.encode "foo[1e30]".toList)),
      ([Utf8.encode ['r']], .file (Utf8.encode "x  +  y".toList))]⟩
    let host : Host := ⟨⟨none, none⟩, none⟩
    let paths := [Utf8.encode ['q'], Utf8.encode ['r']]
    let runs := separately [] host false .roomy paths t
    (∀ s ∈ runs, lacksComparer .roomy s = false) ∧
      runs.getLast?.map (fun s => (run s).tree) ≠
        some (run (startWith [] host false paths t)).tree := by
  decide +kernel

end Program

end QueryTidy
