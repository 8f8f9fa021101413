import QueryTidy.Proofs.Run.Verdict

/-!
# Runs over parts of a list

A run over a list of files is made of runs over the parts of the list, the second part being treated
on the tree that the first one leaves (`Batch.process_all_append`), unless a file ends the run. It
finishes with results only if the runs over the parts do (`Batch.process_all_split`), and the
results are listed with the paths.
-/

namespace QueryTidy.Batch

open QueryTidy.Action

variable {b : Batch} {f : Text → FormatResult} {t : Tree} {storage : Storage} {path : Path}
  {paths xs ys : List Path} {results : List (Path × FileResult)}

/-- The results of a list of files after those of the files before them. -/
def withResults (front : List (Path × FileResult)) :
    Completion (Except Fault (List (Path × FileResult))) →
      Completion (Except Fault (List (Path × FileResult)))
  | .finished (.ok results) => .finished (.ok (front ++ results))
  | .finished (.error fault) => .finished (.error fault)
  | .crashed => .crashed

/-- Without files before them, results are as they are. -/
@[simp] theorem with_results_nil
    (completion : Completion (Except Fault (List (Path × FileResult)))) :
    withResults [] completion = completion := by
  cases completion with
  | crashed => rfl
  | finished value => cases value <;> rfl

/-- The result of a first file comes before all others. -/
theorem with_results_cons (item : Path × FileResult) (front : List (Path × FileResult))
    (completion : Completion (Except Fault (List (Path × FileResult)))) :
    withResults (item :: front) completion = withResult item (withResults front completion) := by
  cases completion with
  | crashed => rfl
  | finished value => cases value <;> rfl

/-- There are results after those of the files before them if there are results at all. -/
theorem with_results_ok {front : List (Path × FileResult)}
    {completion : Completion (Except Fault (List (Path × FileResult)))}
    (h : withResults front completion = .finished (.ok results)) :
    ∃ back, completion = .finished (.ok back) ∧ results = front ++ back := by
  cases completion with
  | crashed => cases h
  | finished value =>
      cases value with
      | error fault => cases h
      | ok back =>
          cases h
          exact ⟨back, rfl, rfl⟩

/-- The results after the result of one more file are those of the file and of the others. -/
theorem with_result_ok {item : Path × FileResult}
    {completion : Completion (Except Fault (List (Path × FileResult)))}
    (h : withResult item completion = .finished (.ok results)) :
    ∃ others, completion = .finished (.ok others) ∧ results = item :: others := by
  have hfront : withResults [item] completion = .finished (.ok results) := by
    rw [with_results_cons, with_results_nil, h]
  exact with_results_ok hfront

/-- A file that stops the program ends the run. -/
theorem process_all_crash (h : ((b.processFile path).run t storage).result = .crashed)
    (rest : List Path) :
    (b.processAll (path :: rest)).run t storage =
      ⟨.crashed, ((b.processFile path).run t storage).tree,
        ((b.processFile path).run t storage).logs,
        ((b.processFile path).run t storage).output⟩ := by
  simp only [processAll, run_bind, h]

/-- A file with a fatal fault ends the run with the fault. -/
theorem process_all_fatal {fault : Fault}
    (h : ((b.processFile path).run t storage).result = .finished (.error fault))
    (hends : fault.endsRun = true) (rest : List Path) :
    (b.processAll (path :: rest)).run t storage =
      ⟨.finished (.error fault), ((b.processFile path).run t storage).tree,
        ((b.processFile path).run t storage).logs,
        ((b.processFile path).run t storage).output⟩ := by
  simp only [processAll, run_bind, h, hends, ↓reduceIte, run_pure, List.append_nil]

/-- After a file whose result does not end the run, the rest of the files is treated on the tree
that it leaves. -/
theorem process_all_goes_on {r : FileResult}
    (h : ((b.processFile path).run t storage).result = .finished r) (hends : endsRun r = false)
    (rest : List Path) :
    (b.processAll (path :: rest)).run t storage =
      ⟨withResult (path, r)
          ((b.processAll rest).run ((b.processFile path).run t storage).tree storage).result,
        ((b.processAll rest).run ((b.processFile path).run t storage).tree storage).tree,
        ((b.processFile path).run t storage).logs ++ (faultRecords r ++
          ((b.processAll rest).run ((b.processFile path).run t storage).tree storage).logs),
        ((b.processFile path).run t storage).output ++
          ((b.processAll rest).run ((b.processFile path).run t storage).tree storage).output⟩ :=
  process_all_cons (by rw [← h]) hends rest

/-- The tree that is left by a run that goes on after its first file. -/
theorem tree_of_goes_on {r : FileResult}
    (h : ((b.processFile path).run t storage).result = .finished r) (hends : endsRun r = false)
    (rest : List Path) :
    ((b.processAll (path :: rest)).run t storage).tree =
      ((b.processAll rest).run ((b.processFile path).run t storage).tree storage).tree := by
  rw [process_all_goes_on h hends]

/-- A result that ends the run is a fatal fault. -/
theorem fault_of_ends_run {r : FileResult} (h : endsRun r = true) :
    ∃ fault, r = .error fault ∧ fault.endsRun = true := by
  cases r with
  | ok treatment => cases h
  | error fault => exact ⟨fault, rfl, h⟩

/-- Where changes are made, or there is a tool to show them with, a file does not end the run unless
it stops the formatter. -/
theorem process_file_goes_on (hf : b.formatter = Formatter.ofResult f)
    (hequipped : b.mode = .inPlace ∨ b.settings.comparer ≠ none) (h : t.verdict f path ≠ .crash) :
    ∃ r, ((b.processFile path).run t storage).result = .finished r ∧ endsRun r = false := by
  rw [process_file_run hf]
  cases hverdict : t.verdict f path with
  | crash => exact absurd hverdict h
  | fault fault => exact ⟨.error fault, rfl, Tree.verdict_fault_not_fatal hverdict⟩
  | fits => exact ⟨.ok .unchanged, rfl, rfl⟩
  | change content =>
      dsimp only
      cases hmode : b.mode with
      | inPlace =>
          rw [treat_in_place_run hmode]
          cases t.write path content.bytes storage with
          | ok u => exact ⟨.ok .rewritten, rfl, rfl⟩
          | error e =>
              cases e with
              | opening e => exact ⟨.error (.openForWriting path e), rfl, rfl⟩
              | writing e left => exact ⟨.error (.write path e), rfl, rfl⟩
      | preview =>
          have hsome : b.settings.comparer ≠ none :=
            hequipped.resolve_left fun h => nomatch hmode.symm.trans h
          obtain ⟨comparer, hcomparer⟩ := Option.ne_none_iff_exists'.1 hsome
          rw [treat_preview_run hmode hcomparer]
          refine ⟨_, rfl, ?_⟩
          unfold previewResult
          split <;> rfl

/-- What becomes of a run over a first file and others. -/
inductive FirstFile (b : Batch) (path : Path) (rest : List Path) (t : Tree) (storage : Storage) :
    Effect (Except Fault (List (Path × FileResult))) → Prop
  /-- The first file stops the program. -/
  | crash : ((b.processFile path).run t storage).result = .crashed →
      FirstFile b path rest t storage
        ⟨.crashed, ((b.processFile path).run t storage).tree,
          ((b.processFile path).run t storage).logs,
          ((b.processFile path).run t storage).output⟩
  /-- The first file comes to a fault that ends the run. -/
  | fatal (fault : Fault) :
      ((b.processFile path).run t storage).result = .finished (.error fault) →
        fault.endsRun = true → FirstFile b path rest t storage
          ⟨.finished (.error fault), ((b.processFile path).run t storage).tree,
            ((b.processFile path).run t storage).logs,
            ((b.processFile path).run t storage).output⟩
  /-- The others are treated on the tree that the first file leaves. -/
  | goesOn (r : FileResult) :
      ((b.processFile path).run t storage).result = .finished r → endsRun r = false →
        FirstFile b path rest t storage
          ⟨withResult (path, r)
              ((b.processAll rest).run ((b.processFile path).run t storage).tree storage).result,
            ((b.processAll rest).run ((b.processFile path).run t storage).tree storage).tree,
            ((b.processFile path).run t storage).logs ++ (faultRecords r ++
              ((b.processAll rest).run ((b.processFile path).run t storage).tree storage).logs),
            ((b.processFile path).run t storage).output ++
              ((b.processAll rest).run ((b.processFile path).run t storage).tree storage).output⟩

/-- A run over a first file and others is over with the first file, or goes on with the others. -/
theorem first_file (b : Batch) (path : Path) (rest : List Path) (t : Tree) (storage : Storage) :
    FirstFile b path rest t storage ((b.processAll (path :: rest)).run t storage) := by
  cases hresult : ((b.processFile path).run t storage).result with
  | crashed =>
      rw [process_all_crash hresult]
      exact .crash hresult
  | finished r =>
      cases hends : endsRun r with
      | true =>
          obtain ⟨fault, rfl, hfatal⟩ := fault_of_ends_run hends
          rw [process_all_fatal hresult hfatal]
          exact .fatal fault hresult hfatal
      | false =>
          rw [process_all_goes_on hresult hends]
          exact .goesOn r hresult hends

/-- A run that stops the program does so at one of its files. -/
theorem file_of_crash (h : ((b.processAll paths).run t storage).result = .crashed) :
    ∃ path ∈ paths, ∃ u, ((b.processFile path).run u storage).result = .crashed := by
  induction paths generalizing t with
  | nil => cases h
  | cons path rest ih =>
      have hfirst := first_file b path rest t storage
      generalize (b.processAll (path :: rest)).run t storage = whole at h hfirst
      cases hfirst with
      | crash hfile => exact ⟨path, List.mem_cons_self, t, hfile⟩
      | fatal => cases h
      | goesOn r =>
          cases hrest : ((b.processAll rest).run
              ((b.processFile path).run t storage).tree storage).result with
          | crashed =>
              obtain ⟨p, hp, hfile⟩ := ih hrest
              exact ⟨p, List.mem_cons_of_mem _ hp, hfile⟩
          | finished value => cases value <;> simp [hrest, withResult] at h

/-- A run that finishes with results treats its first file without a fault that ends the run. -/
theorem process_file_of_finished {rest : List Path}
    (h : ((b.processAll (path :: rest)).run t storage).result = .finished (.ok results)) :
    ∃ r, ((b.processFile path).run t storage).result = .finished r ∧ endsRun r = false := by
  have hfirst := first_file b path rest t storage
  generalize (b.processAll (path :: rest)).run t storage = whole at h hfirst
  cases hfirst with
  | crash => cases h
  | fatal => cases h
  | goesOn r hfile hends => exact ⟨r, hfile, hends⟩

/-- A run that finishes with results over a first file and others, in terms of the run over the
first file. -/
theorem process_all_cons_of_finished {rest : List Path}
    (h : ((b.processAll (path :: rest)).run t storage).result = .finished (.ok results)) :
    ∃ r others, ((b.processFile path).run t storage).result = .finished r ∧
      endsRun r = false ∧
      ((b.processAll rest).run ((b.processFile path).run t storage).tree storage).result =
        .finished (.ok others) ∧
      results = (path, r) :: others := by
  obtain ⟨r, hfile, hends⟩ := process_file_of_finished h
  have hrun := process_all_goes_on hfile hends rest
  rw [hrun] at h
  obtain ⟨others, hothers, rfl⟩ := with_result_ok h
  exact ⟨r, others, hfile, hends, hothers, rfl⟩

/-- After files without a fault that ends the run, further files are treated on the tree that is
left. -/
theorem process_all_append
    (h : ((b.processAll xs).run t storage).result = .finished (.ok results)) (ys : List Path) :
    (b.processAll (xs ++ ys)).run t storage =
      ⟨withResults results
          ((b.processAll ys).run ((b.processAll xs).run t storage).tree storage).result,
        ((b.processAll ys).run ((b.processAll xs).run t storage).tree storage).tree,
        ((b.processAll xs).run t storage).logs ++
          ((b.processAll ys).run ((b.processAll xs).run t storage).tree storage).logs,
        ((b.processAll xs).run t storage).output ++
          ((b.processAll ys).run ((b.processAll xs).run t storage).tree storage).output⟩ := by
  induction xs generalizing t results with
  | nil =>
      cases h
      simp [process_all_nil]
  | cons path rest ih =>
      obtain ⟨r, others, hfile, hends, hothers, rfl⟩ := process_all_cons_of_finished h
      have hcons := process_all_goes_on hfile hends
      rw [List.cons_append, hcons (rest ++ ys), ih hothers, hcons rest, with_results_cons]
      simp only [List.append_assoc]

/-- A run that finishes with results does so over each part of its list. -/
theorem process_all_split
    (h : ((b.processAll (xs ++ ys)).run t storage).result = .finished (.ok results)) :
    ∃ front back, ((b.processAll xs).run t storage).result = .finished (.ok front) ∧
      ((b.processAll ys).run ((b.processAll xs).run t storage).tree storage).result =
        .finished (.ok back) ∧
      results = front ++ back := by
  induction xs generalizing t results with
  | nil => exact ⟨[], results, rfl, h, rfl⟩
  | cons path rest ih =>
      obtain ⟨r, others, hfile, hends, hothers, rfl⟩ := process_all_cons_of_finished h
      obtain ⟨front, back, hfront, hback, rfl⟩ := ih hothers
      have hrun := process_all_goes_on hfile hends rest
      refine ⟨(path, r) :: front, back, ?_, ?_, rfl⟩
      · rw [hrun, hfront]
        rfl
      · rw [hrun]
        exact hback

/-- The results of a run are listed with its paths. -/
theorem process_all_paths
    (h : ((b.processAll paths).run t storage).result = .finished (.ok results)) :
    results.map Prod.fst = paths := by
  induction paths generalizing t results with
  | nil =>
      cases h
      rfl
  | cons path rest ih =>
      obtain ⟨r, others, -, -, hothers, rfl⟩ := process_all_cons_of_finished h
      rw [List.map_cons, ih hothers]

/-- The report of the results of a run. -/
def reported :
    Completion (Except Fault (List (Path × FileResult))) → Completion (Except Fault Report)
  | .finished (.ok results) => .finished (.ok ⟨results⟩)
  | .finished (.error fault) => .finished (.error fault)
  | .crashed => .crashed

/-- There is a report if there are results, and it lists them. -/
theorem reported_ok_iff {completion : Completion (Except Fault (List (Path × FileResult)))}
    {report : Report} :
    reported completion = .finished (.ok report) ↔ completion = .finished (.ok report.results) := by
  obtain ⟨results⟩ := report
  cases completion with
  | crashed => simp [reported]
  | finished value => cases value <;> simp [reported]

/-- A fault takes the place of the report if it takes the place of the results. -/
theorem reported_error_iff {completion : Completion (Except Fault (List (Path × FileResult)))}
    {fault : Fault} :
    reported completion = .finished (.error fault) ↔ completion = .finished (.error fault) := by
  cases completion with
  | crashed => simp [reported]
  | finished value => cases value <;> simp [reported]

/-- The program stops before the report if it stops before the results. -/
theorem reported_crashed_iff {completion : Completion (Except Fault (List (Path × FileResult)))} :
    reported completion = .crashed ↔ completion = .crashed := by
  cases completion with
  | crashed => simp [reported]
  | finished value => cases value <;> simp [reported]

/-- A batch is the run over its files, and reports its results. -/
theorem process_run (paths : List Path) (t : Tree) :
    (b.process paths).run t storage =
      ⟨reported ((b.processAll paths).run t storage).result,
        ((b.processAll paths).run t storage).tree,
        ((b.processAll paths).run t storage).logs,
        ((b.processAll paths).run t storage).output⟩ := by
  rcases hall : (b.processAll paths).run t storage with ⟨result, u, logs, output⟩
  cases result with
  | crashed => simp [process, run_bind, hall, reported]
  | finished value => cases value <;> simp [process, run_bind, hall, reported]

/-- A batch ends with a report as the run over its files ends with results. -/
theorem process_eq_ok {u : Tree} {logs : List LogRecord} {output : Bytes} :
    (b.process paths).run t storage = ⟨.finished (.ok ⟨results⟩), u, logs, output⟩ ↔
      (b.processAll paths).run t storage = ⟨.finished (.ok results), u, logs, output⟩ := by
  rw [process_run]
  rcases (b.processAll paths).run t storage with ⟨result, v, logs', output'⟩
  simp only [Effect.mk.injEq, reported_ok_iff]

end QueryTidy.Batch
