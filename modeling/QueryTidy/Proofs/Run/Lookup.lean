import QueryTidy.Proofs.Files.Components
import QueryTidy.Proofs.Run.Fatal
import QueryTidy.Proofs.Run.Turns

/-!
# Looking up results

What a report of a run answers (`Batch.Reports`). It has one record for each path, with what came of
it at its turn; the result of a path is the one that was recorded first under a respelling of it,
and the faults are those that were recorded, each with the path at whose turn it came up. That a
fault names its path is a property of the treatment of a file (`Batch.path_of_fault`), whatever the
formatter does.
-/

namespace QueryTidy

open QueryTidy.Action

/-- The path that the fault names. -/
def Fault.path? : Fault → Option Path
  | .read path _ | .parse path _ | .openForWriting path _ | .write path _ | .preview path _ =>
      some path
  | .noComparer => none

namespace Batch

variable {b : Batch} {t : Tree} {storage : Storage} {path : Path} {paths : List Path}
  {fault : Fault} {results : List (Path × FileResult)}

/-! ## Faults and their paths -/

/-- A fault of a file that has to change names its path, or there is no tool to show changes with,
which ends the run. -/
theorem path_of_treat_fault {content : Content}
    (h : ((b.treat path content).run t storage).result = .finished (.error fault)) :
    fault.path? = some path ∨ fault.endsRun = true := by
  cases hmode : b.mode with
  | inPlace =>
      rw [treat_in_place_run hmode] at h
      split at h
      · cases h
      · cases h
        exact .inl rfl
      · cases h
        exact .inl rfl
  | preview =>
      cases hcomparer : b.settings.comparer with
      | none =>
          rw [treat_without_comparer hmode hcomparer] at h
          cases h
          exact .inr rfl
      | some comparer =>
          rw [treat_preview_run hmode hcomparer] at h
          have hresult := Completion.finished.inj h
          unfold previewResult at hresult
          split at hresult
          · cases hresult
          · cases hresult
            exact .inl rfl

/-- A fault names the path of the file whose treatment it ended, unless it ends the run. -/
theorem path_of_fault (h : ((b.processFile path).run t storage).result = .finished (.error fault))
    (hgoes : fault.endsRun = false) : fault.path? = some path := by
  cases htext : t.text? path with
  | none =>
      obtain ⟨unread, hunread, hrun⟩ := process_file_no_text (b := b) htext
      rw [hrun] at h
      cases h
      rcases hunread with ⟨e, rfl⟩ | ⟨message, rfl⟩
      · rfl
      · rfl
  | some text =>
      have hcases := process_file_asked b storage htext
      generalize (b.processFile path).run t storage = effect at h hcases
      cases hcases with
      | crash => cases h
      | refused =>
          cases h
          rfl
      | fits => cases h
      | @treated shown _ _ hshown =>
          rcases path_of_treat_fault h with hpath | hends
          · exact hpath
          · rw [hgoes] at hends
            cases hends

/-- The treatment of a file stops the program only if the formatter does. -/
theorem formatter_of_file_crash (h : ((b.processFile path).run t storage).result = .crashed) :
    ∃ text, ((b.formatter text).run t storage).result = .crashed := by
  cases htext : t.text? path with
  | none =>
      obtain ⟨fault, -, hrun⟩ := process_file_no_text (b := b) htext
      rw [hrun] at h
      cases h
  | some text =>
      have hcases := process_file_asked b storage htext
      generalize (b.processFile path).run t storage = effect at h hcases
      cases hcases with
      | crash hasked => exact ⟨text, hasked⟩
      | refused => cases h
      | fits => cases h
      | treated => exact absurd h (treat_finishes _ _ _ _)

/-! ## Runs -/

/-- A run stops only if the formatter does. -/
theorem formatter_of_crash (h : ((b.processAll paths).run t storage).result = .crashed) :
    ∃ text u, ((b.formatter text).run u storage).result = .crashed := by
  obtain ⟨path, -, u, hfile⟩ := file_of_crash h
  obtain ⟨text, htext⟩ := formatter_of_file_crash hfile
  exact ⟨text, u, htext⟩

/-- A run ends with a fault only if that ends runs. -/
theorem ends_run_of_error
    (h : ((b.processAll paths).run t storage).result = .finished (.error fault)) :
    fault.endsRun = true := by
  induction paths generalizing t with
  | nil => cases h
  | cons path rest ih =>
      have hfirst := first_file b path rest t storage
      generalize (b.processAll (path :: rest)).run t storage = whole at h hfirst
      cases hfirst with
      | crash => cases h
      | fatal fatal _ hends =>
          cases h
          exact hends
      | goesOn r =>
          cases hrest : ((b.processAll rest).run
              ((b.processFile path).run t storage).tree storage).result with
          | crashed => simp [hrest, withResult] at h
          | finished value =>
              cases value with
              | ok others => simp [hrest, withResult] at h
              | error last =>
                  rw [hrest] at h
                  cases h
                  exact ih hrest

/-- Each result of a run is that of the file at its turn, in the tree that the files before it
left. -/
theorem result_at_turn {front back : List Path}
    (h : ((b.processAll (front ++ path :: back)).run t storage).result = .finished (.ok results)) :
    ∃ before r after, results = before ++ (path, r) :: after ∧ before.map Prod.fst = front ∧
      ((b.processFile path).run ((b.process front).run t storage).tree storage).result =
        .finished r := by
  obtain ⟨before, others, hbefore, hothers, rfl⟩ := process_all_split h
  obtain ⟨r, after, hfile, -, -, rfl⟩ := process_all_cons_of_finished hothers
  refine ⟨before, r, after, rfl, process_all_paths hbefore, ?_⟩
  rw [process_run]
  exact hfile

/-- Every recorded fault names the path of its record. -/
theorem paths_of_faults
    (h : ((b.processAll paths).run t storage).result = .finished (.ok results)) :
    ∀ item ∈ results, ∀ fault, item.2 = .error fault → fault.path? = some item.1 := by
  induction paths generalizing t results with
  | nil =>
      cases h
      exact fun _ hitem => nomatch hitem
  | cons path rest ih =>
      obtain ⟨r, others, hfile, hends, hothers, rfl⟩ := process_all_cons_of_finished h
      intro item hitem fault hfault
      rcases List.mem_cons.mp hitem with rfl | hitem
      · dsimp only at hfault
        subst hfault
        exact path_of_fault hfile hends
      · exact ih hothers item hitem fault hfault

/-- What the report of a run answers. -/
structure Reports (b : Batch) (paths : List Path) (t : Tree) (storage : Storage)
    (report : Report) : Prop where
  /-- There is one record for each path, in the order in which they were given. -/
  listed : report.results.map Prod.fst = paths
  /-- Each record holds what came of the file at its turn, in the tree that the files before it
  left. -/
  atTurn : ∀ front path back, paths = front ++ path :: back →
    ∃ before r after, report.results = before ++ (path, r) :: after ∧ before.map Prod.fst = front ∧
      ((b.processFile path).run ((b.process front).run t storage).tree storage).result = .finished r
  /-- The result of a path is the first one that was recorded under a respelling of it. -/
  found : ∀ q r, report.resultOf? q = some r ↔
    ∃ before path after, report.results = before ++ (path, r) :: after ∧ Path.Respelled path q ∧
      ∀ item ∈ before, ¬Path.Respelled item.1 q
  /-- There is no result of a path of which no respelling was given. -/
  missing : ∀ q, report.resultOf? q = none ↔ ∀ path ∈ paths, ¬Path.Respelled path q
  /-- The faults are those that were recorded, in order, and each names the path of its record. -/
  faults : report.faults.map (fun fault => (fault.path?, fault)) =
    report.results.filterMap fun item =>
      (Report.fault? item.2).map fun fault => (some item.1, fault)
  /-- The report is clean if there are no faults. -/
  clean : report.isClean = true ↔ report.faults = []
  /-- In a clean report every path that was given has a result without a fault. -/
  success : report.isClean = true →
    ∀ path ∈ paths, ∃ treatment, report.resultOf? path = some (.ok treatment)

end Batch

namespace Report

variable {report : Report} {q : Path} {r : FileResult}

/-- The result of a path is the first one that was recorded under a respelling of it. -/
theorem result_of_eq_some_iff : report.resultOf? q = some r ↔
    ∃ before path after, report.results = before ++ (path, r) :: after ∧ Path.Respelled path q ∧
      ∀ item ∈ before, ¬Path.Respelled item.1 q := by
  simp only [resultOf?, Option.map_eq_some_iff, List.find?_eq_some_iff_append,
    ← Path.same_iff_respelled]
  constructor
  · rintro ⟨⟨path, r'⟩, ⟨hsame, before, after, hresults, hbefore⟩, rfl⟩
    exact ⟨before, path, after, hresults, hsame,
      fun item hitem => by simpa using hbefore item hitem⟩
  · rintro ⟨before, path, after, hresults, hsame, hbefore⟩
    exact ⟨(path, r), ⟨hsame, before, after, hresults,
      fun item hitem => by simpa using hbefore item hitem⟩, rfl⟩

/-- A path has no result if no result was recorded under a respelling of it. -/
theorem result_of_eq_none_iff : report.resultOf? q = none ↔
    ∀ path ∈ report.results.map Prod.fst, ¬Path.Respelled path q := by
  simp only [resultOf?, Option.map_eq_none_iff, List.find?_eq_none, ← Path.same_iff_respelled,
    List.forall_mem_map]

/-- A report without faults records only successes. -/
theorem ok_of_clean (h : report.isClean = true) {item : Path × FileResult}
    (hitem : item ∈ report.results) : ∃ treatment, item.2 = .ok treatment := by
  have hnone : report.faults = [] := List.isEmpty_iff.mp h
  have hfault := List.filterMap_eq_nil_iff.mp hnone item hitem
  cases hresult : item.2 with
  | ok treatment => exact ⟨treatment, rfl⟩
  | error fault =>
      rw [hresult] at hfault
      cases hfault

end Report

namespace Batch

variable {b : Batch} {t : Tree} {storage : Storage} {paths : List Path} {report : Report}

/-- The report of a run answers as it should. -/
theorem reports_of_result
    (h : ((b.processAll paths).run t storage).result = .finished (.ok report.results)) :
    b.Reports paths t storage report where
  listed := process_all_paths h
  atTurn := by
    rintro front path back rfl
    exact result_at_turn h
  found := fun _ _ => Report.result_of_eq_some_iff
  missing := fun q => by
    rw [Report.result_of_eq_none_iff, process_all_paths h]
  faults := by
    rw [Report.faults, List.map_filterMap]
    refine List.filterMap_congr fun item hitem => ?_
    have hpath := paths_of_faults h item hitem
    cases hresult : item.2 with
    | ok treatment => rfl
    | error fault => simp [Report.fault?, hpath fault hresult]
  clean := List.isEmpty_iff
  success := by
    intro hclean path hpath
    rw [← process_all_paths h] at hpath
    cases hfound : report.resultOf? path with
    | none =>
        exact absurd (.refl path) (Report.result_of_eq_none_iff.mp hfound path hpath)
    | some r =>
        obtain ⟨before, other, after, hresults, -, -⟩ := Report.result_of_eq_some_iff.mp hfound
        have hitem : (other, r) ∈ report.results := by simp [hresults]
        obtain ⟨treatment, htreatment⟩ := Report.ok_of_clean hclean hitem
        exact ⟨treatment, by rw [← htreatment]⟩

end Batch

/-- A run ends with a report that answers every question about the result of a path, unless the
formatter stops the program or a fault ends the run. Paths that are respelled agree in being
absolute, in beginning with a dot, and in every name but the dots, byte for byte. -/
theorem report_answers_lookups (b : Batch) (paths : List Path) (t : Tree)
    (storage : Storage) :
    let result := ((b.process paths).run t storage).result
    (result = .crashed → ∃ text u, ((b.formatter text).run u storage).result = .crashed) ∧
      (∀ fault, result = .finished (.error fault) → fault.endsRun = true) ∧
      (∀ report, result = .finished (.ok report) → b.Reports paths t storage report) ∧
      ∀ p q, Path.Respelled p q → p.isAbsolute = q.isAbsolute ∧ p.beginsHere = q.beginsHere ∧
        p.properNames = q.properNames := by
  intro result
  have hresult : result = Batch.reported ((b.processAll paths).run t storage).result :=
    congrArg Effect.result (Batch.process_run paths t)
  refine ⟨fun h => ?_, fun fault h => ?_, fun report h => ?_, fun p q h => ?_⟩
  · exact Batch.formatter_of_crash (Batch.reported_crashed_iff.mp (hresult.symm.trans h))
  · exact Batch.ends_run_of_error (Batch.reported_error_iff.mp (hresult.symm.trans h))
  · exact Batch.reports_of_result (Batch.reported_ok_iff.mp (hresult.symm.trans h))
  · exact Path.same_iff_names.mp (Path.same_iff_respelled.mpr h)

/-- A file is refused under a name with a slash at the end and rewritten under its own name. What is
looked up is the refusal, also under further respellings, but nothing with a dot in front. -/
theorem first_spelling_is_looked_up :
    let q := Utf8.encode ['q']
    let refused := Utf8.encode "q/".toList
    let t : Tree := ⟨[([q], .file (Utf8.encode "x  +  y".toList))]⟩
    let b : Batch := ⟨Formatter.query, .inPlace, ⟨none, false⟩, ⟨⟨none, none⟩, none⟩⟩
    ∃ report, ((b.process [refused, q]).run t).result = .finished (.ok report) ∧
      report.results = [(refused, .error (.read refused (.system 20))), (q, .ok .rewritten)] ∧
      report.resultOf? q = some (.error (.read refused (.system 20))) ∧
      report.resultOf? (Utf8.encode "q//.".toList) =
        some (.error (.read refused (.system 20))) ∧
      report.resultOf? (Utf8.encode "./q".toList) = none := by
  intro q refused t b
  have hresults : ((b.processAll [refused, q]).run t).result =
      .finished (.ok [(refused, .error (.read refused (.system 20))), (q, .ok .rewritten)]) := by
    decide +kernel
  have hreport := congrArg Effect.result (Batch.process_run_ok hresults)
  have hanswers := (report_answers_lookups b [refused, q] t .roomy).2.2.1 _ hreport
  have hfound : ∀ p, Path.same refused p = true →
      Report.resultOf? ⟨[(refused, .error (.read refused (.system 20))), (q, .ok .rewritten)]⟩ p =
        some (.error (.read refused (.system 20))) := by
    intro p hp
    exact (hanswers.found p _).mpr
      ⟨[], refused, _, rfl, Path.same_iff_respelled.mp hp, fun _ hitem => nomatch hitem⟩
  refine ⟨_, hreport, rfl, hfound _ (by decide), hfound _ (by decide), ?_⟩
  refine (hanswers.missing _).mpr fun path hpath hrespelled => ?_
  have hdifferent : ∀ p ∈ [refused, q], Path.same p (Utf8.encode "./q".toList) = false := by decide
  rw [← Path.same_iff_respelled, hdifferent path hpath] at hrespelled
  cases hrespelled

end QueryTidy
