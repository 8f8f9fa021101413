import Mathlib.Data.List.Basic
import QueryTidy.Proofs.Run.Beside

/-!
# A failing file concerns no other file

With a formatter that depends on the text alone, a file that comes to a fault leaves the tree as it
found it, whether the fault comes up when the file is read, when its text is formatted, when it is
opened for writing or when its changes are shown (`Batch.process_file_fault`). So the run without
the file makes the same of all other files, from the same trees. Only a regular file that is cut off
by a fault of writing is not as it was; where that is of no concern to the others, the two runs
still differ in nothing else (`Batch.process_all_beside`).
-/

namespace QueryTidy.Batch

open QueryTidy.Action

variable {b : Batch} {f : Text → FormatResult} {t : Tree} {storage : Storage} {path : Path}
  {content : Content} {fault : Fault} {location : Location}

/-- The record of a fault. -/
def faultRecord (fault : Fault) : LogRecord :=
  ⟨.error, .formatting, fault.message⟩

/-! ## The failing file -/

/-- A file that cannot be given its new content, or whose changes cannot be shown, is left as it is,
unless writing it fails halfway. -/
theorem treat_fault
    (h : ((b.treat path content).run t storage).result = .finished (.error fault)) :
    ((∀ p e, fault ≠ .write p e) ∧ ((b.treat path content).run t storage).tree = t) ∨
      b.mode = .inPlace ∧ ∃ e, fault = .write path e ∧ t.write path content.bytes storage =
        .error (.writing e ((b.treat path content).run t storage).tree) := by
  obtain ⟨r, hresult, htreated⟩ := treat_cases b path content t storage
  rw [h] at hresult
  generalize ((b.treat path content).run t storage).tree = u at htreated ⊢
  cases htreated with
  | rewritten hmode hwrite => cases hresult
  | @cut e _ hmode hwrite =>
      cases hresult
      exact .inr ⟨hmode, e, rfl, hwrite⟩
  | kept hrewritten hcut =>
      cases hresult
      refine .inl ⟨fun p e hfault => hcut p e ?_, rfl⟩
      rw [hfault]

/-- A file that comes to a fault is left as it is, unless writing it fails halfway. -/
theorem process_file_fault (hf : b.formatter = Formatter.ofResult f)
    (h : ((b.processFile path).run t storage).result = .finished (.error fault)) :
    ((∀ p e, fault ≠ .write p e) ∧ ((b.processFile path).run t storage).tree = t) ∨
      b.mode = .inPlace ∧ ∃ content e, fault = .write path e ∧
        t.verdict f path = .change content ∧ t.write path content.bytes storage =
          .error (.writing e ((b.processFile path).run t storage).tree) := by
  rw [process_file_run hf] at h ⊢
  cases hverdict : t.verdict f path with
  | crash => simp [hverdict] at h
  | fits => simp [hverdict] at h
  | fault reason =>
      obtain rfl : reason = fault := by simpa [hverdict] using h
      refine .inl ⟨fun p e hwrite => ?_, rfl⟩
      rcases Tree.verdict_fault_cases hverdict with ⟨e, rfl⟩ | ⟨message, rfl⟩
      · cases hwrite
      · cases hwrite
  | change content =>
      rw [hverdict] at h
      rcases treat_fault h with hkept | ⟨hmode, e, hfault, hwrite⟩
      · exact .inl hkept
      · exact .inr ⟨hmode, content, e, hfault, rfl, hwrite⟩

/-- A file that comes to a fault is left as it is where files take whole contents, or if the fault
is not one of writing, or if there is no regular file at the path. -/
theorem process_file_fault_keeps (hf : b.formatter = Formatter.ofResult f)
    (h : ((b.processFile path).run t storage).result = .finished (.error fault))
    (hkeeps : storage.TakesWhole ∨ (∀ e, fault ≠ .write path e) ∨ t.file? path = none) :
    ((b.processFile path).run t storage).tree = t := by
  rcases process_file_fault hf h with ⟨-, hkept⟩ | ⟨-, content, e, hfault, -, hwrite⟩
  · exact hkept
  · rcases hkeeps with hwhole | hother | hfile
    · exact Tree.eq_of_cut hwhole hwrite
    · exact absurd hfault (hother e)
    · have hreceived := (Tree.received_of_cut hwrite).2.refills
      rw [hfile] at hreceived
      exact hreceived

/-- Where writing a regular file fails, the file has the beginning of its new content, but not all
of it. -/
theorem process_file_cut (hf : b.formatter = Formatter.ofResult f) {e : IoError}
    (h : ((b.processFile path).run t storage).result = .finished (.error (.write path e)))
    (hfile : t.file? path = some location) :
    b.mode = .inPlace ∧ ∃ content kept, t.verdict f path = .change content ∧
      kept < content.bytes.length ∧
      ((b.processFile path).run t storage).tree =
        t.refill location (content.bytes.take kept) := by
  rcases process_file_fault hf h with ⟨hnot, -⟩ | ⟨hmode, content, e', -, hverdict, hwrite⟩
  · exact absurd rfl (hnot path e)
  · obtain ⟨hlt, hreceived⟩ := Tree.received_of_cut hwrite
    have htree := hreceived.refills
    rw [hfile] at htree
    exact ⟨hmode, content, _, hverdict, hlt, htree⟩

/-! ## The other files -/

section

variable {xs ys : List Path} {front back : List (Path × FileResult)} {u v : Tree}
  {logs logs' : List LogRecord} {output output' : Bytes}

/-- A run over two lists of files ends with the results of both. -/
theorem process_append
    (hfront : (b.process xs).run t storage = ⟨.finished (.ok ⟨front⟩), u, logs, output⟩)
    (hback : (b.process ys).run u storage = ⟨.finished (.ok ⟨back⟩), v, logs', output'⟩) :
    (b.process (xs ++ ys)).run t storage =
      ⟨.finished (.ok ⟨front ++ back⟩), v, logs ++ logs', output ++ output'⟩ := by
  rw [process_eq_ok] at hfront hback ⊢
  rw [process_all_append (congrArg Effect.result hfront), hfront]
  simp only [hback]
  rfl

/-- A run that ends with a report does so over the files before one of them and over those after it,
and in between is the turn of that file. -/
theorem process_around {report : Report}
    (hrun : ((b.process (xs ++ path :: ys)).run t storage).result = .finished (.ok report)) :
    let before := (b.process xs).run t storage
    let here := (b.processFile path).run before.tree storage
    let after := (b.process ys).run here.tree storage
    ∃ front r back, front.length = xs.length ∧ report.results = front ++ (path, r) :: back ∧
      before.result = .finished (.ok ⟨front⟩) ∧ here.result = .finished r ∧
      after.result = .finished (.ok ⟨back⟩) ∧
      (b.process (xs ++ path :: ys)).run t storage =
        ⟨.finished (.ok report), after.tree,
          before.logs ++ (here.logs ++ faultRecords r) ++ after.logs,
          before.output ++ here.output ++ after.output⟩ := by
  have hall := hrun
  rw [process_run, reported_ok_iff] at hall
  obtain ⟨front, rest, hfront, hrest, hresults⟩ := process_all_split hall
  obtain ⟨r, back, hfile, hends, hback, rfl⟩ := process_all_cons_of_finished hrest
  refine ⟨front, r, back, ?_, hresults, ?_⟩
  · rw [← process_all_paths hfront, List.length_map]
  · obtain ⟨results⟩ := report
    obtain rfl : results = front ++ (path, r) :: back := hresults
    simp only [process_run_ok hfront, process_run_ok hback, process_run_ok hall, hfile, true_and]
    rw [process_all_append hfront, process_all_goes_on hfile hends]
    simp

end

/-- What a run comes to without the turn at one position, from a run that ends with a report: the
results at all other positions, and what was logged and printed before and after the turn. -/
def withoutTurn (report : Report) (position : Nat) (before after : Effect (Except Fault Report))
    (u : Tree) : Effect (Except Fault Report) :=
  ⟨.finished (.ok ⟨report.results.eraseIdx position⟩), u, before.logs ++ after.logs,
    before.output ++ after.output⟩

end QueryTidy.Batch
