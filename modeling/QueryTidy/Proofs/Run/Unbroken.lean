import QueryTidy.Proofs.Query.Oversize
import QueryTidy.Proofs.Run.Concat

/-!
# Runs that no file breaks off

A run that rewrites files goes on after every fault, so it ends with a report unless a formatter
stops the program (`Batch.process_all_reports`). The formatter of queries does so only on a duration
that is too long (`Query.oversize_of_crash`): where no file holds one at its turn, the report has a
result for each path.
-/

namespace QueryTidy

open QueryTidy.Action

namespace Batch

variable {b : Batch} {f : Text → FormatResult} {t : Tree} {storage : Storage} {path : Path}
  {paths : List Path}

/-- At its turn in the run over the paths, every file holds a text with the property. -/
def EachText (b : Batch) (p : Text → Prop) (paths : List Path) (t : Tree)
    (storage : Storage := .roomy) : Prop :=
  ∀ front path back, paths = front ++ path :: back →
    ∀ text ∈ ((b.process front).run t storage).tree.text? path, p text

/-- A run that rewrites files ends with a result for each path, unless a text stops the formatter
at the turn of its file. -/
theorem process_all_reports (hf : b.formatter = Formatter.ofResult f) (hmode : b.mode = .inPlace)
    (h : b.EachText (fun text => f text ≠ .crash) paths t storage) :
    ∃ results, ((b.processAll paths).run t storage).result = .finished (.ok results) := by
  induction paths generalizing t with
  | nil => exact ⟨[], rfl⟩
  | cons path rest ih =>
      have hverdict : t.verdict f path ≠ .crash := by
        intro hcrash
        obtain ⟨text, htext, hformat⟩ := Tree.text_of_verdict_crash hcrash
        exact h [] path rest rfl text htext hformat
      obtain ⟨r, hfile, hends⟩ := process_file_goes_on hf (.inl hmode) hverdict
      have hturn := process_all_goes_on hfile hends
      -- The turns of the rest are turns of the whole run, the first file being in front of them.
      obtain ⟨others, hothers⟩ := ih (t := ((b.processFile path).run t storage).tree)
        fun front next back hpaths text htext => by
          refine h (path :: front) next back (by rw [hpaths, List.cons_append]) text ?_
          rw [process_run] at htext ⊢
          rw [hturn front]
          exact htext
      rw [hturn rest, hothers]
      exact ⟨(path, r) :: others, rfl⟩

/-- Unless a text holds a duration that is too long, it is formatted or refused; and a run that
rewrites files ends with a report that has a result for each path, in order, unless a file holds
such a text at its turn. -/
theorem every_file_has_a_result (settings : PreviewSettings) (host : Host) :
    (∀ text, ¬ Query.OversizeText text →
      (∃ shown, Query.format text = .formatted shown) ∨
        ∃ message, Query.format text = .rejected message) ∧
    ∀ (paths : List Path) (t : Tree) (storage : Storage),
      let b : Batch := ⟨Formatter.query, .inPlace, settings, host⟩
      b.EachText (fun text => ¬ Query.OversizeText text) paths t storage →
        ∃ report : Report, ((b.process paths).run t storage).result = .finished (.ok report) ∧
          report.results.map Prod.fst = paths := by
  have hformat : ∀ text, ¬ Query.OversizeText text → Query.format text ≠ .crash :=
    fun text h hcrash => h (Query.oversize_of_crash hcrash)
  constructor
  · intro text h
    cases hresult : Query.format text with
    | formatted shown => exact .inl ⟨shown, rfl⟩
    | rejected message => exact .inr ⟨message, rfl⟩
    | crash => exact absurd hresult (hformat text h)
  · intro paths t storage b h
    obtain ⟨results, hresults⟩ := process_all_reports (b := b) Formatter.query_eq rfl
      fun front path back hpaths text htext => hformat text (h front path back hpaths text htext)
    refine ⟨⟨results⟩, ?_, process_all_paths hresults⟩
    rw [process_run, hresults]
    rfl

/-- A batch over two files, of which the first holds a text that breaks off in a range. -/
theorem refused_range_has_a_result :
    let t : Tree := ⟨[([Utf8.encode ['q']], .file (Utf8.encode "foo[5m".toList)),
      ([Utf8.encode ['r']], .file (Utf8.encode "x  +  y".toList))]⟩
    let b : Batch := ⟨Formatter.query, .inPlace, ⟨none, false⟩, ⟨⟨none, none⟩, none⟩⟩
    let q := Utf8.encode ['q']
    let r := Utf8.encode ['r']
    b.EachText (fun text => ¬ Query.OversizeText text) [q, r] t ∧
      (∃ report : Report, ((b.process [q, r]).run t).result = .finished (.ok report) ∧
        report.results.map Prod.fst = [q, r]) ∧
      ((b.process [q, r]).run t).tree.text? q = some "foo[5m".toList ∧
      ((b.process [q, r]).run t).tree.text? r = some "x + y\n".toList := by
  intro t b q r
  have hfirst : t.text? q = some "foo[5m".toList := by decide +kernel
  have hsecond : ((b.process [q]).run t).tree.text? r = some "x  +  y".toList := by decide +kernel
  have hsizes : b.EachText (fun text => ¬ Query.OversizeText text) [q, r] t := by
    intro front path back hpaths text htext
    match front with
    | [] =>
        obtain ⟨hpath, -⟩ := List.cons.inj hpaths
        rw [← hpath] at htext
        obtain rfl : "foo[5m".toList = text := Option.some.inj (hfirst.symm.trans htext)
        decide +kernel
    | [_] =>
        obtain ⟨hfront, hrest⟩ := List.cons.inj hpaths
        obtain ⟨hpath, -⟩ := List.cons.inj hrest
        rw [← hfront, ← hpath] at htext
        obtain rfl : "x  +  y".toList = text := Option.some.inj (hsecond.symm.trans htext)
        decide +kernel
    | _ :: _ :: _ => simp at hpaths
  exact ⟨hsizes, (every_file_has_a_result _ _).2 [q, r] t .roomy hsizes, by decide +kernel,
    by decide +kernel⟩

/-- A range of 10 to the power of 30 seconds stops the program: neither does the formatter answer,
nor does a batch end with a report, and the file after it is not treated. -/
theorem long_range_breaks_batch_off :
    let t : Tree := ⟨[([Utf8.encode ['q']], .file (Utf8.encode "foo[1e30]".toList)),
      ([Utf8.encode ['r']], .file (Utf8.encode "x  +  y".toList))]⟩
    let b : Batch := ⟨Formatter.query, .inPlace, ⟨none, false⟩, ⟨⟨none, none⟩, none⟩⟩
    let q := Utf8.encode ['q']
    let r := Utf8.encode ['r']
    Query.format "foo[1e30]".toList = .crash ∧ ((b.process [q, r]).run t).result matches .crashed ∧
      ((b.process [q, r]).run t).tree = t := by
  decide +kernel

end Batch

end QueryTidy
