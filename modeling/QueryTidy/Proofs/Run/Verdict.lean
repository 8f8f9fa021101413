import QueryTidy.Run.Batch

/-!
# What a file comes to

For a formatter that depends on the text alone, everything that happens to a file before it is
treated is a function of the tree: the `Verdict` on the file. `Batch.process_file_run` and
`Batch.process_all_cons` say how the verdict and the treatment make up the run over one file and
over a list of files, so that later proofs never open the actions again.
-/

namespace QueryTidy

namespace Action

variable {α β : Type}

/-- A chain runs its first action, and the second one on what the first one leaves. -/
theorem run_bind (first : Action α) (next : α → Action β) (t : Tree) (storage : Storage) :
    (first >>= next).run t storage =
      match (first.run t storage).result with
      | .crashed =>
          ⟨.crashed, (first.run t storage).tree, (first.run t storage).logs,
            (first.run t storage).output⟩
      | .finished a =>
          ⟨((next a).run (first.run t storage).tree storage).result,
            ((next a).run (first.run t storage).tree storage).tree,
            (first.run t storage).logs ++ ((next a).run (first.run t storage).tree storage).logs,
            (first.run t storage).output ++
              ((next a).run (first.run t storage).tree storage).output⟩ :=
  rfl

end Action

open QueryTidy.Action

/-! ## Formatters that depend on the text alone -/

/-- The result of a function that refuses some texts and never stops the program. -/
def FormatResult.ofExcept : Except Text Text → FormatResult
  | .ok shown => .formatted shown
  | .error message => .rejected message

/-- The formatter that answers as a function on texts does. -/
def Formatter.ofResult (f : Text → FormatResult) : Formatter := fun text =>
  match f text with
  | .formatted shown => pure (.ok shown)
  | .rejected message => pure (.error message)
  | .crash => crash

/-- The formatter of queries answers as `Query.format` does. -/
theorem Formatter.query_eq : Formatter.query = Formatter.ofResult Query.format :=
  rfl

/-- The formatter of a function answers as the function does. -/
theorem Formatter.of_function_eq (f : Text → Except Text Text) :
    Formatter.ofFunction f = Formatter.ofResult fun text => FormatResult.ofExcept (f text) := by
  funext text
  simp only [Formatter.ofFunction, Formatter.ofResult]
  cases f text <;> rfl

/-! ## Verdicts -/

/-- The text in the file at a path, if there is one. -/
def Tree.text? (t : Tree) (path : Path) : Option Text :=
  match t.read path with
  | .ok data => (Utf8.decode data).toOption
  | .error _ => none

/-- There is a text where the path reads the encoding of one. -/
theorem Tree.text_eq_some {t : Tree} {path : Path} {text : Text} :
    t.text? path = some text ↔ ∃ data, t.read path = .ok data ∧ Utf8.decode data = .ok text := by
  unfold Tree.text?
  cases t.read path with
  | error e => simp
  | ok data => cases hdecode : Utf8.decode data <;> simp [hdecode, Except.toOption]

/-- What a file comes to before anything is done about it. -/
inductive Verdict where
  /-- The formatter stops the program. -/
  | crash
  /-- The file cannot be read or its text is refused. -/
  | fault (f : Fault)
  /-- The file is in canonical form. -/
  | fits
  /-- The file has to get a new content. -/
  | change (content : Content)
  deriving DecidableEq, Repr

/-- The verdict on a file with the given bytes. -/
def Verdict.ofBytes (f : Text → FormatResult) (path : Path) (data : Bytes) : Verdict :=
  match Utf8.decode data with
  | .error e => .fault (.parse path ("source is not valid UTF-8: ".toList ++ e.message))
  | .ok text =>
      match f text with
      | .crash => .crash
      | .rejected message => .fault (.parse path message)
      | .formatted shown =>
          if (Content.ofText shown).changes data then .change (Content.ofText shown) else .fits

/-- The verdict on the file at a path. -/
def Tree.verdict (t : Tree) (f : Text → FormatResult) (path : Path) : Verdict :=
  match t.read path with
  | .error e => .fault (.read path e)
  | .ok data => Verdict.ofBytes f path data

/-- The verdict on a file depends on what its path reads. -/
theorem Tree.verdict_congr {t u : Tree} {path : Path} (h : t.read path = u.read path)
    (f : Text → FormatResult) : t.verdict f path = u.verdict f path := by
  unfold Tree.verdict
  rw [h]

/-- A fault of a verdict is one of reading the file or of its text. -/
theorem Tree.verdict_fault_cases {t : Tree} {f : Text → FormatResult} {path : Path}
    {fault : Fault} (h : t.verdict f path = .fault fault) :
    (∃ e, fault = .read path e) ∨ ∃ message, fault = .parse path message := by
  unfold Tree.verdict at h
  split at h
  · cases h
    exact .inl ⟨_, rfl⟩
  · unfold Verdict.ofBytes at h
    split at h
    · cases h
      exact .inr ⟨_, rfl⟩
    · split at h
      · cases h
      · cases h
        exact .inr ⟨_, rfl⟩
      · split at h <;> cases h

/-- A fault of a verdict concerns one file only. -/
theorem Tree.verdict_fault_not_fatal {t : Tree} {f : Text → FormatResult} {path : Path}
    {fault : Fault} (h : t.verdict f path = .fault fault) : fault.endsRun = false := by
  rcases Tree.verdict_fault_cases h with ⟨e, rfl⟩ | ⟨message, rfl⟩ <;> rfl

/-- A file that has to change can be read, and its new content differs from the old one. -/
theorem Tree.read_of_verdict_change {t : Tree} {f : Text → FormatResult} {path : Path}
    {content : Content} (h : t.verdict f path = .change content) :
    ∃ data text shown, t.read path = .ok data ∧ Utf8.decode data = .ok text ∧
      f text = .formatted shown ∧ content = Content.ofText shown ∧ data ≠ content.bytes := by
  unfold Tree.verdict at h
  split at h
  · cases h
  · rename_i data hread
    unfold Verdict.ofBytes at h
    split at h
    · cases h
    · rename_i text hdecode
      split at h
      · cases h
      · cases h
      · rename_i shown hformat
        split at h
        · rename_i hchanges
          cases h
          exact ⟨data, text, shown, hread, hdecode, hformat, rfl, of_decide_eq_true hchanges⟩
        · cases h

/-- The new content of the file at a path, if it has to change: the file can be read, it holds a
text, the formatter accepts the text, and the content is not the formatted text and a line end
already. -/
def Tree.change? (t : Tree) (f : Text → FormatResult) (path : Path) : Option Content :=
  match t.read path with
  | .error _ => none
  | .ok data =>
      match Utf8.decode data with
      | .error _ => none
      | .ok text =>
          match f text with
          | .crash => none
          | .rejected _ => none
          | .formatted shown =>
              if data = (Content.ofText shown).bytes then none else some (Content.ofText shown)

/-- A file has to change where the verdict says so. -/
theorem Tree.verdict_change_iff {t : Tree} {f : Text → FormatResult} {path : Path}
    {content : Content} : t.verdict f path = .change content ↔ t.change? f path = some content := by
  unfold Tree.verdict Tree.change?
  cases t.read path with
  | error e => simp
  | ok data =>
      simp only [Verdict.ofBytes]
      cases Utf8.decode data with
      | error e => simp
      | ok text =>
          cases hformat : f text with
          | crash => simp [hformat]
          | rejected message => simp [hformat]
          | formatted shown =>
              by_cases hdata : data = (Content.ofText shown).bytes
              · simp [hformat, Content.changes, hdata]
              · simp [hformat, Content.changes, hdata]

/-- A file that need not change has another verdict. -/
theorem Tree.verdict_ne_change {t : Tree} {f : Text → FormatResult} {path : Path}
    (h : t.change? f path = none) (content : Content) : t.verdict f path ≠ .change content := by
  intro hverdict
  rw [Tree.verdict_change_iff, h] at hverdict
  cases hverdict

/-- Only a text that stops the formatter lets a file stop the program. -/
theorem Tree.text_of_verdict_crash {t : Tree} {f : Text → FormatResult} {path : Path}
    (h : t.verdict f path = .crash) : ∃ text, t.text? path = some text ∧ f text = .crash := by
  unfold Tree.verdict at h
  split at h
  · cases h
  · rename_i data hread
    unfold Verdict.ofBytes at h
    split at h
    · cases h
    · rename_i text hdecode
      refine ⟨text, Tree.text_eq_some.2 ⟨data, hread, hdecode⟩, ?_⟩
      split at h
      · rename_i hformat
        exact hformat
      · cases h
      · split at h <;> cases h

/-- A file is in canonical form exactly when it has the content that the formatter gives it. -/
theorem Tree.verdict_fits_iff {t : Tree} {f : Text → FormatResult} {path : Path} :
    t.verdict f path = .fits ↔
      ∃ text shown, t.read path = .ok (Content.ofText shown).bytes ∧
        Utf8.decode (Content.ofText shown).bytes = .ok text ∧ f text = .formatted shown := by
  constructor
  · intro h
    unfold Tree.verdict at h
    split at h
    · cases h
    · rename_i data hread
      unfold Verdict.ofBytes at h
      split at h
      · cases h
      · rename_i text hdecode
        split at h
        · cases h
        · cases h
        · rename_i shown hformat
          split at h
          · cases h
          · rename_i hchanges
            have hdata : data = (Content.ofText shown).bytes := by
              simpa [Content.changes] using hchanges
            subst hdata
            exact ⟨text, shown, hread, hdecode, hformat⟩
  · rintro ⟨text, shown, hread, hdecode, hformat⟩
    simp [Tree.verdict, Verdict.ofBytes, hread, hdecode, hformat, Content.changes]

/-! ## The run over one file -/

/-- Asking for the new content of a file with the given bytes. -/
theorem new_content_run (f : Text → FormatResult) (path : Path) (data : Bytes) (t : Tree)
    {storage : Storage} :
    (newContent (Formatter.ofResult f) path data).run t storage =
      match Utf8.decode data with
      | .error e =>
          ⟨.finished (.error (.parse path ("source is not valid UTF-8: ".toList ++ e.message))), t,
            [], []⟩
      | .ok text =>
          match f text with
          | .crash => ⟨.crashed, t, [], []⟩
          | .rejected message => ⟨.finished (.error (.parse path message)), t, [], []⟩
          | .formatted shown => ⟨.finished (.ok (Content.ofText shown)), t, [], []⟩ := by
  unfold newContent
  cases Utf8.decode data with
  | error e => rfl
  | ok text =>
      simp only [Formatter.ofResult]
      cases f text <;> rfl

namespace Handover

/-- The record of the start of a tool. -/
def runningRecord (command : Command) : LogRecord :=
  ⟨.debug, .handover, "Running ".toList ++ command.toText⟩

/-- How handing a content over to a tool ends. -/
def result (host : Host) (command : Command) (t : Tree) (content : Bytes) :
    Except PreviewFault Unit :=
  match host.pipeFault with
  | some e => .error (.noPipe e)
  | none =>
      match host.tools.launch command with
      | .error e => .error (.notStarted e)
      | .ok behavior => PreviewFault.ofExit (behavior.run command t content).2.code?

/-- What handing a content over to a tool logs: the start of the tool, unless there is no pipe. -/
def records (host : Host) (command : Command) : List LogRecord :=
  if host.pipeFault.isSome then [] else [runningRecord command]

/-- What a tool prints that a content is handed over to. -/
def printed (host : Host) (command : Command) (t : Tree) (content : Bytes) : Bytes :=
  match host.pipeFault, host.tools.launch command with
  | none, .ok behavior => (behavior.run command t content).1
  | _, _ => []

/-- Handing a content over never crashes and leaves the files alone. -/
theorem perform_run (host : Host) (command : Command) (content : Bytes) (t : Tree)
    {storage : Storage} :
    (perform host command content).run t storage =
      ⟨.finished (result host command t content), t, records host command,
        printed host command t content⟩ := by
  unfold perform result records printed
  cases host.pipeFault with
  | some e => rfl
  | none =>
      cases host.tools.launch command with
      | error e => rfl
      | ok behavior => simp [run_bind, runningRecord]

end Handover

namespace Batch

/-- The record of a file that is in canonical form. -/
def fitsRecord (path : Path) : LogRecord :=
  ⟨.debug, .formatting, path.toText ++ " is already formatted".toList⟩

/-- The record of a file that is rewritten. -/
def applyingRecord (path : Path) : LogRecord :=
  ⟨.info, .formatting, "Applying formatting to ".toList ++ path.toText⟩

/-- The record of a file whose changes are shown. -/
def diffingRecord (path : Path) : LogRecord :=
  ⟨.info, .formatting, "Diffing ".toList ++ path.toText⟩

/-- The record of the tool that shows the changes of a file. -/
def showingRecord (path : Path) (comparer : Comparer) : LogRecord :=
  ⟨.debug, .showing, "Showing ".toList ++ path.toText ++ " with ".toList ++ comparer.name⟩

/-- The result of a file whose changes were handed over to a tool. -/
def previewResult (path : Path) : Except PreviewFault Unit → FileResult
  | .ok () => .ok .previewed
  | .error reason => .error (.preview path reason)

variable {b : Batch} {f : Text → FormatResult} {comparer : Comparer} {storage : Storage}

/-- The command that shows the changes of a file in a batch. -/
def comparison (b : Batch) (comparer : Comparer) (path : Path) : Command :=
  comparer.comparison b.settings.color path Handover.contentPath

/-- Only a file that has to change is treated. -/
theorem process_file_run (hf : b.formatter = Formatter.ofResult f) (path : Path) (t : Tree) :
    (b.processFile path).run t storage =
      match t.verdict f path with
      | .crash => ⟨.crashed, t, [], []⟩
      | .fault fault => ⟨.finished (.error fault), t, [], []⟩
      | .fits => ⟨.finished (.ok .unchanged), t, [fitsRecord path], []⟩
      | .change content => (b.treat path content).run t storage := by
  unfold processFile load Tree.verdict Verdict.ofBytes
  rw [hf]
  cases hread : t.read path with
  | error e => simp only [run_bind, run_getTree, hread, run_pure, List.append_nil]
  | ok data =>
      simp only [run_bind, run_getTree, hread, run_pure, new_content_run, List.nil_append]
      cases Utf8.decode data with
      | error e => rfl
      | ok text =>
          cases hformat : f text with
          | crash => simp only [hformat]
          | rejected message => simp only [hformat, run_pure, List.nil_append]
          | formatted shown =>
              by_cases hchanges : (Content.ofText shown).changes data = true
              · simp only [hformat, hchanges, ↓reduceIte, List.nil_append]
              · simp only [hformat, hchanges]
                rfl

/-- A file that is treated in place gets its new content, or the run goes on with a fault. -/
theorem treat_in_place_run (hmode : b.mode = .inPlace) (path : Path) (content : Content)
    (t : Tree) :
    (b.treat path content).run t storage =
      match t.write path content.bytes storage with
      | .ok u => ⟨.finished (.ok .rewritten), u, [applyingRecord path], []⟩
      | .error (.opening e) =>
          ⟨.finished (.error (.openForWriting path e)), t, [applyingRecord path], []⟩
      | .error (.writing e left) =>
          ⟨.finished (.error (.write path e)), left, [applyingRecord path], []⟩ := by
  unfold treat store
  rw [hmode]
  cases hwrite : t.write path content.bytes storage with
  | ok u =>
      simp only [run_bind, run_log, run_getTree, run_getStorage, hwrite, run_setTree, run_pure]
      rfl
  | error e =>
      cases e <;>
        simp only [run_bind, run_log, run_getTree, run_getStorage, hwrite, run_setTree,
          run_pure] <;>
        rfl

/-- A file whose changes are shown: the tool decides on the result, and no file is touched. -/
theorem treat_preview_run (hmode : b.mode = .preview)
    (hcomparer : b.settings.comparer = some comparer) (path : Path) (content : Content) (t : Tree) :
    (b.treat path content).run t storage =
      ⟨.finished (previewResult path
          (Handover.result b.host (b.comparison comparer path) t content.bytes)), t,
        diffingRecord path :: showingRecord path comparer ::
          Handover.records b.host (b.comparison comparer path),
        Handover.printed b.host (b.comparison comparer path) t content.bytes⟩ := by
  unfold treat preview comparison
  rw [hmode, hcomparer]
  simp only [run_bind, run_log, Handover.perform_run]
  cases Handover.result b.host
      (comparer.comparison b.settings.color path Handover.contentPath) t content.bytes with
  | ok value =>
      simp only [run_pure, List.append_nil, List.nil_append, List.singleton_append]
      rfl
  | error reason =>
      simp only [run_pure, List.append_nil, List.nil_append, List.singleton_append]
      rfl

/-- Where there is no tool to show changes with, a file that has to change is not treated. -/
theorem treat_without_comparer (hmode : b.mode = .preview) (hcomparer : b.settings.comparer = none)
    (path : Path) (content : Content) (t : Tree) :
    (b.treat path content).run t storage =
      ⟨.finished (.error .noComparer), t, [diffingRecord path], []⟩ := by
  unfold treat preview
  rw [hmode, hcomparer]
  rfl

/-- What is logged while a file is treated is no error, and does not concern the program as a
whole. -/
theorem treat_records (path : Path) (content : Content) (t : Tree) :
    ∀ r ∈ ((b.treat path content).run t storage).logs,
      r.level ≠ .error ∧ r.area ≠ .program := by
  cases hmode : b.mode with
  | inPlace =>
      have happlying : ∀ r ∈ [applyingRecord path], r.level ≠ .error ∧ r.area ≠ .program := by
        simp [applyingRecord]
      rw [treat_in_place_run hmode]
      split <;> exact happlying
  | preview =>
      cases hcomparer : b.settings.comparer with
      | none => simp [treat_without_comparer hmode hcomparer, diffingRecord]
      | some comparer =>
          rw [treat_preview_run hmode hcomparer]
          intro r hr
          rcases List.mem_cons.1 hr with rfl | hr
          · simp [diffingRecord]
          rcases List.mem_cons.1 hr with rfl | hr
          · simp [showingRecord]
          · unfold Handover.records at hr
            split at hr
            · cases hr
            · obtain rfl := List.mem_singleton.1 hr
              simp [Handover.runningRecord]

/-- What is logged about a file, but for a fault in the end, is no error, and does not concern the
program as a whole. -/
theorem process_file_records (hf : b.formatter = Formatter.ofResult f) (path : Path) (t : Tree)
    (storage : Storage) :
    ∀ r ∈ ((b.processFile path).run t storage).logs,
      r.level ≠ .error ∧ r.area ≠ .program := by
  rw [process_file_run hf]
  cases t.verdict f path with
  | crash => simp
  | fault fault => simp
  | fits => simp [fitsRecord]
  | change content => exact treat_records path content t

/-! ## The run over a list of files -/

/-- The result of a file ends the run. -/
def endsRun (r : FileResult) : Bool :=
  (Report.fault? r).any Fault.endsRun

/-- The records of the result of a file: a fault is logged. -/
def faultRecords (r : FileResult) : List LogRecord :=
  (Report.fault? r).toList.map fun fault => ⟨.error, .formatting, fault.message⟩

/-- The results of a list of files after the result of one more file before them. -/
def withResult (item : Path × FileResult) :
    Completion (Except Fault (List (Path × FileResult))) →
      Completion (Except Fault (List (Path × FileResult)))
  | .finished (.ok results) => .finished (.ok (item :: results))
  | .finished (.error fault) => .finished (.error fault)
  | .crashed => .crashed

/-- The run over no file does nothing. -/
theorem process_all_nil (t : Tree) :
    (b.processAll []).run t storage = ⟨.finished (.ok []), t, [], []⟩ :=
  rfl

/-- After a file whose result does not end the run, the rest of the files is treated on the tree
that the file leaves. -/
theorem process_all_cons {path : Path} {t u : Tree} {r : FileResult}
    {logs : List LogRecord} {output : Bytes}
    (hrun : (b.processFile path).run t storage = ⟨.finished r, u, logs, output⟩)
    (hr : endsRun r = false) (rest : List Path) :
    (b.processAll (path :: rest)).run t storage =
      ⟨withResult (path, r) ((b.processAll rest).run u storage).result,
        ((b.processAll rest).run u storage).tree,
        logs ++ (faultRecords r ++ ((b.processAll rest).run u storage).logs),
        output ++ ((b.processAll rest).run u storage).output⟩ := by
  rcases hrest : (b.processAll rest).run u storage with ⟨result, v, logs', output'⟩
  simp only [processAll, run_bind, hrun]
  cases r with
  | ok treatment =>
      cases result with
      | crashed => simp [run_bind, hrest, withResult, faultRecords, Report.fault?]
      | finished results =>
          cases results <;> simp [run_bind, hrest, withResult, faultRecords, Report.fault?]
  | error fault =>
      have hfault : fault.endsRun = false := hr
      cases result with
      | crashed => simp [run_bind, hfault, hrest, withResult, faultRecords, Report.fault?]
      | finished results =>
          cases results <;>
            simp [run_bind, hfault, hrest, withResult, faultRecords, Report.fault?]

/-- A batch reports the results of its files. -/
theorem process_run_ok {paths : List Path} {t : Tree} {results : List (Path × FileResult)}
    (h : ((b.processAll paths).run t storage).result = .finished (.ok results)) :
    (b.process paths).run t storage =
      ⟨.finished (.ok ⟨results⟩), ((b.processAll paths).run t storage).tree,
        ((b.processAll paths).run t storage).logs,
        ((b.processAll paths).run t storage).output⟩ := by
  unfold process
  simp only [run_bind, h, run_pure, List.append_nil]

end Batch

end QueryTidy
