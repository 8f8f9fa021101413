import Mathlib.Data.List.Forall2
import QueryTidy.Proofs.Files.Locations
import QueryTidy.Proofs.Run.Concat

/-!
# A preview shows what a run makes

The two modes of a batch are compared from one tree. Showing changes leaves the tree alone, so every
file is judged in the tree at the start. Making changes moves the tree on, but as long as no two
paths lead to one file, what a path reads at its turn is what it read at the start; the invariant of
the induction (`process_all_in_place`) says so, and what the end of the run holds. The results of
the two runs then agree file by file because they come from the same verdicts.
-/

namespace QueryTidy

/-! ## Paths to the same file -/

namespace Tree

/-- Both paths lead to one regular file. -/
def SameFile (t : Tree) (p q : Path) : Prop :=
  ∃ location content, t.get? location = some (.file content) ∧
    t.resolve p = .ok (.inside location) ∧ t.resolve q = .ok (.inside location)

/-- The path leads to a regular file. -/
def LeadsToFile (t : Tree) (p : Path) : Prop :=
  ∃ location content, t.locate p = .ok (.inside location, .entry (.file content))

variable {t u : Tree} {p q : Path}

/-- Which of two paths comes first does not matter. -/
theorem SameFile.symm (h : t.SameFile p q) : t.SameFile q p := by
  obtain ⟨location, content, hget, hp, hq⟩ := h
  exact ⟨location, content, hget, hq, hp⟩

/-- Trees with the same outline have the same paths to one file. -/
theorem SameOutline.same_file (h : SameOutline t u) (hfile : t.SameFile p q) : u.SameFile p q := by
  obtain ⟨location, content, hget, hp, hq⟩ := hfile
  have hfind : t.find? (.inside location) = some (.entry (.file content)) := by simp [hget]
  obtain ⟨content', hfind'⟩ := h.find_file hfind
  exact ⟨location, content', get_of_find hfind', (h.resolve_eq p).symm.trans hp,
    (h.resolve_eq q).symm.trans hq⟩

/-- What comes to a file changes nothing for the paths that do not lead there. -/
theorem Received.read_other {content : Bytes} (h : t.Received p content u)
    (hother : ¬t.SameFile p q) : u.read q = t.read q := by
  rcases h with ⟨location, old, hlocate, rfl⟩ | ⟨_, _, _, rfl⟩
  · obtain ⟨hresolve, hfind⟩ := locate_eq_ok.1 hlocate
    have hget := get_of_find hfind
    exact read_set_other hget fun hq => hother ⟨location, old, hget, hresolve, hq⟩
  · rfl

/-- A path to a file reads what came to it. -/
theorem Received.read_same {content : Bytes} (h : t.Received p content u)
    (hfile : t.LeadsToFile p) : u.read p = .ok content := by
  obtain ⟨location, old, hlocate⟩ := hfile
  rcases h with ⟨location', old', hlocate', rfl⟩ | ⟨_, _, hlocate', rfl⟩
  · exact read_set_same hlocate'
  · rw [hlocate] at hlocate'
    simp at hlocate'

end Tree

/-! ## Results that agree -/

/-- The result of a file that has to change, in the mode that shows changes. -/
inductive ShowsChange (path : Path) : FileResult → Prop where
  | previewed : ShowsChange path (.ok .previewed)
  | fault (reason : PreviewFault) : ShowsChange path (.error (.preview path reason))

/-- The result of a file that has to change, in the mode that makes changes. -/
inductive MakesChange (path : Path) : FileResult → Prop where
  | rewritten : MakesChange path (.ok .rewritten)
  | opening (e : IoError) : MakesChange path (.error (.openForWriting path e))
  | writing (e : IoError) : MakesChange path (.error (.write path e))

/-- The results of one file in the two modes agree: the file is in canonical form for both, or both
have the same fault before anything is done about it, or it has to change for both. -/
inductive Agree (path : Path) : FileResult → FileResult → Prop where
  | unchanged : Agree path (.ok .unchanged) (.ok .unchanged)
  | read (e : IoError) : Agree path (.error (.read path e)) (.error (.read path e))
  | parse (message : Text) :
      Agree path (.error (.parse path message)) (.error (.parse path message))
  | change {shown made : FileResult} :
      ShowsChange path shown → MakesChange path made → Agree path shown made

namespace Batch

variable {b : Batch} {f : Text → FormatResult} {t u : Tree} {storage : Storage} {path : Path}
  {paths : List Path} {comparer : Comparer}

/-! ## The mode that shows changes -/

/-- The result of a file in the mode that shows changes, in the tree at the start. -/
def shownResult (b : Batch) (comparer : Comparer) (f : Text → FormatResult) (t : Tree)
    (path : Path) : FileResult :=
  match t.verdict f path with
  | .crash => .ok .unchanged
  | .fault fault => .error fault
  | .fits => .ok .unchanged
  | .change content =>
      previewResult path (Handover.result b.host (b.comparison comparer path) t content.bytes)

/-- Nothing that happens to a file when changes are shown by a tool ends the run. -/
theorem shown_result_not_fatal : endsRun (b.shownResult comparer f t path) = false := by
  unfold shownResult
  split
  · rfl
  · exact Tree.verdict_fault_not_fatal ‹_›
  · rfl
  · unfold previewResult
    split <;> rfl

/-- One file, in the mode that shows changes. -/
theorem process_file_preview (storage : Storage) (hmode : b.mode = .preview)
    (hcomparer : b.settings.comparer = some comparer) (hf : b.formatter = Formatter.ofResult f)
    (hcrash : t.verdict f path ≠ .crash) :
    (b.processFile path).run t storage =
      ⟨.finished (b.shownResult comparer f t path), t, ((b.processFile path).run t storage).logs,
        ((b.processFile path).run t storage).output⟩ := by
  rw [process_file_run hf]
  unfold shownResult
  cases hverdict : t.verdict f path with
  | crash => exact absurd hverdict hcrash
  | fault fault => rfl
  | fits => rfl
  | change content => simp only [treat_preview_run hmode hcomparer]

/-- A list of files, in the mode that shows changes: every file has the result and the output that
it has alone. -/
theorem process_all_preview (storage : Storage) (hmode : b.mode = .preview)
    (hcomparer : b.settings.comparer = some comparer) (hf : b.formatter = Formatter.ofResult f)
    (hcrash : ∀ path ∈ paths, t.verdict f path ≠ .crash) :
    ((b.processAll paths).run t storage).result =
        .finished (.ok (paths.map fun path => (path, b.shownResult comparer f t path))) ∧
      ((b.processAll paths).run t storage).output =
        paths.flatMap fun path => ((b.processFile path).run t storage).output := by
  induction paths with
  | nil => exact ⟨rfl, rfl⟩
  | cons path rest ih =>
      obtain ⟨hresult, houtput⟩ := ih fun p hp => hcrash p (List.mem_cons_of_mem _ hp)
      have hrun := process_file_preview storage hmode hcomparer hf
        (hcrash path List.mem_cons_self)
      rw [process_all_cons hrun shown_result_not_fatal, hresult, houtput]
      exact ⟨rfl, rfl⟩

/-- A file that stops the program does so wherever it stands in a list of files, in the mode that
shows changes. -/
theorem process_all_preview_crash (storage : Storage) (hmode : b.mode = .preview)
    (hcomparer : b.settings.comparer = some comparer) (hf : b.formatter = Formatter.ofResult f)
    (h : ∃ path ∈ paths, t.verdict f path = .crash) :
    ((b.processAll paths).run t storage).result = .crashed := by
  induction paths with
  | nil =>
      obtain ⟨path, hpath, -⟩ := h
      cases hpath
  | cons path rest ih =>
      by_cases hcrash : t.verdict f path = .crash
      · have hstop : ((b.processFile path).run t storage).result = .crashed := by
          rw [process_file_run hf, hcrash]
        rw [process_all_crash hstop]
      · have hrest : ∃ p ∈ rest, t.verdict f p = .crash := by
          simpa only [List.exists_mem_cons_iff, hcrash, false_or] using h
        rw [process_all_cons (process_file_preview storage hmode hcomparer hf hcrash)
          shown_result_not_fatal, ih hrest]
        rfl

/-! ## The mode that makes changes -/

/-- What one file comes to in the mode that makes changes, seen from the tree `t` by which it is
judged and the tree `final` at the end of the run. -/
def MadeResult (f : Text → FormatResult) (t final : Tree) (path : Path) (r : FileResult) : Prop :=
  match t.verdict f path with
  | .crash => False
  | .fault fault => r = .error fault
  | .fits => r = .ok .unchanged
  | .change content =>
      MakesChange path r ∧
        (r = .ok .rewritten → t.LeadsToFile path → final.read path = .ok content.bytes)

/-- One file, in the mode that makes changes: nothing but the file itself is changed. -/
theorem process_file_in_place (storage : Storage) (hmode : b.mode = .inPlace)
    (hf : b.formatter = Formatter.ofResult f) (hcrash : t.verdict f path ≠ .crash) :
    ∃ r u logs, (b.processFile path).run t storage = ⟨.finished r, u, logs, []⟩ ∧
      endsRun r = false ∧
      Tree.SameOutline u t ∧ (∀ q, ¬t.SameFile path q → u.read q = t.read q) ∧
      MadeResult f t u path r := by
  unfold MadeResult
  rw [process_file_run hf]
  cases hverdict : t.verdict f path with
  | crash => exact absurd hverdict hcrash
  | fault fault =>
      exact ⟨_, _, _, rfl, Tree.verdict_fault_not_fatal hverdict, fun _ => rfl, fun _ _ => rfl, rfl⟩
  | fits => exact ⟨_, _, _, rfl, rfl, fun _ => rfl, fun _ _ => rfl, rfl⟩
  | change content =>
      simp only [treat_in_place_run hmode]
      cases hwrite : t.write path content.bytes storage with
      | ok u =>
          have hreceived := Tree.received_of_write hwrite
          exact ⟨_, _, _, rfl, rfl, hreceived.same_outline, fun q hq => hreceived.read_other hq,
            .rewritten, fun _ hfile => hreceived.read_same hfile⟩
      | error e =>
          cases e with
          | opening e =>
              exact ⟨_, _, _, rfl, rfl, fun _ => rfl, fun _ _ => rfl, .opening e, by simp⟩
          | writing e u =>
              have hreceived := (Tree.received_of_cut hwrite).2
              exact ⟨_, _, _, rfl, rfl, hreceived.same_outline, fun q hq => hreceived.read_other hq,
                .writing e, by simp⟩

/-- A result that a file has at its turn is the one that it has in the tree at the start, as long as
its path reads the same in both, and at the end of the run, as long as nothing else is written. -/
theorem MadeResult.congr {v w : Tree} {r : FileResult} (h : MadeResult f u v path r)
    (hread : u.read path = t.read path) (houtline : Tree.SameOutline u t)
    (hfinal : w.read path = v.read path) : MadeResult f t w path r := by
  unfold MadeResult at h ⊢
  rw [Tree.verdict_congr hread] at h
  cases hverdict : t.verdict f path with
  | crash => simp [hverdict] at h
  | fault fault => simpa [hverdict] using h
  | fits => simpa [hverdict] using h
  | change content =>
      simp only [hverdict] at h ⊢
      refine ⟨h.1, fun hr hfile => ?_⟩
      rw [hfinal]
      refine h.2 hr ?_
      obtain ⟨location, old, hlocate⟩ := hfile
      obtain ⟨hresolve, hfind⟩ := Tree.locate_eq_ok.1 hlocate
      obtain ⟨old', hfind'⟩ := houtline.symm.find_file hfind
      exact ⟨location, old',
        Tree.locate_eq_ok.2 ⟨(houtline.resolve_eq path).trans hresolve, hfind'⟩⟩

/-- A list of files of which no two are the same, in the mode that makes changes, from a tree `u`
in which the files are as in `t`. -/
theorem process_all_in_place (storage : Storage) (hmode : b.mode = .inPlace)
    (hf : b.formatter = Formatter.ofResult f)
    (hcrash : ∀ path ∈ paths, t.verdict f path ≠ .crash)
    (hdistinct : paths.Pairwise fun p q => ¬t.SameFile p q)
    (houtline : Tree.SameOutline u t) (hread : ∀ path ∈ paths, u.read path = t.read path) :
    ∃ results final logs,
      (b.processAll paths).run u storage = ⟨.finished (.ok results), final, logs, []⟩ ∧
      Tree.SameOutline final t ∧
      (∀ q, (∀ path ∈ paths, ¬t.SameFile path q) → final.read q = u.read q) ∧
      List.Forall₂ (fun path item => item.1 = path ∧ MadeResult f t final path item.2)
        paths results := by
  induction paths generalizing u with
  | nil => exact ⟨[], u, [], rfl, houtline, fun _ _ => rfl, .nil⟩
  | cons path rest ih =>
      have hhere := hread path List.mem_cons_self
      obtain ⟨hother, hrest⟩ := List.pairwise_cons.1 hdistinct
      have hcrash' : u.verdict f path ≠ .crash := by
        rw [Tree.verdict_congr hhere]
        exact hcrash path List.mem_cons_self
      obtain ⟨r, v, logs, hrun, hr, hout, hframe, hmade⟩ :=
        process_file_in_place storage hmode hf hcrash'
      -- The later files are read after this one as they were before it.
      have hframe' : ∀ q, ¬t.SameFile path q → v.read q = u.read q := fun q hq =>
        hframe q fun h => hq (houtline.same_file h)
      obtain ⟨results, final, logs', hrun', hout', hframe'', hresults⟩ :=
        ih (fun p hp => hcrash p (List.mem_cons_of_mem _ hp)) hrest (hout.trans houtline)
          fun p hp => (hframe' p (hother p hp)).trans (hread p (List.mem_cons_of_mem _ hp))
      -- This file is read at the end of the run as it was after its turn.
      have hfinal : final.read path = v.read path :=
        hframe'' path fun p hp h => hother p hp h.symm
      refine ⟨(path, r) :: results, final, logs ++ (faultRecords r ++ logs'), ?_, hout', ?_, ?_⟩
      · rw [process_all_cons hrun hr, hrun']
        rfl
      · intro q hq
        rw [hframe'' q fun p hp => hq p (List.mem_cons_of_mem _ hp),
          hframe' q (hq path List.mem_cons_self)]
      · exact .cons ⟨rfl, hmade.congr hhere houtline hfinal⟩ hresults

/-- A file that stops the program does so wherever it stands in a list of files of which no two are
the same, in the mode that makes changes. -/
theorem process_all_in_place_crash (storage : Storage) (hmode : b.mode = .inPlace)
    (hf : b.formatter = Formatter.ofResult f)
    (hdistinct : paths.Pairwise fun p q => ¬t.SameFile p q)
    (houtline : Tree.SameOutline u t) (hread : ∀ path ∈ paths, u.read path = t.read path)
    (h : ∃ path ∈ paths, t.verdict f path = .crash) :
    ((b.processAll paths).run u storage).result = .crashed := by
  induction paths generalizing u with
  | nil =>
      obtain ⟨path, hpath, -⟩ := h
      cases hpath
  | cons path rest ih =>
      obtain ⟨hother, hrest⟩ := List.pairwise_cons.1 hdistinct
      have hverdict := Tree.verdict_congr (hread path List.mem_cons_self) f
      by_cases hcrash : t.verdict f path = .crash
      · have hstop : ((b.processFile path).run u storage).result = .crashed := by
          rw [process_file_run hf, hverdict, hcrash]
        rw [process_all_crash hstop]
      · have hlater : ∃ p ∈ rest, t.verdict f p = .crash := by
          simpa only [List.exists_mem_cons_iff, hcrash, false_or] using h
        obtain ⟨r, v, logs, hrun, hr, hout, hframe, -⟩ :=
          process_file_in_place storage hmode hf (hverdict ▸ hcrash)
        have hread' : ∀ p ∈ rest, v.read p = t.read p := fun p hp =>
          (hframe p fun hsame => hother p hp (houtline.same_file hsame)).trans
            (hread p (List.mem_cons_of_mem _ hp))
        rw [process_all_cons hrun hr, ih hrest (hout.trans houtline) hread' hlater]
        rfl

/-- The results of a run are listed with the paths of the run. -/
theorem made_paths_eq {final : Tree} {results : List (Path × FileResult)}
    (h : List.Forall₂ (fun path item => item.1 = path ∧ MadeResult f t final path item.2)
      paths results) : results.map Prod.fst = paths := by
  induction h with
  | nil => rfl
  | cons hitem _ ih => rw [List.map_cons, hitem.1, ih]

/-- A result of a run is what its file came to. -/
theorem made_result_of_mem {final : Tree} {results : List (Path × FileResult)}
    (h : List.Forall₂ (fun path item => item.1 = path ∧ MadeResult f t final path item.2)
      paths results) {item : Path × FileResult} (hitem : item ∈ results) :
    MadeResult f t final item.1 item.2 := by
  induction h with
  | nil => cases hitem
  | cons hfirst _ ih =>
      rcases List.mem_cons.1 hitem with rfl | hrest
      · rw [hfirst.1]
        exact hfirst.2
      · exact ih hrest

/-- A file that was rewritten had to change, and holds its new content at the end. -/
theorem MadeResult.change_of_rewritten {final : Tree}
    (h : MadeResult f t final path (.ok .rewritten)) :
    ∃ content, t.verdict f path = .change content ∧
      (t.LeadsToFile path → final.read path = .ok content.bytes) := by
  unfold MadeResult at h
  cases hverdict : t.verdict f path with
  | crash => simp [hverdict] at h
  | fault fault => simp [hverdict] at h
  | fits => simp [hverdict] at h
  | change content =>
      simp only [hverdict] at h
      exact ⟨content, rfl, h.2 trivial⟩

/-- The results of a file in the two modes agree. -/
theorem MadeResult.agree {final : Tree} {r : FileResult} (h : MadeResult f t final path r) :
    Agree path (b.shownResult comparer f t path) r := by
  unfold MadeResult at h
  unfold shownResult
  cases hverdict : t.verdict f path with
  | crash => simp [hverdict] at h
  | fits =>
      have hr : r = .ok .unchanged := by simpa [hverdict] using h
      rw [hr]
      exact .unchanged
  | fault fault =>
      have hr : r = .error fault := by simpa [hverdict] using h
      rw [hr]
      rcases Tree.verdict_fault_cases hverdict with ⟨e, rfl⟩ | ⟨message, rfl⟩
      · exact .read e
      · exact .parse message
  | change content =>
      simp only [hverdict] at h
      refine .change ?_ h.1
      show ShowsChange path (previewResult path _)
      cases Handover.result b.host (b.comparison comparer path) t content.bytes with
      | ok value => exact .previewed
      | error reason => exact .fault reason

end Batch

/-! ## What a tool reads -/

/-- A command that compares files is no question for the version. -/
theorem Comparer.comparison_args_ne (c : Comparer) (color : Bool) (path formatted : Path) :
    (c.comparison color path formatted).args ≠ ToolBehavior.versionArgs := by
  intro h
  have hlength := congrArg List.length h
  cases c <;> simp [comparison, fixedOptions, ToolBehavior.versionArgs] at hlength

namespace Batch

variable {b : Batch} {comparer : Comparer} {f : Text → FormatResult} {t : Tree}
  {storage : Storage} {path : Path}

/-- The tool of a batch, started for a file that has to change, answers to its new content. -/
theorem process_file_preview_answer (storage : Storage) (hmode : b.mode = .preview)
    (hcomparer : b.settings.comparer = some comparer) (hf : b.formatter = Formatter.ofResult f)
    {content : Content} (hverdict : t.verdict f path = .change content)
    (hpipe : b.host.pipeFault = none) {behavior : ToolBehavior}
    (hlaunch : b.host.tools.launch (b.comparison comparer path) = .ok behavior) :
    let answer := behavior.answer (b.comparison comparer path) t content.bytes
    ((b.processFile path).run t storage).output = answer.1 ∧
      b.shownResult comparer f t path =
        previewResult path (PreviewFault.ofExit answer.2.code?) := by
  intro answer
  have hrun : behavior.run (b.comparison comparer path) t content.bytes = answer :=
    if_neg fun h => Comparer.comparison_args_ne _ _ _ _ h.2
  rw [process_file_run hf, shownResult, hverdict]
  simp only [treat_preview_run hmode hcomparer, Handover.printed, Handover.result, hpipe, hlaunch,
    hrun, and_self]

end Batch

/-- A batch with the formatter of a function on texts that refuses some of them. -/
def Batch.ofFunction (f : Text → Except Text Text) (settings : PreviewSettings) (host : Host)
    (mode : RunMode) : Batch :=
  ⟨Formatter.ofFunction f, mode, settings, host⟩

/-- A batch with the formatter of a function on texts that refuses some of them and stops the
program on others. -/
def Batch.ofResult (f : Text → FormatResult) (settings : PreviewSettings) (host : Host)
    (mode : RunMode) : Batch :=
  ⟨Formatter.ofResult f, mode, settings, host⟩

section

variable (f : Text → FormatResult) (settings : PreviewSettings) (host : Host)

/-- Showing and making the changes of one list of files, from one tree. Both runs are stopped, and
only by a text that stops the formatter, or both finish. Then their results agree at every position,
the output is what the tool prints for each position alone, and where the tool was started for a
file that the other run rewrites, the tool read what that file holds at the end of the other run:
what it printed, and the result by its exit, are its answer to that. -/
theorem preview_shows_what_is_made {comparer : Comparer} (t : Tree) (storage : Storage)
    (paths : List Path) (hcomparer : settings.comparer = some comparer)
    (hdistinct : paths.Pairwise fun p q => ¬t.SameFile p q) :
    let showing := Batch.ofResult f settings host .preview
    let making := Batch.ofResult f settings host .inPlace
    let showingRun := (showing.process paths).run t storage
    let makingRun := (making.process paths).run t storage
    (showingRun.result = .crashed ↔ makingRun.result = .crashed) ∧
      (showingRun.result = .crashed → ∃ path ∈ paths, ∃ text ∈ t.text? path, f text = .crash) ∧
      (showingRun.result ≠ .crashed → ∃ shown made : Report,
        showingRun.result = .finished (.ok shown) ∧ makingRun.result = .finished (.ok made) ∧
        shown.results.map Prod.fst = paths ∧ made.results.map Prod.fst = paths ∧
        List.Forall₂ (fun s m => Agree s.1 s.2 m.2) shown.results made.results ∧
        showingRun.output =
          paths.flatMap (fun path => ((showing.processFile path).run t storage).output) ∧
        ∀ path, (path, .ok .rewritten) ∈ made.results → t.LeadsToFile path →
          host.pipeFault = none →
          ∀ behavior, host.tools.launch (showing.comparison comparer path) = .ok behavior →
            ∃ data, makingRun.tree.read path = .ok data ∧
              let answer := behavior.answer (showing.comparison comparer path) t data
              ((showing.processFile path).run t storage).output = answer.1 ∧
                (path, Batch.previewResult path (PreviewFault.ofExit answer.2.code?)) ∈
                  shown.results) := by
  intro showing making showingRun makingRun
  simp only [showingRun, makingRun, Batch.process_run]
  have hf : showing.formatter = Formatter.ofResult f := rfl
  have hf' : making.formatter = Formatter.ofResult f := rfl
  by_cases hstops : ∃ path ∈ paths, t.verdict f path = .crash
  · -- The file that stops one run stops the other one.
    have hshown := Batch.process_all_preview_crash storage rfl hcomparer hf hstops
    have hmade := Batch.process_all_in_place_crash storage rfl hf' hdistinct (fun _ => rfl)
      (fun _ _ => rfl) hstops
    obtain ⟨path, hpath, hcrash⟩ := hstops
    obtain ⟨text, htext, hformat⟩ := Tree.text_of_verdict_crash hcrash
    rw [hshown, hmade]
    exact ⟨Iff.rfl, fun _ => ⟨path, hpath, text, htext, hformat⟩, fun h => absurd rfl h⟩
  · have hcrash : ∀ path ∈ paths, t.verdict f path ≠ .crash := fun path hpath h =>
      hstops ⟨path, hpath, h⟩
    obtain ⟨hshown, houtput⟩ := Batch.process_all_preview storage rfl hcomparer hf hcrash
    obtain ⟨results, final, logs, hrun, -, -, hmade⟩ := Batch.process_all_in_place storage rfl hf'
      hcrash hdistinct (fun _ => rfl) fun _ _ => rfl
    rw [hshown, houtput, hrun]
    refine ⟨by simp [Batch.reported], (fun h => nomatch h), fun _ => ⟨⟨_⟩, ⟨results⟩, rfl, rfl, ?_,
      Batch.made_paths_eq hmade, ?_, rfl, ?_⟩⟩
    · simp [Function.comp_def]
    · refine List.forall₂_map_left_iff.2 (hmade.imp fun path item h => ?_)
      exact h.2.agree
    · intro path hpath hfile hpipe behavior hlaunch
      obtain ⟨content, hverdict, hcontent⟩ :=
        (Batch.made_result_of_mem hmade hpath).change_of_rewritten
      obtain ⟨hprinted, hresult⟩ := Batch.process_file_preview_answer storage rfl
        hcomparer hf hverdict hpipe hlaunch
      refine ⟨content.bytes, hcontent hfile, hprinted, ?_⟩
      rw [← hresult]
      refine List.mem_map_of_mem ?_
      rw [← Batch.made_paths_eq hmade]
      exact List.mem_map_of_mem hpath

end

/-- A file that has to change and one that is in canonical form, shown and made. -/
theorem preview_of_two_files :
    let t : Tree := ⟨[([Utf8.encode ['q']], .file (Utf8.encode ['a', ' '])),
      ([Utf8.encode ['r']], .file (Utf8.encode ['a', '\n']))]⟩
    let host : Host := ⟨⟨some (.executable (.echoing [] (.code 0) (.code 1))), none⟩, none⟩
    let settings : PreviewSettings := ⟨some .diff, false⟩
    let batch := Batch.ofResult (fun _ => .formatted ['a']) settings host
    let q := Utf8.encode ['q']
    let r := Utf8.encode ['r']
    let showing := ((batch .preview).process [q, r]).run t
    let making := ((batch .inPlace).process [q, r]).run t
    settings.comparer = some .diff ∧ ([q, r].Pairwise fun p q => ¬t.SameFile p q) ∧
      showing.result = .finished (.ok ⟨[(q, .ok .previewed), (r, .ok .unchanged)]⟩) ∧
      making.result = .finished (.ok ⟨[(q, .ok .rewritten), (r, .ok .unchanged)]⟩) ∧
      showing.output = ToolBehavior.transcript ((batch .preview).comparison .diff q)
        (Utf8.encode ['a', '\n']) ∧
      making.tree.read q = .ok (Utf8.encode ['a', '\n']) := by
  intro t host settings batch q r showing making
  have hdistinct : [q, r].Pairwise fun p q => ¬t.SameFile p q := by
    refine List.pairwise_pair.2 ?_
    rintro ⟨location, content, -, hq, hr⟩
    have hq' : t.resolve q = .ok (.inside [q]) := by decide
    have hr' : t.resolve r = .ok (.inside [r]) := by decide
    rw [hq'] at hq
    rw [hr', ← hq] at hr
    exact absurd hr (by decide)
  have hshowing : showing.result =
      .finished (.ok ⟨[(q, .ok .previewed), (r, .ok .unchanged)]⟩) := rfl
  have hmaking : making.result =
      .finished (.ok ⟨[(q, .ok .rewritten), (r, .ok .unchanged)]⟩) := rfl
  have hread : making.tree.read q = .ok (Utf8.encode ['a', '\n']) := by decide
  have hlaunch : host.tools.launch ((batch .preview).comparison .diff q) =
      .ok (.echoing [] (.code 0) (.code 1)) := rfl
  obtain ⟨-, -, hends⟩ := preview_shows_what_is_made (fun _ => .formatted ['a']) settings host t
    .roomy [q, r] rfl hdistinct
  obtain ⟨shown, made, -, hmade, -, -, -, houtput, hreads⟩ := hends fun h => by
    rw [hshowing] at h
    cases h
  rw [hmaking] at hmade
  cases hmade
  obtain ⟨data, hdata, hprinted, -⟩ :=
    hreads q List.mem_cons_self ⟨[q], _, rfl⟩ rfl _ hlaunch
  rw [hread] at hdata
  cases hdata
  refine ⟨rfl, hdistinct, hshowing, hmaking, houtput.trans ?_, hread⟩
  rw [List.flatMap_cons, hprinted]
  decide

/-- What the null device is given is lost: the tool reads a new content that nothing holds at the
end of the run that makes the change. -/
theorem null_device_keeps_no_preview :
    let t : Tree := ⟨[([Utf8.encode ['n']], .link (Utf8.encode "/dev/null".toList))]⟩
    let host : Host := ⟨⟨some (.executable (.echoing [] (.code 0) (.code 1))), none⟩, none⟩
    let batch := Batch.ofResult (fun _ => .formatted []) ⟨some .diff, false⟩ host
    let path := Utf8.encode ['n']
    (((batch .preview).process [path]).run t).result = .finished (.ok ⟨[(path, .ok .previewed)]⟩) ∧
      (((batch .inPlace).process [path]).run t).result =
        .finished (.ok ⟨[(path, .ok .rewritten)]⟩) ∧
      (((batch .preview).process [path]).run t).output =
        ToolBehavior.transcript ((batch .preview).comparison .diff path) (Utf8.encode ['\n']) ∧
      (((batch .inPlace).process [path]).run t).tree.read path = .ok [] := by
  refine ⟨rfl, rfl, by decide, by decide⟩

end QueryTidy
