import QueryTidy.Proofs.Run.Concat

/-!
# Runs that end early

A run ends before its last file only because there is no tool to show changes with, or because a
text stops the formatter. Where there is no tool, a run goes through all files that need not change
(`Batch.process_all_passes`) and ends at the first one that has to (`Batch.process_all_halts`).
Everywhere else it ends with a report (`Batch.process_all_equipped`). So it is the files, and not
their order, that decide whether a run is fatal (`Batch.fatal_iff_change_without_comparer`).
-/

namespace QueryTidy.Batch

open QueryTidy.Action

variable {b : Batch} {f : Text → FormatResult} {t : Tree} {path : Path} {paths front : List Path}
  {content : Content} {storage : Storage}

/-- The run ended with a fatal fault instead of a report. -/
def EndsFatally (run : Effect (Except Fault Report)) : Prop :=
  ∃ fault, run.result = .finished (.error fault)

/-- None of the files has to change, and none stops the formatter. -/
def Passes (f : Text → FormatResult) (t : Tree) (paths : List Path) : Prop :=
  ∀ path ∈ paths, t.change? f path = none ∧ t.verdict f path ≠ .crash

/-- A file that need not change is left alone, with or without a fault, and the run goes on. -/
theorem process_file_passes (hf : b.formatter = Formatter.ofResult f)
    (hchange : t.change? f path = none) (hcrash : t.verdict f path ≠ .crash) :
    ∃ r logs, (b.processFile path).run t storage = ⟨.finished r, t, logs, []⟩ ∧
      endsRun r = false := by
  rw [process_file_run hf]
  cases hverdict : t.verdict f path with
  | crash => exact absurd hverdict hcrash
  | fault fault => exact ⟨_, _, rfl, Tree.verdict_fault_not_fatal hverdict⟩
  | fits => exact ⟨_, _, rfl, rfl⟩
  | change content => exact absurd hverdict (Tree.verdict_ne_change hchange content)

/-- A run over files that need not change ends with a result for each and leaves the tree alone. -/
theorem process_all_passes (hf : b.formatter = Formatter.ofResult f) (h : Passes f t paths) :
    ∃ results logs,
      (b.processAll paths).run t storage = ⟨.finished (.ok results), t, logs, []⟩ := by
  induction paths with
  | nil => exact ⟨[], [], rfl⟩
  | cons path rest ih =>
      obtain ⟨⟨hchange, hcrash⟩, hrest⟩ := List.forall_mem_cons.1 h
      obtain ⟨r, logs, hfile, hends⟩ := process_file_passes hf hchange hcrash
      obtain ⟨results, logs', hall⟩ := ih hrest
      refine ⟨(path, r) :: results, logs ++ (faultRecords r ++ logs'), ?_⟩
      rw [process_all_cons hfile hends, hall]
      rfl

/-- Without a tool to show changes with, the first file that has to change ends the run, whatever
files come after it. -/
theorem process_all_halts (hf : b.formatter = Formatter.ofResult f) (hmode : b.mode = .preview)
    (hcomparer : b.settings.comparer = none) (hfront : Passes f t front)
    (hchange : t.change? f path = some content) (later : List Path) :
    (b.processAll (front ++ path :: later)).run t storage =
      ⟨.finished (.error .noComparer), t,
        ((b.processAll front).run t storage).logs ++ [diffingRecord path], []⟩ := by
  obtain ⟨results, logs, hrun⟩ := process_all_passes hf hfront
  have hfile : (b.processFile path).run t storage =
      ⟨.finished (.error .noComparer), t, [diffingRecord path], []⟩ := by
    rw [process_file_run hf, Tree.verdict_change_iff.2 hchange]
    exact treat_without_comparer hmode hcomparer path content t
  rw [process_all_append (by rw [hrun]), hrun]
  simp only
  rw [process_all_fatal (by rw [hfile]) rfl, hfile]
  rfl

/-- A file that stops the formatter after files that need not change stops the program. -/
theorem process_all_stops (hf : b.formatter = Formatter.ofResult f) (hfront : Passes f t front)
    (hcrash : t.verdict f path = .crash) (later : List Path) :
    ((b.processAll (front ++ path :: later)).run t storage).result = .crashed := by
  obtain ⟨results, logs, hrun⟩ := process_all_passes hf hfront
  have hfile : (b.processFile path).run t storage = ⟨.crashed, t, [], []⟩ := by
    rw [process_file_run hf, hcrash]
  rw [process_all_append (by rw [hrun]), hrun]
  simp only
  rw [process_all_crash (by rw [hfile])]
  rfl

/-- Either no file of a list has to change or stops the formatter, or there is a first one. -/
theorem passes_or_first (f : Text → FormatResult) (t : Tree) (paths : List Path) :
    Passes f t paths ∨ ∃ front path back, paths = front ++ path :: back ∧ Passes f t front ∧
      (t.change? f path ≠ none ∨ t.verdict f path = .crash) := by
  induction paths with
  | nil => exact .inl fun _ h => nomatch h
  | cons path rest ih =>
      by_cases hpath : t.change? f path = none ∧ t.verdict f path ≠ .crash
      · rcases ih with hrest | ⟨front, next, back, rfl, hfront, hnext⟩
        · exact .inl (List.forall_mem_cons.2 ⟨hpath, hrest⟩)
        · exact .inr ⟨path :: front, next, back, rfl, List.forall_mem_cons.2 ⟨hpath, hfront⟩, hnext⟩
      · refine .inr ⟨[], path, rest, rfl, (fun _ h => nomatch h), ?_⟩
        by_cases hchange : t.change? f path = none
        · exact .inr (by simpa [hchange] using hpath)
        · exact .inl hchange

/-- A run that makes changes, or that has a tool to show them with, ends with a report unless it
stops. -/
theorem process_all_equipped (hf : b.formatter = Formatter.ofResult f)
    (hequipped : b.mode = .inPlace ∨ b.settings.comparer ≠ none) (paths : List Path) (t : Tree)
    (fault : Fault) : ((b.processAll paths).run t storage).result ≠ .finished (.error fault) := by
  induction paths generalizing t with
  | nil => exact fun h => nomatch h
  | cons path rest ih =>
      have hfirst := first_file b path rest t storage
      generalize (b.processAll (path :: rest)).run t storage = whole at hfirst
      cases hfirst with
      | crash => exact fun h => nomatch h
      | fatal last hfile hends =>
          -- A file that ends the run does not go on.
          have hcrash : t.verdict f path ≠ .crash := by
            intro hverdict
            rw [process_file_run hf, hverdict] at hfile
            cases hfile
          obtain ⟨r, hresult, hgoes⟩ := process_file_goes_on hf hequipped hcrash
          rw [hfile] at hresult
          cases hresult
          have hfatal : endsRun (.error last) = true := hends
          rw [hfatal] at hgoes
          cases hgoes
      | goesOn r =>
          intro h
          cases hrest : ((b.processAll rest).run
              ((b.processFile path).run t storage).tree storage).result with
          | crashed => simp [hrest, withResult] at h
          | finished value =>
              cases value with
              | ok results => simp [hrest, withResult] at h
              | error last =>
                  obtain rfl : last = fault := by simpa [hrest, withResult] using h
                  exact ih _ hrest

/-- The treatment of a file that has to change never stops the program. -/
theorem treat_finishes (b : Batch) (path : Path) (content : Content) (t : Tree) :
    ((b.treat path content).run t storage).result ≠ .crashed := by
  cases hmode : b.mode with
  | inPlace =>
      rw [treat_in_place_run hmode]
      split <;> exact fun h => nomatch h
  | preview =>
      cases hcomparer : b.settings.comparer with
      | none =>
          rw [treat_without_comparer hmode hcomparer]
          exact fun h => nomatch h
      | some comparer =>
          rw [treat_preview_run hmode hcomparer]
          exact fun h => nomatch h

/-- A file stops the program only with a text that stops the formatter. -/
theorem text_of_process_file_crash (hf : b.formatter = Formatter.ofResult f)
    (h : ((b.processFile path).run t storage).result = .crashed) :
    ∃ text, t.text? path = some text ∧ f text = .crash := by
  rw [process_file_run hf] at h
  cases hverdict : t.verdict f path with
  | crash => exact Tree.text_of_verdict_crash hverdict
  | change content =>
      rw [hverdict] at h
      exact absurd h (treat_finishes b path content t)
  | _ => simp [hverdict] at h

/-- A run stops the program only on a text that stops the formatter. -/
theorem text_of_process_all_crash (hf : b.formatter = Formatter.ofResult f)
    (h : ((b.processAll paths).run t storage).result = .crashed) : ∃ text, f text = .crash := by
  obtain ⟨path, -, u, hfile⟩ := file_of_crash h
  obtain ⟨text, -, hformat⟩ := text_of_process_file_crash hf hfile
  exact ⟨text, hformat⟩

/-- What becomes of a run without a tool to show changes with: it ends at the first file that has to
change, stops at a file that stops the formatter, or reports a result for each file. -/
theorem process_unequipped (hf : b.formatter = Formatter.ofResult f) (hmode : b.mode = .preview)
    (hcomparer : b.settings.comparer = none) (paths : List Path) (t : Tree) (storage : Storage) :
    (∃ front path back, paths = front ++ path :: back ∧ Passes f t front ∧
      t.change? f path ≠ none ∧ ∀ later, (b.process (front ++ path :: later)).run t storage =
        ⟨.finished (.error .noComparer), t,
          ((b.process front).run t storage).logs ++ [diffingRecord path], []⟩) ∨
    ((b.process paths).run t storage).result = .crashed ∨
    (Passes f t paths ∧
      ∃ report, ((b.process paths).run t storage).result = .finished (.ok report)) := by
  rcases passes_or_first f t paths with hpasses | ⟨front, path, back, rfl, hfront, hpath⟩
  · obtain ⟨results, logs, hall⟩ := process_all_passes (b := b) hf hpasses
    refine .inr (.inr ⟨hpasses, ⟨results⟩, ?_⟩)
    rw [process_run, hall]
    rfl
  · rcases hpath with hchange | hcrash
    · obtain ⟨content, hcontent⟩ := Option.ne_none_iff_exists'.1 hchange
      refine .inl ⟨front, path, back, rfl, hfront, hchange, fun later => ?_⟩
      rw [process_run, process_run, process_all_halts hf hmode hcomparer hfront hcontent later]
      rfl
    · refine .inr (.inl ?_)
      rw [process_run, process_all_stops hf hfront hcrash back]
      rfl

/-- A run ends with a fatal fault only where there is no tool to show changes with. -/
theorem unequipped_of_fatal (hf : b.formatter = Formatter.ofResult f)
    (h : EndsFatally ((b.process paths).run t storage)) :
    b.mode = .preview ∧ b.settings.comparer = none := by
  obtain ⟨fault, hfault⟩ := h
  rw [process_run, reported_error_iff] at hfault
  by_cases hequipped : b.mode = .inPlace ∨ b.settings.comparer ≠ none
  · exact absurd hfault (process_all_equipped hf hequipped paths t fault)
  · obtain ⟨hmode, hcomparer⟩ := not_or.1 hequipped
    refine ⟨?_, Classical.not_not.1 hcomparer⟩
    cases h : b.mode with
    | inPlace => exact absurd h hmode
    | preview => rfl

/-- A run that does not stop is fatal exactly if there is no tool to show changes with and some file
has to change. -/
theorem ends_fatally_iff (hf : b.formatter = Formatter.ofResult f)
    (hrun : ((b.process paths).run t storage).result ≠ .crashed) :
    EndsFatally ((b.process paths).run t storage) ↔
      (b.mode = .preview ∧ b.settings.comparer = none) ∧
        ∃ path ∈ paths, t.change? f path ≠ none := by
  constructor
  · intro hfatal
    obtain ⟨hmode, hcomparer⟩ := unequipped_of_fatal hf hfatal
    refine ⟨⟨hmode, hcomparer⟩, ?_⟩
    rcases process_unequipped hf hmode hcomparer paths t storage with
      ⟨front, path, back, rfl, -, hchange, -⟩ | hcrash | ⟨-, report, hreport⟩
    · exact ⟨path, by simp, hchange⟩
    · exact absurd hcrash hrun
    · obtain ⟨fault, hfault⟩ := hfatal
      rw [hreport] at hfault
      cases hfault
  · rintro ⟨⟨hmode, hcomparer⟩, path, hpath, hchange⟩
    rcases process_unequipped hf hmode hcomparer paths t storage with
      ⟨front, first, back, rfl, -, -, hhalts⟩ | hcrash | ⟨hpasses, -⟩
    · exact ⟨.noComparer, by rw [hhalts]⟩
    · exact absurd hcrash hrun
    · exact absurd (hpasses path hpath).1 hchange

/-- A run ends with a fatal fault exactly if changes are to be shown, there is no tool to show them
with, and some file of the list has to change. Then the fault says that there is no tool, the tree
is left as it is and nothing is printed; the records are those of the run over the files before the
first one that has to change, which need not change themselves, and the one that announces that
file. What comes after it is of no account. So the order of the files does not matter, and every
other run ends with a report that has a result for each path, in order. (A formatter that stops the
program on some text can keep a run from ending at all.) -/
theorem fatal_iff_change_without_comparer (hf : b.formatter = Formatter.ofResult f)
    (paths : List Path) (t : Tree) (storage : Storage) :
    let run := fun paths => (b.process paths).run t storage
    let unequipped := b.mode = .preview ∧ b.settings.comparer = none
    ((run paths).result = .crashed → ∃ text, f text = .crash) ∧
      ((run paths).result ≠ .crashed →
        (EndsFatally (run paths) ↔ unequipped ∧ ∃ path ∈ paths, t.change? f path ≠ none)) ∧
      (EndsFatally (run paths) → ∃ front path back, paths = front ++ path :: back ∧
        (∀ p ∈ front, t.change? f p = none) ∧ t.change? f path ≠ none ∧
        (∃ report, (run front).result = .finished (.ok report)) ∧
        ∀ later, run (front ++ path :: later) =
          ⟨.finished (.error .noComparer), t, (run front).logs ++ [diffingRecord path], []⟩) ∧
      (∀ others, others.Perm paths → (run others).result ≠ .crashed →
        (run paths).result ≠ .crashed →
          (EndsFatally (run others) ↔ EndsFatally (run paths))) ∧
      ((run paths).result ≠ .crashed → ¬EndsFatally (run paths) →
        ∃ report, (run paths).result = .finished (.ok report) ∧
          report.results.map Prod.fst = paths) := by
  intro run unequipped
  refine ⟨fun hcrash => ?_, ends_fatally_iff hf, fun hfatal => ?_,
    fun others hperm hothers hpaths => ?_, fun hrun hnot => ?_⟩
  · change ((b.process paths).run t storage).result = .crashed at hcrash
    rw [process_run, reported_crashed_iff] at hcrash
    exact text_of_process_all_crash hf hcrash
  · obtain ⟨hmode, hcomparer⟩ := unequipped_of_fatal hf hfatal
    rcases process_unequipped hf hmode hcomparer paths t storage with
      ⟨front, path, back, hpaths, hfront, hchange, hhalts⟩ | hcrash | ⟨-, report, hreport⟩
    · obtain ⟨results, logs, hall⟩ := process_all_passes (b := b) hf hfront
      refine ⟨front, path, back, hpaths, fun p hp => (hfront p hp).1, hchange, ⟨⟨results⟩, ?_⟩,
        hhalts⟩
      show ((b.process front).run t storage).result = _
      rw [process_run, hall]
      rfl
    · obtain ⟨fault, hfault⟩ := hfatal
      rw [hcrash] at hfault
      cases hfault
    · obtain ⟨fault, hfault⟩ := hfatal
      rw [hreport] at hfault
      cases hfault
  · rw [ends_fatally_iff hf hothers, ends_fatally_iff hf hpaths]
    simp only [hperm.mem_iff]
  · cases hresult : (run paths).result with
    | crashed => exact absurd hresult hrun
    | finished value =>
        cases value with
        | error fault => exact absurd ⟨fault, hresult⟩ hnot
        | ok report =>
            refine ⟨report, rfl, ?_⟩
            change ((b.process paths).run t storage).result = .finished (.ok report) at hresult
            rw [process_run, reported_ok_iff] at hresult
            exact process_all_paths hresult

/-- Without a tool to show changes with, a run over a file in canonical form, a path that leads
nowhere, a file that has to change and the first file once more ends at the third path. -/
theorem third_path_is_fatal :
    let q := Utf8.encode ['q']
    let r := Utf8.encode ['r']
    let m := Utf8.encode ['m']
    let t : Tree := ⟨[([q], .file (Utf8.encode ['a', '\n'])), ([r], .file [])]⟩
    let b : Batch := ⟨Formatter.ofFunction fun _ => .ok ['a'], .preview, ⟨none, false⟩,
      ⟨⟨none, none⟩, none⟩⟩
    EndsFatally ((b.process [q, m, r, q]).run t) ∧
      ((b.process [q, m, r, q]).run t).logs = [fitsRecord q,
        ⟨.error, .formatting, (Fault.read m .notFound).message⟩, diffingRecord r] ∧
      ¬EndsFatally ((b.process [q, m, q]).run t) := by
  intro q r m t b
  have hall := fatal_iff_change_without_comparer (b := b) (Formatter.of_function_eq _)
  have hgoes : ∀ paths, ((b.process paths).run t).result ≠ .crashed := by
    intro paths hcrash
    obtain ⟨text, htext⟩ := (hall paths t .roomy).1 hcrash
    cases htext
  refine ⟨?_, by decide +kernel, ?_⟩
  · exact ((hall [q, m, r, q] t .roomy).2.1 (hgoes _)).2 ⟨⟨rfl, rfl⟩, r, by simp, by decide +kernel⟩
  · intro hfatal
    obtain ⟨-, path, hpath, hchange⟩ := ((hall [q, m, q] t .roomy).2.1 (hgoes _)).1 hfatal
    have hnone : ∀ p ∈ [q, m, q],
        t.change? (fun text => FormatResult.ofExcept (.ok ['a'])) p = none := by
      decide +kernel
    exact hchange (hnone path hpath)

end QueryTidy.Batch
