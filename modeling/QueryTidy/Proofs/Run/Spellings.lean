import QueryTidy.Proofs.Run.Beside
import QueryTidy.Proofs.Run.Order
import QueryTidy.Proofs.Run.Settled
import QueryTidy.Proofs.Run.Unbroken

/-!
# Files with many spellings

One file is reached by many paths: through symbolic links, with dots and slashes that lead nowhere,
and by the same path given again. A run leaves the outline of the tree as it is, so a path leads to
the same file at all times (`Batch.file_process_all`), and what happens to the file is told by the
bytes at its location. Bytes that the formatter refuses or that fit are left there by every run
(`Batch.get_process_all`); other bytes make way for some that fit when the file is treated for the
first time (`Batch.process_file_makes_fit`). So, with a stable formatter, a run rewrites a file at
most once, and later runs find it as it has to be (`Batch.each_file_is_rewritten_at_most_once`).
-/

namespace QueryTidy

open QueryTidy.Action

/-! ## Locations of files -/

namespace Tree

variable {t u : Tree} {p q : Path} {location other : Location} {data : Bytes}

/-- The file at a location fits. -/
def FitsAt (f : Text → FormatResult) (t : Tree) (location : Location) : Prop :=
  ∃ data, t.get? location = some (.file data) ∧ Fits f data

/-- A path to a file that fits has the verdict that says so. -/
theorem FitsAt.verdict {f : Text → FormatResult} (h : t.FitsAt f location)
    (hfile : t.file? p = some location) : t.verdict f p = .fits := by
  obtain ⟨data, hget, hfits⟩ := h
  exact verdict_fits_iff_read.2 ⟨data, read_of_file hfile hget, hfits⟩

end Tree

/-! ## Bytes of files -/

/-- The function leaves what it returns as it is, when a line end is added. -/
def Stable (f : Text → Except Text Text) : Prop :=
  ∀ s t, f s = .ok t → f (t ++ ['\n']) = .ok t

/-- The bytes of a file that has no new content, whatever its path. -/
def Rests (f : Text → FormatResult) (data : Bytes) : Prop :=
  ∀ path content, Verdict.ofBytes f path data ≠ .change content

/-- The result of a file that has no new content. -/
def restResult (f : Text → FormatResult) (path : Path) (data : Bytes) : FileResult :=
  match Verdict.ofBytes f path data with
  | .fault fault => .error fault
  | _ => .ok .unchanged

/-- The verdict on bytes that fit says so. -/
theorem Fits.verdict {f : Text → FormatResult} {data : Bytes} (h : Fits f data) (path : Path) :
    Verdict.ofBytes f path data = .fits := by
  obtain ⟨text, hdecode, shown, hformat, rfl⟩ := h
  simp [Verdict.ofBytes, hdecode, hformat, Content.changes]

/-- Bytes that fit are left alone. -/
theorem Fits.rests {f : Text → FormatResult} {data : Bytes} (h : Fits f data) : Rests f data := by
  intro path content hchange
  rw [h.verdict] at hchange
  cases hchange

/-- With a stable function, the bytes of a file are refused with one message, whatever the path of
the file, or they fit, or they make way for a content that fits. -/
theorem bytes_cases {f : Text → Except Text Text} (hstable : Stable f) (data : Bytes) :
    (∃ message, ∀ path, Verdict.ofBytes (fun text => FormatResult.ofExcept (f text)) path data =
      .fault (.parse path message)) ∨
    Fits (fun text => FormatResult.ofExcept (f text)) data ∨
    ∃ content : Content, Fits (fun text => FormatResult.ofExcept (f text)) content.bytes ∧
      ∀ path, Verdict.ofBytes (fun text => FormatResult.ofExcept (f text)) path data =
        .change content := by
  cases hdecode : Utf8.decode data with
  | error e => exact .inl ⟨_, fun path => by simp only [Verdict.ofBytes, hdecode]; rfl⟩
  | ok text =>
      cases hformat : f text with
      | error message =>
          exact .inl ⟨message, fun path => by
            simp only [Verdict.ofBytes, hdecode, hformat, FormatResult.ofExcept]⟩
      | ok shown =>
          by_cases hdata : data = (Content.ofText shown).bytes
          · exact .inr (.inl ⟨text, hdecode, shown, by simp only [hformat, FormatResult.ofExcept],
              hdata.symm⟩)
          · refine .inr (.inr ⟨Content.ofText shown, ?_, fun path => ?_⟩)
            · exact fits_of_text (by simp only [hstable text shown hformat, FormatResult.ofExcept])
            · simp [Verdict.ofBytes, hdecode, hformat, FormatResult.ofExcept, Content.changes,
                hdata]

/-! ## What happens at one location -/

namespace Batch

variable {b : Batch} {f : Text → FormatResult} {t u : Tree} {path : Path} {paths : List Path}
  {location : Location} {data : Bytes} {content : Content} {results : List (Path × FileResult)}

/-- What the treatment of every file keeps, a run keeps, however it ends. -/
theorem process_all_keeps {P : Tree → Prop}
    (hstep : ∀ path u, P u → P ((b.processFile path).run u).tree) (paths : List Path) (h : P t) :
    P ((b.processAll paths).run t).tree := by
  induction paths generalizing t with
  | nil => exact h
  | cons path rest ih =>
      have hfirst := first_file b path rest t .roomy
      generalize (b.processAll (path :: rest)).run t = whole at hfirst
      cases hfirst with
      | crash => exact hstep path t h
      | fatal => exact hstep path t h
      | goesOn => exact ih (hstep path t h)

/-- A run leaves every path leading to the file that it led to. -/
theorem file_process_all (hf : b.formatter = Formatter.ofResult f) (paths : List Path) (t : Tree)
    (p : Path) : ((b.processAll paths).run t).tree.file? p = t.file? p := by
  have hkeeps : Tree.SameOutline ((b.processAll paths).run t).tree t :=
    process_all_keeps (P := fun u => Tree.SameOutline u t)
      (fun path u h => (same_outline_process_file hf path u).trans h) paths fun _ => rfl
  exact hkeeps.file_eq p

/-- The verdict on a file is the one on the bytes at its location. -/
theorem verdict_of_file (hfile : t.file? path = some location)
    (hget : t.get? location = some (.file data)) :
    t.verdict f path = Verdict.ofBytes f path data := by
  unfold Tree.verdict
  rw [Tree.read_of_file hfile hget]

/-- Bytes without a new content stay at their location, whatever file is treated. -/
theorem get_process_file (hf : b.formatter = Formatter.ofResult f) (hrests : Rests f data)
    (path : Path) (hget : t.get? location = some (.file data)) :
    ((b.processFile path).run t).tree.get? location = some (.file data) := by
  by_cases hfile : t.file? path = some location
  · have hchange : t.change? f path = none := by
      refine Option.eq_none_iff_forall_ne_some.2 fun content hcontent => hrests path content ?_
      rw [← verdict_of_file hfile hget, Tree.verdict_change_iff.2 hcontent]
    rw [process_file_tree hf, refill_of_no_change hchange]
    exact hget
  · rw [get_process_file_other hf hfile, hget]

/-- Bytes without a new content stay at their location in every run. -/
theorem get_process_all (hf : b.formatter = Formatter.ofResult f) (hrests : Rests f data)
    (paths : List Path) (hget : t.get? location = some (.file data)) :
    ((b.processAll paths).run t).tree.get? location = some (.file data) :=
  process_all_keeps (P := fun u => u.get? location = some (.file data))
    (fun path _ => get_process_file hf hrests path) paths hget

/-- The result of a file without a new content depends on its bytes. -/
theorem process_file_at_rest (hf : b.formatter = Formatter.ofResult f) (hrests : Rests f data)
    (hfile : t.file? path = some location) (hget : t.get? location = some (.file data))
    {r : FileResult} (hresult : ((b.processFile path).run t).result = .finished r) :
    r = restResult f path data := by
  rw [process_file_run hf, verdict_of_file hfile hget] at hresult
  unfold restResult
  cases hverdict : Verdict.ofBytes f path data with
  | change content => exact absurd hverdict (hrests path content)
  | crash => simp [hverdict] at hresult
  | fault fault => simpa [hverdict, eq_comm] using hresult
  | fits => simpa [hverdict, eq_comm] using hresult

/-- In a run, all results of a file without a new content depend on its bytes. -/
theorem process_all_at_rest (hf : b.formatter = Formatter.ofResult f) (hrests : Rests f data)
    (hget : t.get? location = some (.file data))
    (hrun : ((b.processAll paths).run t).result = .finished (.ok results)) :
    ∀ item ∈ results, t.file? item.1 = some location → item.2 = restResult f item.1 data := by
  induction paths generalizing t results with
  | nil =>
      cases hrun
      exact fun _ hitem => nomatch hitem
  | cons path rest ih =>
      obtain ⟨r, others, hfile, -, hothers, rfl⟩ := process_all_cons_of_finished hrun
      refine List.forall_mem_cons.2 ⟨fun hpath => ?_, fun item hitem hpath => ?_⟩
      · exact process_file_at_rest hf hrests hpath hget hfile
      · refine ih (get_process_file hf hrests path hget) hothers item hitem ?_
        rwa [(same_outline_process_file hf path t).file_eq]

/-- A file with a new content is given it. -/
theorem process_file_makes_fit (hf : b.formatter = Formatter.ofResult f) (hmode : b.mode = .inPlace)
    (hfile : t.file? path = some location) (hget : t.get? location = some (.file data))
    (hchange : Verdict.ofBytes f path data = .change content) :
    ((b.processFile path).run t).result = .finished (.ok .rewritten) ∧
      ((b.processFile path).run t).tree.get? location = some (.file content.bytes) := by
  obtain ⟨u, hwrite⟩ := Tree.write_of_file hfile content.bytes
  rw [process_file_run hf, verdict_of_file hfile hget, hchange]
  simp only [treat_in_place_run hmode, hwrite, true_and]
  obtain ⟨-, -, hcontent⟩ :=
    (Tree.received_of_write hwrite).get_same (Tree.file_eq_some_iff.1 hfile).1
  exact hcontent

/-! ## Runs -/

/-- The results at the positions of one file: they are all refusals with one message, or the file is
rewritten or unchanged at first and unchanged from then on. -/
inductive OnceOnly : List (Path × FileResult) → Prop where
  | refused {items : List (Path × FileResult)} (message : Text) :
      (∀ item ∈ items, item.2 = .error (.parse item.1 message)) → OnceOnly items
  | accepted {path : Path} {first : Treatment} {later : List (Path × FileResult)} :
      first = .rewritten ∨ first = .unchanged → (∀ item ∈ later, item.2 = .ok .unchanged) →
        OnceOnly ((path, .ok first) :: later)

/-- A list of positions at which a file is unchanged. -/
theorem OnceOnly.of_unchanged {items : List (Path × FileResult)}
    (h : ∀ item ∈ items, item.2 = .ok .unchanged) : OnceOnly items := by
  cases items with
  | nil => exact .refused [] fun _ hitem => nomatch hitem
  | cons item later =>
      obtain ⟨path, r⟩ := item
      obtain ⟨rfl, hlater⟩ := List.forall_mem_cons.1 h
      exact .accepted (.inr rfl) hlater

/-- The results of a run for one file: those whose paths lead to its location. -/
def resultsAt (t : Tree) (location : Location) (results : List (Path × FileResult)) :
    List (Path × FileResult) :=
  results.filter fun item => t.file? item.1 = some location

/-- A result belongs to a file if its path leads there. -/
theorem mem_results_at {item : Path × FileResult} :
    item ∈ resultsAt t location results ↔ item ∈ results ∧ t.file? item.1 = some location := by
  simp [resultsAt]

/-- A file with a new content that fits is rewritten at the first position that leads to it and
unchanged at all later ones, and it has the new content then. -/
theorem process_all_makes_fit (hf : b.formatter = Formatter.ofResult f) (hmode : b.mode = .inPlace)
    (hget : t.get? location = some (.file data))
    (hchange : ∀ path, Verdict.ofBytes f path data = .change content)
    (hfits : Fits f content.bytes)
    (hrun : ((b.processAll paths).run t).result = .finished (.ok results)) :
    OnceOnly (resultsAt t location results) ∧ (resultsAt t location results ≠ [] →
      ((b.processAll paths).run t).tree.get? location = some (.file content.bytes)) := by
  induction paths generalizing t results with
  | nil =>
      cases hrun
      exact ⟨.refused [] (fun _ hitem => nomatch hitem), fun h => absurd rfl h⟩
  | cons path rest ih =>
      obtain ⟨r, others, hfile, hends, hothers, rfl⟩ := process_all_cons_of_finished hrun
      have htree := tree_of_goes_on hfile hends rest
      have houtline := same_outline_process_file hf path t
      -- The paths of the rest lead where they led before the first file was treated.
      have hresults : ∀ items, resultsAt ((b.processFile path).run t).tree location items =
          resultsAt t location items := by
        intro items
        simp only [resultsAt, houtline.file_eq]
      rw [htree]
      by_cases hpath : t.file? path = some location
      · obtain ⟨hrewritten, hcontent⟩ :=
          process_file_makes_fit hf hmode hpath hget (hchange path)
        obtain rfl : r = .ok .rewritten := by simpa [hrewritten, eq_comm] using hfile
        have hhere : resultsAt t location ((path, .ok .rewritten) :: others) =
            (path, .ok .rewritten) :: resultsAt t location others := by
          simp [resultsAt, hpath]
        refine ⟨?_, fun _ => get_process_all hf hfits.rests rest hcontent⟩
        rw [hhere]
        refine .accepted (.inl rfl) fun item hitem => ?_
        rw [← hresults, mem_results_at] at hitem
        rw [process_all_at_rest hf hfits.rests hcontent hothers item hitem.1 hitem.2, restResult,
          hfits.verdict]
      · have hhere : resultsAt t location ((path, r) :: others) = resultsAt t location others := by
          simp [resultsAt, hpath]
        rw [hhere, ← hresults]
        exact ih (by rw [get_process_file_other hf hpath, hget]) hothers

/-- What a run makes of one file, with a stable function: it rewrites the file at most once, and a
file that is not refused fits then. -/
theorem process_all_once_only {f : Text → Except Text Text} (hstable : Stable f)
    (hf : b.formatter = Formatter.ofFunction f) (hmode : b.mode = .inPlace)
    (hrun : ((b.processAll paths).run t).result = .finished (.ok results)) (location : Location) :
    OnceOnly (resultsAt t location results) ∧
      ∀ item ∈ resultsAt t location results, (∀ message, item.2 ≠ .error (.parse item.1 message)) →
        ((b.processAll paths).run t).tree.FitsAt (fun text => FormatResult.ofExcept (f text))
          location := by
  rw [Formatter.of_function_eq] at hf
  by_cases hfile : ∃ data, t.get? location = some (.file data)
  · obtain ⟨data, hget⟩ := hfile
    rcases bytes_cases hstable data with ⟨message, hrefused⟩ | hfits | ⟨content, hfits, hchange⟩
    · have hrests : Rests (fun text => FormatResult.ofExcept (f text)) data := by
        intro path content h
        rw [hrefused] at h
        cases h
      have hall : ∀ item ∈ resultsAt t location results,
          item.2 = .error (.parse item.1 message) := by
        intro item hitem
        obtain ⟨hmem, hpath⟩ := mem_results_at.1 hitem
        rw [process_all_at_rest hf hrests hget hrun item hmem hpath, restResult, hrefused]
      exact ⟨.refused message hall, fun item hitem h => absurd (hall item hitem) (h message)⟩
    · refine ⟨.of_unchanged fun item hitem => ?_, fun _ _ _ => ?_⟩
      · obtain ⟨hmem, hpath⟩ := mem_results_at.1 hitem
        rw [process_all_at_rest hf hfits.rests hget hrun item hmem hpath, restResult, hfits.verdict]
      · exact ⟨data, get_process_all hf hfits.rests paths hget, hfits⟩
    · obtain ⟨honce, hcontent⟩ := process_all_makes_fit hf hmode hget hchange hfits hrun
      exact ⟨honce, fun item hitem _ =>
        ⟨content.bytes, hcontent (List.ne_nil_of_mem hitem), hfits⟩⟩
  · -- No path leads to a location without a file.
    have hnone : resultsAt t location results = [] := by
      refine List.filter_eq_nil_iff.2 fun item _ hitem => hfile ?_
      exact (Tree.file_eq_some_iff.1 (of_decide_eq_true hitem)).2
    rw [hnone]
    exact ⟨.refused [] (fun _ hitem => nomatch hitem), fun _ hitem => nomatch hitem⟩

/-- The tree that runs one after the other leave, however they end. -/
def afterRuns (runs : List (Batch × List Path)) (t : Tree) : Tree :=
  runs.foldl (fun t run => ((run.1.process run.2).run t).tree) t

/-- Runs leave a file that fits for all of them as it is. -/
theorem fits_after_runs {runs : List (Batch × List Path)}
    (hf : ∀ run ∈ runs, run.1.formatter = Formatter.ofResult f) (h : t.FitsAt f location) :
    (afterRuns runs t).FitsAt f location := by
  induction runs generalizing t with
  | nil => exact h
  | cons run rest ih =>
      obtain ⟨hrun, hrest⟩ := List.forall_mem_cons.1 hf
      obtain ⟨data, hget, hfits⟩ := h
      refine ih hrest ⟨data, ?_, hfits⟩
      show ((run.1.process run.2).run t).tree.get? location = some (.file data)
      rw [process_run]
      exact get_process_all hrun hfits.rests run.2 hget

/-- With a stable function, and files that take what is written to them, a run rewrites every file
at most once, whatever paths lead to it. The run ends with a report; at the positions of one file
the results are all refusals with one message, or the file is rewritten or unchanged at first and
unchanged from then on. A later run with the same function, in either mode, with any tools and after
any other such runs, that is given only paths to files which the first run did not refuse, reports
them all as unchanged. It starts no tool, prints nothing and leaves the tree as it is. -/
theorem each_file_is_rewritten_at_most_once {f : Text → Except Text Text} (hstable : Stable f)
    (settings : PreviewSettings) (host : Host) (paths : List Path) (t : Tree) :
    let first := ((Batch.ofFunction f settings host .inPlace).process paths).run t
    ∃ report : Report, first.result = .finished (.ok report) ∧
      report.results.map Prod.fst = paths ∧
      (∀ location, OnceOnly (resultsAt t location report.results)) ∧
      ∀ between : List (Batch × List Path),
        (∀ run ∈ between, run.1.formatter = Formatter.ofFunction f) →
        let u := afterRuns between first.tree
        ∀ (b : Batch) (later : List Path), b.formatter = Formatter.ofFunction f →
          (∀ q ∈ later, ∃ location, u.file? q = some location ∧
            ∃ item ∈ resultsAt t location report.results,
              ∀ message, item.2 ≠ .error (.parse item.1 message)) →
          (b.process later).run u =
            ⟨.finished (.ok ⟨later.map fun q => (q, .ok .unchanged)⟩), u, later.map fitsRecord,
              []⟩ := by
  intro first
  let making := Batch.ofFunction f settings host .inPlace
  have hfirst : making.formatter = Formatter.ofFunction f := rfl
  have hresult := hfirst.trans (Formatter.of_function_eq f)
  obtain ⟨results, hresults⟩ : ∃ results,
      ((making.processAll paths).run t).result = .finished (.ok results) :=
    process_all_reports hresult rfl fun _ _ _ _ text _ => by
      cases hformat : f text <;> simp [hformat, FormatResult.ofExcept]
  have hrun : first = _ := process_run_ok hresults
  refine ⟨⟨results⟩, by rw [hrun], process_all_paths hresults,
    fun location => (process_all_once_only hstable hfirst rfl hresults location).1, ?_⟩
  intro between hbetween u b later hf hlater
  rw [Formatter.of_function_eq] at hf
  have hbetween' : ∀ run ∈ between, run.1.formatter =
      Formatter.ofResult fun text => FormatResult.ofExcept (f text) := fun run hmem =>
    (hbetween run hmem).trans (Formatter.of_function_eq f)
  have hfits : ∀ q ∈ later, u.verdict (fun text => FormatResult.ofExcept (f text)) q = .fits := by
    intro q hq
    obtain ⟨location, hfile, item, hitem, haccepted⟩ := hlater q hq
    have hfirstFits := (process_all_once_only hstable hfirst rfl hresults location).2 item hitem
      haccepted
    have hstart : first.tree.FitsAt (fun text => FormatResult.ofExcept (f text)) location := by
      rw [hrun]
      exact hfirstFits
    exact (fits_after_runs hbetween' hstart).verdict hfile
  have hall := process_all_fits .roomy hf hfits
  rw [process_run_ok (by rw [hall]), hall]

/-- A file that is reached through a link, with a dot and by a detour, and one whose text is
refused. Afterwards the changes of both are shown, and the first is formatted once more. -/
theorem linked_file_is_rewritten_once :
    let f : Text → Except Text Text := fun s =>
      if s.head? = some '(' then .error ['n', 'o'] else .ok ['a']
    let q := Utf8.encode ['q']
    let r := Utf8.encode ['r']
    let l := Utf8.encode ['l']
    let dotted := Utf8.encode "./q".toList
    let detour := Utf8.encode "d//../l".toList
    let t : Tree := ⟨[([q], .file (Utf8.encode ['b'])), ([r], .file (Utf8.encode ['('])),
      ([l], .link q), ([Utf8.encode ['d']], .directory)]⟩
    let batch := Batch.ofFunction f ⟨none, false⟩ ⟨⟨none, none⟩, none⟩
    let first := ((batch .inPlace).process [l, r, dotted, r, detour]).run t
    let u := afterRuns [(batch .preview, [r, q])] first.tree
    Stable f ∧
      (∃ report : Report, first.result = .finished (.ok report) ∧
        report.results = [(l, .ok .rewritten), (r, .error (.parse r ['n', 'o'])),
          (dotted, .ok .unchanged), (r, .error (.parse r ['n', 'o'])), (detour, .ok .unchanged)]) ∧
      (∀ run ∈ [(batch .preview, [r, q])], run.1.formatter = Formatter.ofFunction f) ∧
      ((batch .inPlace).process [q, l]).run u =
        ⟨.finished (.ok ⟨[(q, .ok .unchanged), (l, .ok .unchanged)]⟩), u,
          [fitsRecord q, fitsRecord l], []⟩ := by
  intro f q r l dotted detour t batch first u
  have hstable : Stable f := by
    intro s shown h
    simp only [f] at h
    split at h
    · cases h
    · cases h
      rfl
  have hresults : (((batch .inPlace).processAll [l, r, dotted, r, detour]).run t).result =
      .finished (.ok [(l, .ok .rewritten), (r, .error (.parse r ['n', 'o'])),
        (dotted, .ok .unchanged), (r, .error (.parse r ['n', 'o'])),
        (detour, .ok .unchanged)]) := by
    decide +kernel
  have hfirst := congrArg Effect.result (process_run_ok hresults)
  have hbetween : ∀ run ∈ [(batch .preview, [r, q])], run.1.formatter = Formatter.ofFunction f := by
    intro run hmem
    obtain rfl := List.mem_singleton.1 hmem
    rfl
  obtain ⟨report, hreport, -, -, hagain⟩ := each_file_is_rewritten_at_most_once hstable
    ⟨none, false⟩ ⟨⟨none, none⟩, none⟩ [l, r, dotted, r, detour] t
  rw [hfirst] at hreport
  cases hreport
  refine ⟨hstable, ⟨_, hfirst, rfl⟩, hbetween, ?_⟩
  refine hagain _ hbetween (batch .inPlace) [q, l] rfl fun path hpath => ⟨[q], ?_, ?_⟩
  · have hfiles : ∀ p ∈ [q, l], u.file? p = some [q] := by decide +kernel
    exact hfiles path hpath
  · refine ⟨(l, .ok .rewritten), ?_, fun message h => nomatch h⟩
    exact mem_results_at.2 ⟨List.mem_cons_self, by decide +kernel⟩

end Batch

end QueryTidy
