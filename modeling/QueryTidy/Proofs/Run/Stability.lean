import QueryTidy.Proofs.Query.Preserved
import QueryTidy.Proofs.Run.Quiet
import QueryTidy.Proofs.Run.Settled

/-!
# Second runs

The canonical text of a query whose parts are all `Part.Stable` is its own canonical form. So a run
of the program over files with such queries, once it has ended without a fault, leaves files in
which a second run finds nothing to do.
-/

namespace QueryTidy

open QueryTidy.Action

/-! ## Texts -/

namespace Query

/-- If the text is a query, the text of each of its parts denotes a part with the same text. -/
def StableText (s : Text) : Prop :=
  ∀ e, Expr.parse s = .query e → ∀ part ∈ e.parts, part.Stable

/-- The canonical text of a stable query, with blank space after it, is in canonical form. -/
theorem format_again {s t : Text} (hformat : format s = .formatted t) (hstable : StableText s)
    {blank : Text} (hblank : ∀ c ∈ blank, Token.isSpace c = true) :
    format (t ++ blank) = .formatted t := by
  obtain ⟨e, hparse, rfl⟩ := format_eq_formatted_iff.1 hformat
  have hquoted : Token.QuotedFrom (fun _ => True) ⟨0, .plain⟩ s := fun _ _ _ _ _ _ _ _ => trivial
  obtain ⟨hreads, hread⟩ := Expr.parse_shape (p := fun _ => True) (fun _ _ _ _ _ _ => trivial)
    hquoted hparse
  obtain ⟨hagain, hpretty⟩ := hreads.parse_again
    (fun part hpart => ⟨hread part hpart, hstable e hparse part hpart⟩) hblank
  exact format_eq_formatted_iff.2 ⟨e.again, hagain, hpretty⟩

/-- Nothing is made of an empty text. -/
theorem format_nil (shown : Text) : format [] ≠ .formatted shown := by
  have hrejected : ∃ message, format [] = .rejected message := ⟨_, rfl⟩
  obtain ⟨message, hmessage⟩ := hrejected
  simp [hmessage]

end Query

/-! ## Runs -/

namespace Program

variable {b : Batch} {f : Text → FormatResult} {paths : List Path} {t : Tree}
  {storage : Storage}

/-- A run that ends with the status 0 has results without faults. -/
theorem finish_zero (h : ((finish b paths).run t storage).result = .finished 0) :
    ∃ results, ((b.processAll paths).run t storage).result = .finished (.ok results) ∧
      (∀ item ∈ results, Report.fault? item.2 = none) ∧
      ((finish b paths).run t storage).tree = ((b.processAll paths).run t storage).tree := by
  rcases hall : (b.processAll paths).run t storage with ⟨result, u, logs, output⟩
  cases result with
  | crashed => simp [finish, Batch.process, run_bind, hall] at h
  | finished value =>
      cases value with
      | error fault => simp [finish, Batch.process, run_bind, hall] at h
      | ok results =>
          refine ⟨results, rfl, ?_, by simp [finish, Batch.process, run_bind, hall]⟩
          have hclean : (Report.mk results).isClean = true := by
            simpa [finish, Batch.process, run_bind, hall] using h
          simpa [Report.isClean, Report.faults, List.filterMap_eq_nil_iff] using hclean

/-- A run over files that fit ends with the status 0 and reports every file as unchanged. -/
theorem finish_of_fits (hf : b.formatter = Formatter.ofResult f)
    (h : ∀ path ∈ paths, t.verdict f path = .fits) :
    (b.process paths).run t storage =
        ⟨.finished (.ok ⟨paths.map fun path => (path, .ok .unchanged)⟩), t,
          paths.map Batch.fitsRecord, []⟩ ∧
      (finish b paths).run t storage = ⟨.finished 0, t, paths.map Batch.fitsRecord, []⟩ := by
  have hall := Batch.process_all_fits storage hf h
  have hprocess : (b.process paths).run t storage =
      ⟨.finished (.ok ⟨paths.map fun path => (path, .ok .unchanged)⟩), t,
        paths.map Batch.fitsRecord, []⟩ := by
    rw [Batch.process_run_ok (by rw [hall]), hall]
  have hclean : (Report.mk (paths.map fun path => (path, .ok .unchanged))).isClean = true := by
    simp [Report.isClean, Report.faults, Report.fault?]
  refine ⟨hprocess, ?_⟩
  simp only [finish, run_bind, hprocess, hclean, ↓reduceIte, run_pure, List.append_nil]

/-- The text of every file of a run is stable, if it is a query. -/
def StableFiles (t : Tree) (paths : List Path) : Prop :=
  ∀ path ∈ paths, ∀ data, t.read path = .ok data → ∀ s, Utf8.decode data = .ok s →
    Query.StableText s

/-- What a run writes of stable files would not be changed itself. -/
theorem StableFiles.settles (h : StableFiles t paths) : Batch.Settles Query.format t paths := by
  intro path hpath content hverdict
  obtain ⟨data, s, shown, hread, hdecode, hformat, rfl, -⟩ := Tree.read_of_verdict_change hverdict
  refine fits_of_text (Query.format_again hformat (h path hpath data hread s hdecode) ?_)
  intro c hc
  obtain rfl : c = '\n' := List.mem_singleton.1 hc
  rfl

variable {start : Start} {o : Options}

/-- The files of a run over stable files that makes changes and ends with the status 0 fit then. -/
theorem files_fit_after_run (hread : Arguments.read start.arguments = .run o)
    (hdry : o.dryRun = false) (hstable : StableFiles start.tree o.paths)
    (hending : (run start storage).ending = .exit 0) :
    ∀ path ∈ o.paths, (run start storage).tree.verdict Query.format path = .fits := by
  obtain ⟨b, hformatter, hmode, logs, hwork, -⟩ := work_run start.host start.terminal o
    start.tree storage
  rw [Formatter.query_eq] at hformatter
  rw [RunMode.ofPreview, hdry] at hmode
  simp only [run, hread, hwork] at hending ⊢
  have hzero : ((finish b o.paths).run start.tree storage).result = .finished 0 := by
    cases hresult : ((finish b o.paths).run start.tree storage).result with
    | crashed => simp [hresult, ending] at hending
    | finished status => simpa [hresult, ending] using hending
  obtain ⟨results, hresults, hclean, htree⟩ := finish_zero hzero
  rw [htree]
  exact (Batch.process_all_settles hmode hformatter Query.format_nil (fun _ h => h)
    hstable.settles (fun path _ => .inr rfl) hresults hclean).1

/-- A run over files that fit ends with the status 0, writes nothing and changes nothing. -/
theorem run_of_fits (hread : Arguments.read start.arguments = .run o)
    (hverbose : o.verbose = false) (hfilter : start.filter = none)
    (hfits : ∀ path ∈ o.paths, start.tree.verdict Query.format path = .fits) :
    run start storage = ⟨.exit 0, [], [], start.tree⟩ := by
  obtain ⟨b, hformatter, -, logs, hwork, hlogs⟩ := work_run start.host start.terminal o
    start.tree storage
  rw [Formatter.query_eq] at hformatter
  rw [(finish_of_fits hformatter hfits).2] at hwork
  have hquiet : ∀ r ∈ logs ++ o.paths.map Batch.fitsRecord, r.level = .debug := by
    intro r hr
    rcases List.mem_append.1 hr with hr | hr
    · exact hlogs r hr
    · obtain ⟨path, -, rfl⟩ := List.mem_map.1 hr
      rfl
  simp only [run, hread, hwork, hverbose, hfilter, log_text_quiet hquiet, ending]

/-- Formatting is stable where the text of every part of a query denotes a part with the same text:
the canonical text and a line end are in canonical form. Hence, after a run over such files that
makes changes and ends with the status 0, the same run over the files that it leaves ends with the
status 0 as well, writes nothing to either stream, reports every file as unchanged and leaves the
tree as it is. -/
theorem second_run_finds_nothing_to_do (s t : Text) (start : Start) (o : Options)
    (storage : Storage) :
    (Query.format s = .formatted t → Query.StableText s →
      Query.format (t ++ ['\n']) = .formatted t) ∧
    (Arguments.read start.arguments = .run o →
      o.dryRun = false → o.verbose = false → start.filter = none →
      StableFiles start.tree o.paths → (run start storage).ending = .exit 0 →
        run { start with tree := (run start storage).tree } storage =
            ⟨.exit 0, [], [], (run start storage).tree⟩ ∧
        ∀ b : Batch, b.formatter = Formatter.query → b.mode = .inPlace →
          ((b.process o.paths).run (run start storage).tree storage).result =
            .finished (.ok ⟨o.paths.map fun path => (path, .ok .unchanged)⟩)) := by
  refine ⟨fun hformat hstable => Query.format_again hformat hstable ?_, ?_⟩
  · intro c hc
    obtain rfl : c = '\n' := List.mem_singleton.1 hc
    rfl
  · intro hread hdry hverbose hfilter hstable hending
    have hfits := files_fit_after_run hread hdry hstable hending
    refine ⟨run_of_fits hread hverbose hfilter hfits, fun b hformatter _ => ?_⟩
    rw [Formatter.query_eq] at hformatter
    rw [(finish_of_fits hformatter hfits).1]

/-- A query with a range that is not written in the greatest units. -/
theorem stable_text_range : Query.StableText "foo[90s]".toList := by
  intro e hparse
  have hquery : Expr.parse "foo[90s]".toList =
      .query (.matrix ⟨some "foo".toList, .all [], {}⟩ ⟨90000000000⟩) :=
    Query.eq_of_is_matrix (by decide +kernel)
  rw [hquery] at hparse
  obtain rfl := ParseResult.query.inj hparse
  intro part hpart
  rcases List.mem_cons.1 hpart with rfl | hpart
  · exact ⟨⟨90000000000⟩, by decide +kernel, rfl⟩
  · obtain rfl := List.mem_singleton.1 hpart
    exact ⟨fun m hm => absurd hm List.not_mem_nil, trivial⟩

/-- A run over one file that is not in canonical form. -/
def rangeStart : Start where
  arguments := [Utf8.encode ['q']]
  filter := none
  tree := ⟨[([Utf8.encode ['q']], .file (Utf8.encode "foo[90s]".toList))]⟩
  host := ⟨⟨none, none⟩, none⟩
  terminal := false

/-- The first run rewrites the file, and the second one finds nothing to do. -/
theorem second_run_over_range :
    Query.format ("foo[1m30s]".toList ++ ['\n']) = .formatted "foo[1m30s]".toList ∧
      (run rangeStart).tree =
        ⟨[([Utf8.encode ['q']], .file (Utf8.encode "foo[1m30s]\n".toList))]⟩ ∧
      run { rangeStart with tree := (run rangeStart).tree } =
        ⟨.exit 0, [], [], (run rangeStart).tree⟩ := by
  have hformat : Query.format "foo[90s]".toList = .formatted "foo[1m30s]".toList := by
    decide +kernel
  have hread : Arguments.read rangeStart.arguments =
      .run ⟨false, .auto, false, [Utf8.encode ['q']]⟩ := by decide +kernel
  have hstable : StableFiles rangeStart.tree [Utf8.encode ['q']] := by
    intro path hpath data hdata s hs
    obtain rfl := List.mem_singleton.1 hpath
    have hcontent : rangeStart.tree.read (Utf8.encode ['q']) =
        .ok (Utf8.encode "foo[90s]".toList) := by decide +kernel
    rw [hcontent] at hdata
    obtain rfl := Except.ok.inj hdata
    rw [Utf8.decode_encode] at hs
    obtain rfl := Except.ok.inj hs
    exact stable_text_range
  have hsecond := second_run_finds_nothing_to_do "foo[90s]".toList "foo[1m30s]".toList rangeStart
    ⟨false, .auto, false, [Utf8.encode ['q']]⟩ .roomy
  exact ⟨hsecond.1 hformat stable_text_range, by decide +kernel,
    (hsecond.2 hread rfl rfl rfl hstable (by decide +kernel)).1⟩

/-- A quote inside other quotes makes a text that is refused, and an offset of less than a
millisecond leaves a place that is filled with what comes next. -/
theorem canonical_text_is_not_stable :
    (Query.format "'a\"b\"'".toList = .formatted "\"a\"b\"\"".toList ∧
      ∀ t, Query.format "\"a\"b\"\"\n".toList ≠ .formatted t) ∧
    (Query.format "foo offset 0.0001 + 5".toList = .formatted "foo offset  + 5".toList ∧
      Query.format "foo offset  + 5\n".toList = .formatted "foo offset 5s".toList) := by
  have hrefused : (match Query.format "\"a\"b\"\"\n".toList with
      | .formatted _ => false
      | _ => true) = true := by decide +kernel
  refine ⟨⟨by decide +kernel, fun t ht => ?_⟩, by decide +kernel, by decide +kernel⟩
  rw [ht] at hrefused
  cases hrefused

end Program

end QueryTidy
