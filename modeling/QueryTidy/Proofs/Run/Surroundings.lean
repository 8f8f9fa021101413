import QueryTidy.Proofs.Query.Surroundings
import QueryTidy.Proofs.Run.Spellings

/-!
# Files with one canonical form

Two runs over the same files are compared, from trees that differ in the content of one file only.
Both contents have the same canonical form (`HasForm`), for instance because one of them is the
other with blank space and comments around it (`Query.format_surrounded`). Until the file is
treated, both runs do the same, and their trees differ as before (`Batch.process_file_beside`). Its
treatment leaves the canonical form in both trees (`Batch.process_file_with_form`), so they are one
tree from then on (`Batch.tree_of_same_form`).
-/

namespace QueryTidy

open QueryTidy.Action
open QueryTidy.Token (Blank Surrounded)

/-- The bytes are the encoding of a text with the canonical form. -/
def HasForm (f : Text → FormatResult) (data : Bytes) (shown : Text) : Prop :=
  ∃ text, Utf8.decode data = .ok text ∧ f text = .formatted shown

/-- The encoding of a text has the canonical form of the text. -/
theorem has_form_of_text {f : Text → FormatResult} {text shown : Text}
    (h : f text = .formatted shown) : HasForm f (Utf8.encode text) shown :=
  ⟨text, Utf8.decode_encode text, h⟩

namespace Batch

variable {b : Batch} {f : Text → FormatResult} {t : Tree} {path : Path} {location : Location}
  {old data data' : Bytes} {shown : Text}

/-! ## One file -/

/-- Where changes are made, the treatment of a file leaves its canonical form there. -/
theorem process_file_with_form (hf : b.formatter = Formatter.ofResult f) (hmode : b.mode = .inPlace)
    (hget : t.get? location = some (.file old)) (hfile : t.file? path = some location)
    (hform : HasForm f data shown) :
    (∃ treatment, ((b.processFile path).run (t.refill location data)).result =
        .finished (.ok treatment)) ∧
      ((b.processFile path).run (t.refill location data)).tree =
        t.refill location (Content.ofText shown).bytes := by
  obtain ⟨text, hdecode, hformat⟩ := hform
  have hfile' := (Tree.file_refill hget data path).trans hfile
  have hget' := Tree.get_refill_same hget data
  by_cases hdata : data = (Content.ofText shown).bytes
  · have hfits : (t.refill location data).verdict f path = .fits := by
      rw [verdict_of_file hfile' hget']
      exact Fits.verdict ⟨text, hdecode, shown, hformat, hdata.symm⟩ path
    rw [process_file_run hf, hfits]
    exact ⟨⟨.unchanged, rfl⟩, by rw [hdata]⟩
  · have hchange : Verdict.ofBytes f path data = .change (Content.ofText shown) := by
      simp [Verdict.ofBytes, hdecode, hformat, Content.changes, hdata]
    have hverdict : (t.refill location data).change? f path = some (Content.ofText shown) :=
      Tree.verdict_change_iff.1 ((verdict_of_file hfile' hget').trans hchange)
    have hrefill : b.refill? f (t.refill location data) path =
        some (location, (Content.ofText shown).bytes) := by
      simp [refill?, hmode, hverdict, hfile']
    refine ⟨⟨.rewritten, (process_file_makes_fit hf hmode hfile' hget' hchange).1⟩, ?_⟩
    rw [process_file_tree hf, hrefill]
    exact Tree.refill_refill t location data _

/-! ## Runs -/

/-- A run that begins with a file goes on from its canonical form. -/
theorem tree_with_form_first (hf : b.formatter = Formatter.ofResult f) (hmode : b.mode = .inPlace)
    (hget : t.get? location = some (.file old)) (hfile : t.file? path = some location)
    (hform : HasForm f data shown) (rest : List Path) :
    ((b.processAll (path :: rest)).run (t.refill location data)).tree =
      ((b.processAll rest).run (t.refill location (Content.ofText shown).bytes)).tree := by
  obtain ⟨⟨treatment, hresult⟩, htree⟩ := process_file_with_form hf hmode hget hfile hform
  rw [tree_of_goes_on hresult rfl, htree]

/-- Two contents of a file with one canonical form: the runs from either come to one tree, provided
that they come to the file. -/
theorem tree_of_same_form (hf : b.formatter = Formatter.ofResult f) (hmode : b.mode = .inPlace)
    (hget : t.get? location = some (.file old)) (hfile : t.file? path = some location)
    (hdata : HasForm f data shown) (hdata' : HasForm f data' shown) (before after : List Path)
    (hreached : ((b.processAll before).run (t.refill location data)).result ≠ .crashed) :
    ((b.processAll (before ++ path :: after)).run (t.refill location data')).tree =
      ((b.processAll (before ++ path :: after)).run (t.refill location data)).tree := by
  induction before generalizing t old with
  | nil =>
      rw [List.nil_append, tree_with_form_first hf hmode hget hfile hdata',
        tree_with_form_first hf hmode hget hfile hdata]
  | cons q before ih =>
      rw [List.cons_append]
      by_cases hq : t.file? q = some location
      · rw [tree_with_form_first hf hmode hget hq hdata',
          tree_with_form_first hf hmode hget hq hdata]
      · -- The file is not treated yet: both runs do the same here, and the trees differ as before.
        have hhere := process_file_beside hf hmode Storage.roomy_steady hget hq data
        have hhere' := process_file_beside hf hmode Storage.roomy_steady hget hq data'
        have hsame := (congrArg Effect.result hhere').trans (congrArg Effect.result hhere).symm
        have htree := congrArg Effect.tree hhere
        have hfirst := first_file b q before (t.refill location data) .roomy
        generalize (b.processAll (q :: before)).run (t.refill location data) = whole
          at hreached hfirst
        cases hfirst with
        | crash => exact absurd rfl hreached
        | fatal fault hfault hends => exact nomatch hmode.symm.trans (preview_of_fatal hfault hends)
        | goesOn r hr hends =>
            rw [tree_of_goes_on (hsame.trans hr) hends, hhere', tree_of_goes_on hr hends, hhere]
            refine ih ((get_process_file_other hf hq).trans hget)
              (((same_outline_process_file hf q t).file_eq path).trans hfile) fun hcrash => ?_
            rw [htree, hcrash] at hreached
            exact hreached rfl

end Batch

/-- Blank space and comments around a query are never significant. In front of a text they make no
difference to what comes of it, and after an accepted text and a line end none to its canonical
form. So whether they stand around an accepted query in a file makes no difference to the tree that
is left by a run that makes changes and comes to the file, where files take what is written to them.
-/
theorem surroundings_are_not_significant {w s s' shown : Text} (hblank : Blank w)
    (hsurrounded : Surrounded s s') :
    Query.format (w ++ s) = Query.format s ∧
    (Query.format s = .formatted shown → Query.format (s ++ '\n' :: w) = .formatted shown ∧
      ∀ (settings : PreviewSettings) (host : Host) (t : Tree) (location : Location)
        (before after : List Path) (path : Path),
        let b : Batch := ⟨Formatter.query, .inPlace, settings, host⟩
        let plain := t.set location (.file (Utf8.encode s))
        let padded := t.set location (.file (Utf8.encode s'))
        t.file? path = some location → ((b.process before).run plain).result ≠ .crashed →
          ((b.process (before ++ path :: after)).run padded).tree =
            ((b.process (before ++ path :: after)).run plain).tree) := by
  refine ⟨Query.format_blank_append hblank s, fun hformat =>
    ⟨Query.format_line hformat hblank, ?_⟩⟩
  intro settings host t location before after path b plain padded hfile hreached
  obtain ⟨-, old, hget⟩ := Tree.file_eq_some_iff.1 hfile
  simp only [plain, padded, Tree.set_eq_refill hget, Batch.process_run] at hreached ⊢
  exact Batch.tree_of_same_form Formatter.query_eq rfl hget hfile (has_form_of_text hformat)
    (has_form_of_text (Query.format_surrounded hformat hsurrounded)) before after
    fun hcrash => hreached (Batch.reported_crashed_iff.2 hcrash)

/-- A query with comments around it, in a file that is reached through a link after one with a text
that is refused. -/
theorem commented_query_is_the_same_query :
    let w : Text := ['#', ' ', 'c', '\n', '\t']
    let s : Text := "x  +  y".toList
    let padded : Text := w ++ (s ++ '\n' :: w)
    let q := Utf8.encode ['q']
    let r := Utf8.encode ['r']
    let l := Utf8.encode ['l']
    let t : Tree := ⟨[([q], .file []), ([r], .file (Utf8.encode ['('])), ([l], .link q)]⟩
    let b : Batch := ⟨Formatter.query, .inPlace, ⟨none, false⟩, ⟨⟨none, none⟩, none⟩⟩
    let left := ((b.process [r, l, q]).run (t.set [q] (.file (Utf8.encode padded)))).tree
    Blank w ∧ Surrounded s padded ∧ Query.format (w ++ s) = .formatted "x + y".toList ∧
      Query.format (s ++ '\n' :: w) = .formatted "x + y".toList ∧
      left = ((b.process [r, l, q]).run (t.set [q] (.file (Utf8.encode s)))).tree ∧
      left.read l = .ok (Utf8.encode "x + y\n".toList) := by
  intro w s padded q r l t b left
  have hbody : ∀ d ∈ [' ', 'c'], Token.isLineEnd d = false := by simp [Token.isLineEnd]
  have hblank : Blank w := .comment hbody rfl (.space rfl .nil)
  have hsurrounded : Surrounded s padded := .around hblank hblank
  have hformat : Query.format s = .formatted "x + y".toList := by decide +kernel
  obtain ⟨hfront, haround⟩ := surroundings_are_not_significant hblank hsurrounded
  obtain ⟨hafter, hfiles⟩ := haround hformat
  have hreached : ((b.processAll [r]).run (t.set [q] (.file (Utf8.encode s)))).result =
      .finished (.ok [(r, .error (.parse r "unclosed left parenthesis".toList))]) := by
    decide +kernel
  refine ⟨hblank, hsurrounded, hfront.trans hformat, hafter, ?_, by decide +kernel⟩
  refine hfiles ⟨none, false⟩ ⟨⟨none, none⟩, none⟩ t [q] [r] [q] l (by decide +kernel) ?_
  rw [Batch.process_run_ok hreached]
  exact nofun

end QueryTidy
