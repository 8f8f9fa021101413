import QueryTidy.Proofs.Query.Endings
import QueryTidy.Proofs.Run.Spellings
import QueryTidy.Proofs.Run.Stability
import QueryTidy.Proofs.Run.Turns

/-!
# The ends of rewritten files

A file that a run rewrites, or finds as it has to be, holds in the end what the formatter made of a
text that the file held at one of its turns (`Batch.FormattedFrom`): a turn at which the file is not
accepted changes nothing about it, and the last turn at which it is accepted leaves the formatted
text there (`Batch.process_all_formatted`). With the formatter of queries this is a text that ends
visibly, or with a space after an offset of less than a millisecond, and one line end.
-/

namespace QueryTidy

open QueryTidy.Action

/-- A path that reads some bytes leads to a regular file with them, if there are any. -/
theorem Tree.file_of_read {t : Tree} {path : Path} {data : Bytes} (h : t.read path = .ok data)
    (hne : data ≠ []) :
    ∃ location, t.file? path = some location ∧ t.get? location = some (.file data) := by
  unfold Tree.read at h
  cases hlocate : t.locate path with
  | error e => simp [hlocate] at h
  | ok located =>
      obtain ⟨place, found⟩ := located
      rw [hlocate] at h
      rcases found with (content | _ | target) | (_ | _)
      · obtain rfl : content = data := by simpa using h
        obtain ⟨hresolve, hfind⟩ := Tree.locate_eq_ok.mp hlocate
        cases place with
        | outside names => exact absurd hfind (Tree.system_ne_file names content)
        | inside location =>
            have hget := Tree.get_of_find hfind
            exact ⟨location, Tree.file_eq_some_iff.mpr ⟨hresolve, content, hget⟩, hget⟩
      · cases h
      · cases h
      · cases h
        exact absurd rfl hne
      · cases h

namespace Batch

variable {b : Batch} {f : Text → FormatResult} {t u : Tree} {path : Path} {paths : List Path}
  {location : Location} {treatment : Treatment} {results : List (Path × FileResult)} {text : Text}

/-! ## Turns -/

/-- At one of its turns in the run over the paths, the file at the location holds the text. -/
def HeldAtTurn (b : Batch) (paths : List Path) (t : Tree) (location : Location) (text : Text) :
    Prop :=
  ∃ front path back, paths = front ++ path :: back ∧ t.file? path = some location ∧
    ((b.process front).run t).tree.text? path = some text

/-- The file at the location ends up with what the formatter makes of a text that the file holds at
one of its turns. -/
def FormattedFrom (b : Batch) (f : Text → FormatResult) (paths : List Path) (t : Tree)
    (location : Location) (u : Tree) : Prop :=
  ∃ text shown, b.HeldAtTurn paths t location text ∧ f text = .formatted shown ∧
    u.get? location = some (.file (Content.ofText shown).bytes)

/-- An accepted file holds a text of which the formatter makes something. -/
theorem text_of_accepted (hf : b.formatter = Formatter.ofResult f)
    (h : ((b.processFile path).run t).result = .finished (.ok treatment)) :
    ∃ data text shown, t.read path = .ok data ∧ Utf8.decode data = .ok text ∧
      f text = .formatted shown := by
  rw [process_file_run hf] at h
  unfold Tree.verdict Verdict.ofBytes at h
  cases hread : t.read path with
  | error e => simp [hread] at h
  | ok data =>
      cases hdecode : Utf8.decode data with
      | error e => simp [hread, hdecode] at h
      | ok text =>
          cases hformat : f text with
          | crash => simp [hread, hdecode, hformat] at h
          | rejected message => simp [hread, hdecode, hformat] at h
          | formatted shown => exact ⟨data, text, shown, rfl, hdecode, hformat⟩

/-- An accepted file holds a text, and holds what the formatter makes of it afterwards. -/
theorem process_file_formatted (hf : b.formatter = Formatter.ofResult f) (hmode : b.mode = .inPlace)
    (hfile : t.file? path = some location)
    (h : ((b.processFile path).run t).result = .finished (.ok treatment)) :
    ∃ text shown, t.text? path = some text ∧ f text = .formatted shown ∧
      ((b.processFile path).run t).tree.get? location =
        some (.file (Content.ofText shown).bytes) := by
  obtain ⟨data, text, shown, hread, hdecode, hformat⟩ := text_of_accepted hf h
  refine ⟨text, shown, Tree.text_eq_some.mpr ⟨data, hread, hdecode⟩, hformat, ?_⟩
  obtain ⟨-, data', hget⟩ := Tree.file_eq_some_iff.mp hfile
  obtain rfl : data' = data := by
    rw [Tree.read_of_file hfile hget] at hread
    exact Except.ok.inj hread
  by_cases hchanges : (Content.ofText shown).changes data' = true
  · have hchange : Verdict.ofBytes f path data' = .change (Content.ofText shown) := by
      simp [Verdict.ofBytes, hdecode, hformat, hchanges]
    exact (process_file_makes_fit hf hmode hfile hget hchange).2
  · have hfits : t.verdict f path = .fits := by
      rw [verdict_of_file hfile hget]
      simp [Verdict.ofBytes, hdecode, hformat, hchanges]
    have hsame : data' = (Content.ofText shown).bytes := by simpa [Content.changes] using hchanges
    rw [process_file_run hf, hfits, ← hsame]
    exact hget

/-- A file that is not accepted is left as it is. -/
theorem process_file_not_accepted (hf : b.formatter = Formatter.ofResult f)
    (h : ∀ treatment, ((b.processFile path).run t).result ≠ .finished (.ok treatment)) :
    ((b.processFile path).run t).tree = t := by
  have hrun : (b.processFile path).run t = _ := process_file_run hf path t
  cases hverdict : t.verdict f path with
  | crash => rw [hrun, hverdict]
  | fault fault => rw [hrun, hverdict]
  | fits => rw [hrun, hverdict]
  | change content =>
      rw [hverdict] at hrun
      rw [hrun] at h ⊢
      obtain ⟨r, hresult, htreated⟩ := treat_cases b path content t .roomy
      rw [hresult] at h
      generalize ((b.treat path content).run t).tree = u at htreated ⊢
      cases htreated with
      | rewritten => exact absurd rfl (h .rewritten)
      | cut hmode hwrite => exact Tree.eq_of_cut Storage.roomy_takes_whole hwrite
      | kept => rfl

/-! ## Runs -/

/-- A turn in the run over the rest is one in the run over all paths. -/
theorem HeldAtTurn.cons {rest : List Path} {r : FileResult}
    (hf : b.formatter = Formatter.ofResult f)
    (hfile : ((b.processFile path).run t).result = .finished r) (hends : endsRun r = false)
    (h : b.HeldAtTurn rest ((b.processFile path).run t).tree location text) :
    b.HeldAtTurn (path :: rest) t location text := by
  obtain ⟨front, next, back, rfl, hnext, htext⟩ := h
  have hturn := process_all_goes_on hfile hends front
  refine ⟨path :: front, next, back, rfl, ?_, ?_⟩
  · rw [← (same_outline_process_file hf path t).file_eq next]
    exact hnext
  · rw [process_run] at htext ⊢
    rw [hturn]
    exact htext

/-- What a run over the rest makes of a file is what the run over all paths makes of it. -/
theorem FormattedFrom.cons {rest : List Path} {r : FileResult}
    (hf : b.formatter = Formatter.ofResult f)
    (hfile : ((b.processFile path).run t).result = .finished r) (hends : endsRun r = false)
    (h : b.FormattedFrom f rest ((b.processFile path).run t).tree location u) :
    b.FormattedFrom f (path :: rest) t location u := by
  obtain ⟨text, shown, hheld, hformat, hget⟩ := h
  exact ⟨text, shown, hheld.cons hf hfile hends, hformat, hget⟩

/-- The results accept the file at the location. -/
def Accepts (t : Tree) (location : Location) (results : List (Path × FileResult)) : Prop :=
  ∃ item ∈ results, t.file? item.1 = some location ∧ ∃ treatment, item.2 = .ok treatment

/-- A run that ends with results leaves a file as it is unless it accepts it, and otherwise leaves
what the formatter makes of a text that the file holds at one of its turns. -/
theorem process_all_formatted (hf : b.formatter = Formatter.ofResult f) (hmode : b.mode = .inPlace)
    (hrun : ((b.processAll paths).run t).result = .finished (.ok results)) (location : Location) :
    (¬Accepts t location results →
      ((b.processAll paths).run t).tree.get? location = t.get? location) ∧
    (Accepts t location results →
      b.FormattedFrom f paths t location ((b.processAll paths).run t).tree) := by
  induction paths generalizing t results with
  | nil =>
      cases hrun
      refine ⟨fun _ => rfl, ?_⟩
      rintro ⟨item, hitem, -⟩
      cases hitem
  | cons path rest ih =>
      obtain ⟨r, others, hfile, hends, hothers, rfl⟩ := process_all_cons_of_finished hrun
      have htree := tree_of_goes_on hfile hends rest
      obtain ⟨hkept, hformatted⟩ := ih hothers
      have houtline := same_outline_process_file hf path t
      -- The first turn accepts the file, or leaves what is at the location.
      have hturn : (t.file? path = some location ∧ ∃ treatment, r = .ok treatment) ∨
          ((b.processFile path).run t).tree.get? location = t.get? location := by
        by_cases hpath : t.file? path = some location
        · cases r with
          | ok treatment => exact .inl ⟨hpath, treatment, rfl⟩
          | error fault =>
              refine .inr ?_
              rw [process_file_not_accepted hf fun treatment h => by rw [hfile] at h; cases h]
        · exact .inr (get_process_file_other hf hpath)
      have hlater : Accepts ((b.processFile path).run t).tree location others →
          Accepts t location ((path, r) :: others) := by
        rintro ⟨item, hitem, hthere, hok⟩
        exact ⟨item, List.mem_cons_of_mem _ hitem, (houtline.file_eq item.1) ▸ hthere, hok⟩
      rw [htree]
      by_cases hothersAccept : Accepts ((b.processFile path).run t).tree location others
      · refine ⟨fun hnot => absurd (hlater hothersAccept) hnot, fun _ => ?_⟩
        exact (hformatted hothersAccept).cons hf hfile hends
      · have hsame := hkept hothersAccept
        constructor
        · intro hnot
          rcases hturn with ⟨hpath, hok⟩ | hsameHere
          · exact absurd ⟨(path, r), List.mem_cons_self, hpath, hok⟩ hnot
          · rw [hsame, hsameHere]
        · rintro ⟨item, hitem, hthere, treatment, hok⟩
          rcases List.mem_cons.mp hitem with rfl | hin
          · obtain rfl : r = .ok treatment := hok
            obtain ⟨text, shown, htext, hformat, hget⟩ :=
              process_file_formatted hf hmode hthere hfile
            exact ⟨text, shown, ⟨[], path, rest, rfl, hthere, htext⟩, hformat, by rw [hsame, hget]⟩
          · refine absurd ⟨item, hin, ?_, treatment, hok⟩ hothersAccept
            rw [houtline.file_eq]
            exact hthere

/-- A formatter that makes nothing of an empty text accepts regular files only. -/
theorem file_of_accepted (hf : b.formatter = Formatter.ofResult f)
    (hempty : ∀ shown, f [] ≠ .formatted shown)
    (hrun : ((b.processAll paths).run t).result = .finished (.ok results)) {path : Path}
    {treatment : Treatment} (hitem : (path, .ok treatment) ∈ results) :
    ∃ location, t.file? path = some location := by
  induction paths generalizing t results with
  | nil =>
      cases hrun
      cases hitem
  | cons first rest ih =>
      obtain ⟨r, others, hfile, hends, hothers, rfl⟩ := process_all_cons_of_finished hrun
      rcases List.mem_cons.mp hitem with heq | hin
      · obtain ⟨rfl, rfl⟩ := Prod.mk.inj heq
        obtain ⟨data, text, shown, hread, hdecode, hformat⟩ := text_of_accepted hf hfile
        have hdata : data ≠ [] := by
          rintro rfl
          obtain rfl : [] = text := Except.ok.inj hdecode
          exact hempty shown hformat
        obtain ⟨location, hthere, -⟩ := Tree.file_of_read hread hdata
        exact ⟨location, hthere⟩
      · obtain ⟨location, hthere⟩ := ih hothers hin
        exact ⟨location, (same_outline_process_file hf first t).file_eq path ▸ hthere⟩

end Batch

/-! ## Line ends -/

/-- The ASCII blanks other than the space: the line end, the tab, the form feed and the carriage
return. -/
def lineBlanks : List UInt8 :=
  [0x0A, 0x09, 0x0C, 0x0D]

/-- A character is blank whose byte is one of these, or a space. -/
theorem blank_of_byte {c : Char} {b : UInt8} (h : b.toNat = c.toNat)
    (hb : b ∈ lineBlanks ∨ b = 0x20) : Text.isBlank c = true := by
  have hc : c = Char.ofNat b.toNat := by
    rw [h, Char.ofNat_toNat]
  simp only [lineBlanks, List.mem_cons, List.not_mem_nil, or_false] at hb
  rcases hb with (rfl | rfl | rfl | rfl) | rfl
  all_goals
    rw [hc]
    decide

/-- The content of a text that ends visibly or with a space, and the byte in front of its line
end. -/
theorem Content.ends_of_text {space : Bool} {shown : Text} (h : Text.EndsIn space shown) :
    ∃ front b, (Content.ofText shown).bytes = front ++ [b, 0x0A] ∧ b ∉ lineBlanks ∧
      (b = 0x20 ↔ space = true) := by
  obtain ⟨c, hlast, hc⟩ := h.last
  obtain ⟨before, rfl⟩ := List.getLast?_eq_some_iff.mp hlast
  obtain ⟨front, b, hchar, hbyte⟩ := Utf8.encode_char_last c
  -- A last byte in the ASCII range is the whole character.
  have hascii : b.toNat < 0x80 → b.toNat = c.toNat := fun hsmall => by omega
  have hbytes : (Content.ofText (before ++ [c])).bytes =
      (Utf8.encode before ++ front) ++ [b, 0x0A] := by
    show Utf8.encode (before ++ [c]) ++ [0x0A] = _
    unfold Utf8.encode
    rw [List.flatMap_append, List.flatMap_singleton, hchar]
    simp
  refine ⟨Utf8.encode before ++ front, b, hbytes, ?_⟩
  have hsmall : b ∈ lineBlanks ∨ b = 0x20 → b.toNat < 0x80 := by
    intro hb
    simp only [lineBlanks, List.mem_cons, List.not_mem_nil, or_false] at hb
    rcases hb with (rfl | rfl | rfl | rfl) | rfl
    all_goals decide
  cases space with
  | true =>
      obtain rfl : c = ' ' := hc
      have hspace : b = 0x20 := by
        have hnumber : ' '.toNat = 32 := rfl
        exact UInt8.toNat_inj.mp (show b.toNat = 32 by omega)
      refine ⟨?_, fun _ => rfl, fun _ => hspace⟩
      rw [hspace]
      decide
  | false =>
      have hvisible : Text.isBlank c = false := hc
      have hno : ¬(b ∈ lineBlanks ∨ b = 0x20) := by
        intro hb
        rw [blank_of_byte (hascii (hsmall hb)) hb] at hvisible
        cases hvisible
      exact ⟨fun hb => hno (.inl hb), fun hb => absurd (.inr hb) hno, nofun⟩

/-- The canonical text of a query is not empty, and its last character is blank exactly when the
text is one of a query that ends with an offset of less than a millisecond, not looking ahead. Where
files take what is written to them, a file that a run accepts ends with one line end after a byte
that is no other blank than a space, and a space exactly when the text that the file held at one of
its turns is such a query. -/
theorem accepted_file_ends_with_one_line_end (s : Text) (settings : PreviewSettings) (host : Host)
    (paths : List Path) (t : Tree) :
    (∀ shown, Query.format s = .formatted shown →
      ∃ c, shown.getLast? = some c ∧ (Text.isBlank c = true ↔ Query.leavesSpace s = true)) ∧
    let b : Batch := ⟨Formatter.query, .inPlace, settings, host⟩
    ∀ report, ((b.process paths).run t).result = .finished (.ok report) →
      ∀ path treatment, (path, .ok treatment) ∈ report.results →
        ∃ location text front last, t.file? path = some location ∧
          b.HeldAtTurn paths t location text ∧
          ((b.process paths).run t).tree.read path = .ok (front ++ [last, 0x0A]) ∧
          last ∉ lineBlanks ∧ (last = 0x20 ↔ Query.leavesSpace text = true) := by
  constructor
  · intro shown hformat
    obtain ⟨c, hlast, hc⟩ := (Query.format_ends hformat).last
    refine ⟨c, hlast, ?_⟩
    cases hspace : Query.leavesSpace s with
    | true =>
        rw [hspace] at hc
        obtain rfl : c = ' ' := hc
        decide
    | false =>
        rw [hspace] at hc
        have hvisible : Text.isBlank c = false := hc
        rw [hvisible]
  · intro b report hreport path treatment hitem
    have hresults : ((b.processAll paths).run t).result = .finished (.ok report.results) := by
      rw [Batch.process_run] at hreport
      exact Batch.reported_ok_iff.mp hreport
    have hf : b.formatter = Formatter.ofResult Query.format := Formatter.query_eq
    obtain ⟨location, hfile⟩ :=
      Batch.file_of_accepted hf Query.format_nil hresults hitem
    obtain ⟨text, shown, hheld, hformat, hget⟩ :=
      (Batch.process_all_formatted hf rfl hresults location).2
        ⟨(path, .ok treatment), hitem, hfile, treatment, rfl⟩
    obtain ⟨front, last, hbytes, hends, hspace⟩ := Content.ends_of_text (Query.format_ends hformat)
    refine ⟨location, text, front, last, hfile, hheld, ?_, hends, hspace⟩
    rw [Batch.process_run]
    rw [← hbytes]
    exact Tree.read_of_file ((Batch.file_process_all hf paths t path).trans hfile) hget

/-- A file that is rewritten through a link and found as it has to be under its own name. -/
theorem linked_file_ends_with_one_line_end :
    let q := Utf8.encode ['q']
    let l := Utf8.encode ['l']
    let t : Tree := ⟨[([q], .file (Utf8.encode "x  +  y".toList)), ([l], .link q)]⟩
    let b : Batch := ⟨Formatter.query, .inPlace, ⟨none, false⟩, ⟨⟨none, none⟩, none⟩⟩
    ∃ report : Report, ((b.process [l, q]).run t).result = .finished (.ok report) ∧
      report.results = [(l, .ok .rewritten), (q, .ok .unchanged)] ∧
      ∃ front last, ((b.process [l, q]).run t).tree.read l = .ok (front ++ [last, 0x0A]) ∧
        last ∉ lineBlanks ∧ last ≠ 0x20 := by
  intro q l t b
  have hresults : ((b.processAll [l, q]).run t).result =
      .finished (.ok [(l, .ok .rewritten), (q, .ok .unchanged)]) := by decide +kernel
  have hreport := congrArg Effect.result (Batch.process_run_ok hresults)
  obtain ⟨location, text, front, last, -, hheld, hread, hends, hspace⟩ :=
    (accepted_file_ends_with_one_line_end "x  +  y".toList ⟨none, false⟩ ⟨⟨none, none⟩, none⟩ [l, q]
      t).2 _ hreport l .rewritten List.mem_cons_self
  have htext : Query.leavesSpace text = false := by
    obtain ⟨before, path, after, hpaths, -, htext⟩ := hheld
    match before with
    | [] =>
        obtain ⟨hpath, -⟩ := List.cons.inj hpaths
        have hfirst : t.text? l = some "x  +  y".toList := by decide +kernel
        rw [← hpath] at htext
        obtain rfl : "x  +  y".toList = text := Option.some.inj (hfirst.symm.trans htext)
        decide +kernel
    | [_] =>
        obtain ⟨hbefore, hrest⟩ := List.cons.inj hpaths
        obtain ⟨hpath, -⟩ := List.cons.inj hrest
        have hsecond : ((b.process [l]).run t).tree.text? q = some "x + y\n".toList := by
          decide +kernel
        rw [← hbefore, ← hpath] at htext
        obtain rfl : "x + y\n".toList = text := Option.some.inj (hsecond.symm.trans htext)
        decide +kernel
    | _ :: _ :: _ => simp at hpaths
  refine ⟨_, hreport, rfl, front, last, hread, hends, ?_⟩
  intro hlast
  rw [hspace.mp hlast] at htext
  cases htext

/-- An offset of a tenth of a millisecond is shown without its length, and the file with the query
is rewritten to a line with a space at its end. -/
theorem tiny_offset_leaves_space :
    let q := Utf8.encode ['q']
    let t : Tree := ⟨[([q], .file (Utf8.encode "foo offset 0.0001".toList))]⟩
    let b : Batch := ⟨Formatter.query, .inPlace, ⟨none, false⟩, ⟨⟨none, none⟩, none⟩⟩
    Query.format "foo offset 0.0001".toList = .formatted "foo offset ".toList ∧
      ((b.processAll [q]).run t).result = .finished (.ok [(q, .ok .rewritten)]) ∧
      ((b.processAll [q]).run t).tree.read q = .ok (Utf8.encode "foo offset \n".toList) ∧
      ¬∀ s shown, Query.format s = .formatted shown →
        ∃ c, shown.getLast? = some c ∧ Text.isBlank c = false := by
  intro q t b
  have hformat : Query.format "foo offset 0.0001".toList = .formatted "foo offset ".toList := by
    decide +kernel
  refine ⟨hformat, by decide +kernel, by decide +kernel, ?_⟩
  intro hall
  obtain ⟨c, hlast, hc⟩ := hall _ _ hformat
  obtain rfl : ' ' = c := Option.some.inj hlast
  exact absurd hc (by decide)

end QueryTidy
