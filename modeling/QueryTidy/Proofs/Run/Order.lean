import QueryTidy.Proofs.Run.Concat
import QueryTidy.Proofs.Run.Frame
import QueryTidy.Proofs.Run.Preview

/-!
# The order of files

What a run does about a file depends on what is located at its path (`Batch.result_of_locate`), and
treating a file changes what is located at another path only if both lead to one file
(`Batch.locate_after`). So where no two paths of a list do, every file comes to what it comes to
alone, and the tree is left with the contents that the files get alone (`Batch.process_all_apart`).
Contents of different files may be replaced in any order (`Tree.refill_all_perm`), and therefore the
files may be treated in any order (`Batch.order_of_files_does_not_matter`).
-/

namespace QueryTidy

open QueryTidy.Action

namespace Tree

variable {t u : Tree} {p q : Path}

/-- Two paths lead to one regular file where both lead to a file at the same location. -/
theorem same_file_iff :
    t.SameFile p q ↔ ∃ location, t.file? p = some location ∧ t.file? q = some location := by
  simp only [file_eq_some]
  constructor
  · rintro ⟨location, content, hget, hp, hq⟩
    have hfind : t.find? (.inside location) = some (.entry (.file content)) := by simp [hget]
    exact ⟨location, ⟨content, locate_eq_ok.2 ⟨hp, hfind⟩⟩, content, locate_eq_ok.2 ⟨hq, hfind⟩⟩
  · rintro ⟨location, ⟨content, hp⟩, content', hq⟩
    obtain ⟨hp, hfind⟩ := locate_eq_ok.1 hp
    exact ⟨location, content, get_of_find hfind, hp, (locate_eq_ok.1 hq).1⟩

/-- Whether a file has to change depends on what its path reads. -/
theorem change_congr (h : u.read p = t.read p) (f : Text → FormatResult) :
    u.change? f p = t.change? f p := by
  unfold change?
  rw [h]

end Tree

namespace Batch

variable {b : Batch} {f : Text → FormatResult} {t u : Tree} {path other : Path}
  {xs ys : List Path}

/-! ## One file -/

/-- The location of the file at a path and the content that a batch gives to it, if it rewrites the
file. -/
def refill? (b : Batch) (f : Text → FormatResult) (t : Tree) (path : Path) :
    Option (Location × Bytes) :=
  if b.mode = .inPlace then do
    let content ← t.change? f path
    let location ← t.file? path
    some (location, content.bytes)
  else none

/-- A batch gives a content only to the file that the path leads to. -/
theorem file_of_refill {item : Location × Bytes} (h : b.refill? f t path = some item) :
    t.file? path = some item.1 := by
  unfold refill? at h
  split at h
  · obtain ⟨content, -, h⟩ := Option.bind_eq_some_iff.1 h
    obtain ⟨location, hfile, h⟩ := Option.bind_eq_some_iff.1 h
    cases h
    exact hfile
  · cases h

/-- A file that has no new content is given none. -/
theorem refill_of_no_change (h : t.change? f path = none) : b.refill? f t path = none := by
  simp [refill?, h]

/-- A file that has to change is given its content where changes are made, and only there. -/
theorem treat_tree {content : Content} (hchange : t.change? f path = some content) :
    ((b.treat path content).run t).tree = t.refillAll (b.refill? f t path).toList := by
  cases hmode : b.mode with
  | preview =>
      have hnone : b.refill? f t path = none := by simp [refill?, hmode]
      rw [hnone]
      exact treat_keeps_tree hmode path content t .roomy
  | inPlace =>
      rw [treat_in_place_run hmode]
      cases hwrite : t.write path content.bytes with
      | ok u =>
          rw [(Tree.received_of_write hwrite).refills]
          cases hfile : t.file? path <;> simp [refill?, hmode, hchange, hfile, Tree.refillAll]
      | error e =>
          have hfile : t.file? path = none := by
            refine Option.eq_none_iff_forall_ne_some.2 fun location hfile => ?_
            obtain ⟨u, hu⟩ := Tree.write_of_file hfile content.bytes
            rw [hwrite] at hu
            cases hu
          have hnone : b.refill? f t path = none := by simp [refill?, hmode, hchange, hfile]
          rw [hnone]
          cases e with
          | opening e => rfl
          | writing e u =>
              have hkept := (Tree.received_of_cut hwrite).2.refills
              rw [hfile] at hkept
              exact hkept

/-- The treatment of a file gives it its content and changes nothing else. -/
theorem process_file_tree (hf : b.formatter = Formatter.ofResult f) (path : Path) (t : Tree) :
    ((b.processFile path).run t).tree = t.refillAll (b.refill? f t path).toList := by
  rw [process_file_run hf]
  cases hchange : t.change? f path with
  | some content =>
      rw [Tree.verdict_change_iff.2 hchange]
      exact treat_tree hchange
  | none =>
      rw [refill_of_no_change hchange]
      cases hverdict : t.verdict f path with
      | change content => exact absurd hverdict (Tree.verdict_ne_change hchange content)
      | _ => rfl

/-- What a batch does about a file, but for the tree that is left, depends on what is located at its
path. Where changes are shown, the tool may look at all files. -/
theorem result_of_locate (hf : b.formatter = Formatter.ofResult f)
    (hpreview : b.mode = .preview → u = t) (h : u.locate path = t.locate path) :
    ((b.processFile path).run u).result = ((b.processFile path).run t).result := by
  rw [process_file_run hf, process_file_run hf, Tree.verdict_congr (Tree.read_of_locate h)]
  cases t.verdict f path with
  | change content =>
      dsimp only
      cases hmode : b.mode with
      | preview => rw [hpreview hmode]
      | inPlace =>
          simp only [treat_in_place_run hmode]
          rcases Tree.write_of_locate h content.bytes with
            ⟨v, w, hu, ht⟩ | ⟨e, hu, ht⟩ | ⟨e, v, w, hu, ht⟩
          · rw [hu, ht]
          · rw [hu, ht]
          · rw [hu, ht]
  | _ => rfl

/-- The content that a batch gives to a file depends on what is located at its path. -/
theorem refill_of_locate (h : u.locate path = t.locate path) :
    b.refill? f u path = b.refill? f t path := by
  unfold refill? Tree.file?
  rw [Tree.change_congr (Tree.read_of_locate h), h]

/-- The treatment of a file leaves what is located at a path that does not lead to the same file. -/
theorem locate_after (hf : b.formatter = Formatter.ofResult f) (h : ¬t.SameFile path other) :
    ((b.processFile path).run t).tree.locate other = t.locate other := by
  rw [process_file_tree hf]
  cases hrefill : b.refill? f t path with
  | none => rfl
  | some item =>
      obtain ⟨location, bytes⟩ := item
      have hfile := file_of_refill hrefill
      obtain ⟨old, hlocate⟩ := Tree.file_eq_some.1 hfile
      have hget := Tree.get_of_find (Tree.locate_eq_ok.1 hlocate).2
      show (t.refill location bytes).locate other = _
      rw [← Tree.set_eq_refill hget]
      refine Tree.locate_set_other hget fun hresolve => h ?_
      exact ⟨location, old, hget, (Tree.locate_eq_ok.1 hlocate).1, hresolve⟩

/-! ## A list of files -/

/-- The result that a file has alone. That of a file which stops the program does not matter. -/
def resultAlone (b : Batch) (t : Tree) (path : Path) : FileResult :=
  match ((b.processFile path).run t).result with
  | .finished r => r
  | .crashed => .ok .unchanged

/-- Where no two paths of a list lead to one file, a run over the list comes to what its files come
to alone: the program stops if one of them stops it, or else each file has the result that it has
alone, and the contents are replaced that the files alone would get. -/
theorem process_all_apart (hf : b.formatter = Formatter.ofResult f)
    (hequipped : b.mode = .inPlace ∨ b.settings.comparer ≠ none)
    (hpreview : b.mode = .preview → u = t)
    (hapart : xs.Pairwise fun p q => ¬t.SameFile p q)
    (hsame : ∀ path ∈ xs, u.locate path = t.locate path) :
    ((∃ path ∈ xs, t.verdict f path = .crash) ∧ ((b.processAll xs).run u).result = .crashed) ∨
    ((∀ path ∈ xs, t.verdict f path ≠ .crash) ∧
      ((b.processAll xs).run u).result =
        .finished (.ok (xs.map fun path => (path, b.resultAlone t path))) ∧
      ((b.processAll xs).run u).tree = u.refillAll (xs.filterMap (b.refill? f t))) := by
  induction xs generalizing u with
  | nil => exact .inr ⟨fun _ h => (nomatch h), rfl, rfl⟩
  | cons path rest ih =>
      obtain ⟨hother, hrest⟩ := List.pairwise_cons.1 hapart
      have hhere := hsame path List.mem_cons_self
      have hverdict : u.verdict f path = t.verdict f path :=
        Tree.verdict_congr (Tree.read_of_locate hhere) f
      by_cases hcrash : t.verdict f path = .crash
      · refine .inl ⟨⟨path, List.mem_cons_self, hcrash⟩, ?_⟩
        have hstop : ((b.processFile path).run u).result = .crashed := by
          rw [process_file_run hf, hverdict, hcrash]
        rw [process_all_crash hstop]
      · obtain ⟨r, hfile, hends⟩ := process_file_goes_on hf hequipped (hverdict ▸ hcrash)
        -- The files that are left are found as before: they are other files.
        have hleft : ∀ p ∈ rest, ((b.processFile path).run u).tree.locate p = t.locate p := by
          intro p hp
          have hp' := hsame p (List.mem_cons_of_mem _ hp)
          rw [locate_after hf, hp']
          intro hsameFile
          refine hother p hp ?_
          rw [Tree.same_file_iff] at hsameFile ⊢
          unfold Tree.file? at hsameFile ⊢
          rwa [hhere, hp'] at hsameFile
        have halone : b.resultAlone t path = r := by
          unfold resultAlone
          rw [← result_of_locate hf hpreview hhere, hfile]
        have hpreview' : b.mode = .preview → ((b.processFile path).run u).tree = t := by
          intro hmode
          rw [process_file_tree hf]
          simpa [refill?, hmode, Tree.refillAll] using hpreview hmode
        rw [process_all_goes_on hfile hends]
        rcases ih hpreview' hrest hleft with ⟨⟨p, hp, hpcrash⟩, hresult⟩ | ⟨hgoes, hresult, htree⟩
        · refine .inl ⟨⟨p, List.mem_cons_of_mem _ hp, hpcrash⟩, ?_⟩
          rw [hresult]
          rfl
        · refine .inr ⟨List.forall_mem_cons.2 ⟨hcrash, hgoes⟩, ?_, ?_⟩
          · rw [hresult, List.map_cons, halone]
            rfl
          · rw [htree, process_file_tree hf, refill_of_locate hhere]
            cases hrefill : b.refill? f t path with
            | none => rw [List.filterMap_cons_none hrefill]; rfl
            | some item => rw [List.filterMap_cons_some hrefill]; rfl

/-- Reports of the same results in another order are clean together. -/
theorem is_clean_perm {r s : Report} (h : r.results.Perm s.results) : r.isClean = s.isClean := by
  have hfaults : r.faults.Perm s.faults := h.filterMap _
  rw [Report.isClean, Report.isClean, hfaults.isEmpty_eq]

/-- The order of files does not matter, where they take what is written to them. Two runs over the
same files in different orders, from one tree in which no two of their paths lead to one regular
file, stop the program together, and only on a text that stops the formatter. Otherwise both end
with a report in which each path has the same result, whatever the order; the trees that they leave
are equal, and the reports are clean together. -/
theorem order_of_files_does_not_matter (hf : b.formatter = Formatter.ofResult f)
    (hequipped : b.mode = .inPlace ∨ b.settings.comparer ≠ none) (hperm : xs.Perm ys) (t : Tree)
    (hapart : xs.Pairwise fun p q => ¬t.SameFile p q) :
    let first := (b.process xs).run t
    let second := (b.process ys).run t
    (first.result = .crashed ↔ second.result = .crashed) ∧
      (first.result = .crashed → ∃ path ∈ xs, ∃ text ∈ t.text? path, f text = .crash) ∧
      (first.result ≠ .crashed → ∃ result : Path → FileResult,
        first.result = .finished (.ok ⟨xs.map fun path => (path, result path)⟩) ∧
        second.result = .finished (.ok ⟨ys.map fun path => (path, result path)⟩) ∧
        first.tree = second.tree ∧
        (Report.mk (xs.map fun path => (path, result path))).isClean =
          (Report.mk (ys.map fun path => (path, result path))).isClean) := by
  intro first second
  have hapart' : ys.Pairwise fun p q => ¬t.SameFile p q :=
    hperm.pairwise hapart fun h h' => h h'.symm
  have hlocations : (xs.filterMap (b.refill? f t)).Pairwise fun x y => x.1 ≠ y.1 := by
    refine List.pairwise_filterMap.2 (hapart.imp fun hpq x hx y hy hxy => hpq ?_)
    exact Tree.same_file_iff.2 ⟨x.1, file_of_refill hx, hxy ▸ file_of_refill hy⟩
  have hfirst := process_all_apart hf hequipped (fun _ => rfl) hapart fun path _ => rfl
  have hsecond := process_all_apart hf hequipped (fun _ => rfl) hapart' fun path _ => rfl
  simp only [first, second, process_run]
  -- Both lists have the same files, so a file of the first stops the program if one of the second
  -- does.
  rcases hfirst with ⟨⟨path, hpath, hcrash⟩, hresult⟩ | ⟨hgoes, hresult, htree⟩
  · rcases hsecond with ⟨-, hresult'⟩ | ⟨hgoes', -, -⟩
    · obtain ⟨text, htext, hformat⟩ := Tree.text_of_verdict_crash hcrash
      rw [hresult, hresult']
      exact ⟨Iff.rfl, fun _ => ⟨path, hpath, text, htext, hformat⟩, fun h => absurd rfl h⟩
    · exact absurd hcrash (hgoes' path (hperm.mem_iff.1 hpath))
  · rcases hsecond with ⟨⟨path, hpath, hcrash⟩, -⟩ | ⟨-, hresult', htree'⟩
    · exact absurd hcrash (hgoes path (hperm.mem_iff.2 hpath))
    · rw [hresult, hresult', htree, htree']
      refine ⟨by simp [reported], (fun h => nomatch h),
        fun _ => ⟨b.resultAlone t, rfl, rfl, ?_, ?_⟩⟩
      · exact Tree.refill_all_perm (hperm.filterMap _) hlocations t
      · exact is_clean_perm (hperm.map _)

/-- Two files, one of them found through a link, and a path that leads nowhere, in two orders. -/
theorem linked_files_in_either_order :
    let q := Utf8.encode ['q']
    let r := Utf8.encode ['r']
    let l := Utf8.encode ['l']
    let m := Utf8.encode ['m']
    let t : Tree := ⟨[([q], .file (Utf8.encode ['a', ' '])), ([r], .file []), ([l], .link q)]⟩
    let b : Batch := ⟨Formatter.ofFunction fun _ => .ok ['a'], .inPlace, ⟨none, false⟩,
      ⟨⟨none, none⟩, none⟩⟩
    [l, m, r].Perm [r, l, m] ∧ ([l, m, r].Pairwise fun p q => ¬t.SameFile p q) ∧
      ((b.process [l, m, r]).run t).tree = ((b.process [r, l, m]).run t).tree ∧
      ((b.process [r, l, m]).run t).tree = ⟨[([q], .file (Utf8.encode ['a', '\n'])),
        ([r], .file (Utf8.encode ['a', '\n'])), ([l], .link q)]⟩ := by
  intro q r l m t b
  have hperm : [l, m, r].Perm [r, l, m] := by decide
  have hapart : [l, m, r].Pairwise fun p q => ¬t.SameFile p q := by
    have hfiles : [l, m, r].Pairwise fun p q => t.file? p = none ∨ t.file? p ≠ t.file? q := by
      decide
    refine hfiles.imp fun hpq hsame => ?_
    obtain ⟨location, hp, hq⟩ := Tree.same_file_iff.1 hsame
    rw [hp, hq] at hpq
    simp at hpq
  obtain ⟨-, hcrash, hends⟩ := order_of_files_does_not_matter (b := b) (Formatter.of_function_eq _)
    (.inl rfl) hperm t hapart
  obtain ⟨-, -, -, htree, -⟩ := hends fun h => by
    obtain ⟨-, -, -, -, hformat⟩ := hcrash h
    cases hformat
  exact ⟨hperm, hapart, htree, by decide +kernel⟩

end Batch

end QueryTidy
