import QueryTidy.Proofs.Run.Concat
import QueryTidy.Proofs.Run.Preview
import QueryTidy.Proofs.Text.Encoding

/-!
# Runs that find nothing to do

A file that fits is left as it is, and so is a tree in which all files of a run fit
(`Batch.process_all_fits`). After a run without faults that makes changes, all its files fit
(`Batch.process_all_settles`), as long as what is written would not be changed itself. The invariant
of that run is that every file of the list either is as at the start or fits.
-/

namespace QueryTidy

open QueryTidy.Action

/-! ## Contents that fit -/

/-- The bytes are those that the formatter gives them. -/
def Fits (f : Text → FormatResult) (data : Bytes) : Prop :=
  ∃ text, Utf8.decode data = .ok text ∧
    ∃ shown, f text = .formatted shown ∧ (Content.ofText shown).bytes = data

/-- A content is the encoding of the formatted text and a line end. -/
theorem Content.of_text_bytes (shown : Text) :
    (Content.ofText shown).bytes = Utf8.encode (shown ++ ['\n']) := by
  have hline : Utf8.encode ['\n'] = [0x0A] := by decide
  have happend : Utf8.encode (shown ++ ['\n']) = Utf8.encode shown ++ Utf8.encode ['\n'] :=
    List.flatMap_append
  rw [happend, hline]
  rfl

/-- A content fits if the formatter leaves its text as it is. -/
theorem fits_of_text {f : Text → FormatResult} {shown : Text}
    (h : f (shown ++ ['\n']) = .formatted shown) : Fits f (Content.ofText shown).bytes := by
  refine ⟨shown ++ ['\n'], ?_, shown, h, rfl⟩
  rw [Content.of_text_bytes, Utf8.decode_encode]

namespace Tree

variable {t u : Tree} {f : Text → FormatResult} {p q : Path} {storage : Storage}

/-- The file at a path fits if the path reads bytes that fit. -/
theorem verdict_fits_iff_read :
    t.verdict f p = .fits ↔ ∃ data, t.read p = .ok data ∧ Fits f data := by
  rw [verdict_fits_iff]
  constructor
  · rintro ⟨text, shown, hread, hdecode, hformat⟩
    exact ⟨_, hread, text, hdecode, shown, hformat, rfl⟩
  · rintro ⟨data, hread, text, hdecode, shown, hformat, rfl⟩
    exact ⟨text, shown, hread, hdecode, hformat⟩

/-- A path with a file that has to change leads to a regular file, if nothing is made of an empty
text. -/
theorem leads_to_file_of_change {content : Content} (hempty : ∀ shown, f [] ≠ .formatted shown)
    (h : t.verdict f p = .change content) : t.LeadsToFile p := by
  obtain ⟨data, text, shown, hread, hdecode, hformat, -, -⟩ := read_of_verdict_change h
  unfold read at hread
  split at hread
  · cases hread
  · rename_i place data' hlocate
    cases place with
    | inside location => exact ⟨location, data', hlocate⟩
    | outside names =>
        exact absurd (locate_eq_ok.1 hlocate).2 (system_ne_file names data')
  · cases hread
    have hnil : Utf8.decode [] = .ok [] := rfl
    rw [hnil] at hdecode
    cases hdecode
    exact absurd hformat (hempty shown)
  · cases hread
  · cases hread

/-- Writing a content that fits at a path makes the file there fit, and every file that fits goes on
to do so. -/
theorem fits_after_write {content : Bytes} (hwrite : t.write p content storage = .ok u)
    (hfile : t.LeadsToFile p) (hfits : Fits f content) :
    u.verdict f p = .fits ∧ (∀ q, t.verdict f q = .fits → u.verdict f q = .fits) ∧
      ∀ q, u.verdict f q = .fits ∨ u.read q = t.read q := by
  have hsame : ∀ q, t.SameFile p q → u.verdict f q = .fits := by
    rintro q ⟨location, old, hget, hp, hq⟩
    refine verdict_fits_iff_read.2 ⟨content, ?_, hfits⟩
    have hfind : t.find? (.inside location) = some (.entry (.file old)) := by simp [hget]
    rcases received_of_write hwrite with
      ⟨location', old', hlocate, rfl⟩ | ⟨place, device, hlocate, rfl⟩
    · obtain rfl : location' = location := by
        have hp' := (locate_eq_ok.1 hlocate).1
        rw [hp] at hp'
        cases hp'
        rfl
      exact read_set_same (locate_eq_ok.2 ⟨hq, hfind⟩)
    · rw [locate_eq_ok.2 ⟨hp, hfind⟩] at hlocate
      cases hlocate
  have hcases : ∀ q, u.verdict f q = .fits ∨ u.read q = t.read q := fun q => by
    by_cases hq : t.SameFile p q
    · exact .inl (hsame q hq)
    · exact .inr ((received_of_write hwrite).read_other hq)
  refine ⟨?_, fun q hq => ?_, hcases⟩
  · exact verdict_fits_iff_read.2 ⟨content, (received_of_write hwrite).read_same hfile, hfits⟩
  · rcases hcases q with h | h
    · exact h
    · rw [verdict_congr h]
      exact hq

end Tree

/-! ## Batches -/

namespace Batch

variable {b : Batch} {f : Text → FormatResult} {t u : Tree} {storage : Storage} {paths : List Path}

/-- Files that all fit are left as they are. -/
theorem process_all_fits (storage : Storage) (hf : b.formatter = Formatter.ofResult f)
    (h : ∀ path ∈ paths, t.verdict f path = .fits) :
    (b.processAll paths).run t storage =
      ⟨.finished (.ok (paths.map fun path => (path, .ok .unchanged))), t,
        paths.map fitsRecord, []⟩ := by
  induction paths with
  | nil => rfl
  | cons path rest ih =>
      have hrun : (b.processFile path).run t storage =
          ⟨.finished (.ok .unchanged), t, [fitsRecord path], []⟩ := by
        rw [process_file_run hf, h path List.mem_cons_self]
      rw [process_all_cons hrun rfl, ih fun p hp => h p (List.mem_cons_of_mem _ hp)]
      rfl

/-- What has to be shown of every file for a run to leave only files that fit: what would be written
fits. -/
def Settles (f : Text → FormatResult) (t : Tree) (paths : List Path) : Prop :=
  ∀ path ∈ paths, ∀ content, t.verdict f path = .change content → Fits f content.bytes

/-- The invariant of a run from a tree `t`: every file of the list is as in `t`, or fits. -/
def Kept (f : Text → FormatResult) (t u : Tree) (paths : List Path) : Prop :=
  ∀ path ∈ paths, u.verdict f path = .fits ∨ u.read path = t.read path

/-- A file that is treated in place without a fault fits then, and the invariant goes on to hold. -/
theorem process_file_settles (hmode : b.mode = .inPlace) (hf : b.formatter = Formatter.ofResult f)
    (hempty : ∀ shown, f [] ≠ .formatted shown) (hsettles : Settles f t paths)
    (hkept : Kept f t u paths) {path : Path} (hpath : path ∈ paths) {treatment : Treatment}
    (hresult : ((b.processFile path).run u storage).result = .finished (.ok treatment)) :
    ∃ v logs, (b.processFile path).run u storage = ⟨.finished (.ok treatment), v, logs, []⟩ ∧
      v.verdict f path = .fits ∧ (∀ q, u.verdict f q = .fits → v.verdict f q = .fits) ∧
      Kept f t v paths := by
  rw [process_file_run hf] at hresult ⊢
  cases hverdict : u.verdict f path with
  | crash => simp [hverdict] at hresult
  | fault fault => simp [hverdict] at hresult
  | fits =>
      obtain rfl : treatment = .unchanged := by simpa [hverdict, eq_comm] using hresult
      exact ⟨u, _, rfl, hverdict, fun _ hq => hq, hkept⟩
  | change content =>
      simp only [hverdict, treat_in_place_run hmode] at hresult ⊢
      have hfits : Fits f content.bytes := by
        rcases hkept path hpath with h | h
        · rw [hverdict] at h
          cases h
        · rw [Tree.verdict_congr h] at hverdict
          exact hsettles path hpath content hverdict
      cases hwrite : u.write path content.bytes storage with
      | error e => cases e <;> simp [hwrite] at hresult
      | ok v =>
          obtain rfl : treatment = .rewritten := by simpa [hwrite, eq_comm] using hresult
          obtain ⟨hhere, hother, hcases⟩ :=
            Tree.fits_after_write hwrite (Tree.leads_to_file_of_change hempty hverdict) hfits
          refine ⟨v, _, rfl, hhere, hother, fun q hq => ?_⟩
          rcases hkept q hq with h | h
          · exact .inl (hother q h)
          · exact (hcases q).imp id fun hread => hread.trans h

/-- After a run in place without faults all its files fit. -/
theorem process_all_settles (hmode : b.mode = .inPlace) (hf : b.formatter = Formatter.ofResult f)
    (hempty : ∀ shown, f [] ≠ .formatted shown) {all : List Path} (hall : ∀ p ∈ paths, p ∈ all)
    (hsettles : Settles f t all) (hkept : Kept f t u all) {results : List (Path × FileResult)}
    (hresult : ((b.processAll paths).run u storage).result = .finished (.ok results))
    (hclean : ∀ item ∈ results, Report.fault? item.2 = none) :
    (∀ path ∈ paths, ((b.processAll paths).run u storage).tree.verdict f path = .fits) ∧
      ∀ q, u.verdict f q = .fits →
        ((b.processAll paths).run u storage).tree.verdict f q = .fits := by
  induction paths generalizing u results with
  | nil => exact ⟨fun path hpath => (nomatch hpath), fun q hq => hq⟩
  | cons path rest ih =>
      obtain ⟨r, hfile, hends⟩ := process_file_of_finished hresult
      have hrun := process_all_goes_on hfile hends rest
      rw [hrun] at hresult ⊢
      obtain ⟨others, hothers, rfl⟩ := with_result_ok hresult
      have hr := hclean _ List.mem_cons_self
      cases r with
      | error fault => cases hr
      | ok treatment =>
          obtain ⟨v, logs, hv, hfits, hkeeps, hkept'⟩ :=
            process_file_settles hmode hf hempty hsettles hkept (hall path List.mem_cons_self) hfile
          rw [hv] at hothers ⊢
          obtain ⟨hrest, hafter⟩ := ih (fun p hp => hall p (List.mem_cons_of_mem _ hp)) hkept'
            hothers fun item hitem => hclean item (List.mem_cons_of_mem _ hitem)
          refine ⟨fun p hp => ?_, fun q hq => hafter q (hkeeps q hq)⟩
          rcases List.mem_cons.1 hp with rfl | hp
          · exact hafter p hfits
          · exact hrest p hp

end Batch

end QueryTidy
