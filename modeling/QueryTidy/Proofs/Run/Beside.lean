import QueryTidy.Proofs.Files.Locations
import QueryTidy.Proofs.Run.Concat
import QueryTidy.Proofs.Run.Turns

/-!
# Files beside one another

With a formatter that depends on the text alone, the treatment of a file changes at most the content
of the regular file that its path leads to (`Batch.process_file_received`). Where changes are made,
and the storage does not look at what files hold, it does not depend on the content of any other
file either: two runs from trees that differ in one file do the same about all others, and their
trees differ in that file as before (`Batch.process_all_beside`).
-/

namespace QueryTidy.Batch

open QueryTidy.Action

variable {b : Batch} {f : Text → FormatResult} {t : Tree} {storage : Storage} {path : Path}
  {paths : List Path} {location : Location} {old : Bytes}

/-! ## What a file leaves alone -/

/-- The treatment of a file brings at most a content to what the path leads to. -/
theorem process_file_received (hf : b.formatter = Formatter.ofResult f) (path : Path) (t : Tree)
    (storage : Storage) :
    (∃ bytes, t.Received path bytes ((b.processFile path).run t storage).tree) ∨
      ((b.processFile path).run t storage).tree = t := by
  rw [process_file_run hf]
  cases t.verdict f path with
  | crash => exact .inr rfl
  | fault fault => exact .inr rfl
  | fits => exact .inr rfl
  | change content =>
      obtain ⟨r, -, htreated⟩ := treat_cases b path content t storage
      show (∃ bytes, t.Received path bytes ((b.treat path content).run t storage).tree) ∨
        ((b.treat path content).run t storage).tree = t
      generalize ((b.treat path content).run t storage).tree = u at htreated ⊢
      cases htreated with
      | rewritten hmode hwrite => exact .inl ⟨_, Tree.received_of_write hwrite⟩
      | cut hmode hwrite => exact .inl ⟨_, (Tree.received_of_cut hwrite).2⟩
      | kept => exact .inr rfl

/-- The treatment of a file leaves the outline of the tree as it is. -/
theorem same_outline_process_file (hf : b.formatter = Formatter.ofResult f) (path : Path)
    (t : Tree) (storage : Storage := .roomy) :
    Tree.SameOutline ((b.processFile path).run t storage).tree t := by
  rcases process_file_received hf path t storage with ⟨bytes, hreceived⟩ | hkept
  · exact hreceived.same_outline
  · rw [hkept]
    exact fun _ => rfl

/-- The treatment of a file changes nothing at a location that its path does not lead to. -/
theorem get_process_file_other (hf : b.formatter = Formatter.ofResult f)
    (h : t.file? path ≠ some location) :
    ((b.processFile path).run t storage).tree.get? location = t.get? location := by
  rcases process_file_received hf path t storage with ⟨bytes, hreceived⟩ | hkept
  · rcases hreceived with ⟨place, old, hlocate, heq⟩ | ⟨-, -, -, heq⟩
    · rw [heq]
      refine Tree.get_set_other ?_ _
      rintro rfl
      exact h (Tree.file_eq_some.2 ⟨old, hlocate⟩)
    · rw [heq]
  · rw [hkept]

/-! ## What a file does not depend on -/

/-- The treatment of a file does not depend on the content of another one, and leaves it. -/
theorem process_file_beside (hf : b.formatter = Formatter.ofResult f) (hmode : b.mode = .inPlace)
    (hstorage : storage.Steady) (hget : t.get? location = some (.file old))
    (hpath : t.file? path ≠ some location) (content : Bytes) :
    (b.processFile path).run (t.refill location content) storage =
      { (b.processFile path).run t storage with
        tree := ((b.processFile path).run t storage).tree.refill location content } := by
  have hread := Tree.read_of_locate (Tree.locate_refill_other hget hpath content)
  rw [process_file_run hf, process_file_run hf, Tree.verdict_congr hread]
  cases t.verdict f path with
  | crash => rfl
  | fault fault => rfl
  | fits => rfl
  | change shown =>
      simp only [treat_in_place_run hmode, Tree.write_refill_other hstorage hget hpath]
      cases t.write path shown.bytes storage with
      | ok u => rfl
      | error e => cases e <;> rfl

/-- What is done about files does not depend on the content of another one, which stays. -/
theorem process_all_beside (hf : b.formatter = Formatter.ofResult f) (hmode : b.mode = .inPlace)
    (hstorage : storage.Steady) (hget : t.get? location = some (.file old))
    (hpaths : ∀ path ∈ paths, t.file? path ≠ some location) (content : Bytes) :
    (b.processAll paths).run (t.refill location content) storage =
      { (b.processAll paths).run t storage with
        tree := ((b.processAll paths).run t storage).tree.refill location content } := by
  induction paths generalizing t with
  | nil => rfl
  | cons path rest ih =>
      obtain ⟨hpath, hrest⟩ := List.forall_mem_cons.1 hpaths
      have hhere := process_file_beside hf hmode hstorage hget hpath content
      have hresult := congrArg Effect.result hhere
      have hfirst := first_file b path rest t storage
      generalize (b.processAll (path :: rest)).run t storage = whole at hfirst
      cases hfirst with
      | crash h => rw [process_all_crash (hresult.trans h), hhere]
      | fatal fault h hends => rw [process_all_fatal (hresult.trans h) hends, hhere]
      | goesOn r h hends =>
          -- The rest is treated from trees that differ in the same file.
          have hget' : ((b.processFile path).run t storage).tree.get? location = some (.file old) :=
            (get_process_file_other hf hpath).trans hget
          have hrest' : ∀ p ∈ rest,
              ((b.processFile path).run t storage).tree.file? p ≠ some location := by
            intro p hp
            rw [(same_outline_process_file hf path t storage).file_eq]
            exact hrest p hp
          rw [process_all_goes_on (hresult.trans h) hends, hhere, ih hget' hrest']

/-- What a batch does about its files does not depend on the content of another one, which stays. -/
theorem process_beside (hf : b.formatter = Formatter.ofResult f) (hmode : b.mode = .inPlace)
    (hstorage : storage.Steady) (hget : t.get? location = some (.file old))
    (hpaths : ∀ path ∈ paths, t.file? path ≠ some location) (content : Bytes) :
    (b.process paths).run (t.refill location content) storage =
      { (b.process paths).run t storage with
        tree := ((b.process paths).run t storage).tree.refill location content } := by
  rw [process_run, process_run, process_all_beside hf hmode hstorage hget hpaths]

end QueryTidy.Batch
