import QueryTidy.Proofs.Files.Rewriting

/-!
# Regular files by their locations

A path leads to a regular file where it is resolved to a location with one
(`Tree.file_eq_some_iff`). Another content of the file leaves all paths leading where they led
(`Tree.file_refill`), and paths to other files locate what they located before
(`Tree.locate_refill_other`). A content that is written at such a path comes to the same as before,
where the storage does not look at what files hold (`Tree.write_refill_other`).
-/

namespace QueryTidy

namespace Tree

variable {t u : Tree} {p : Path} {location : Location} {old data : Bytes}

/-! ## Where paths lead -/

/-- A path leads to a regular file where it is resolved to a location with one. -/
theorem file_eq_some_iff :
    t.file? p = some location ↔
      t.resolve p = .ok (.inside location) ∧ ∃ data, t.get? location = some (.file data) := by
  rw [file_eq_some]
  constructor
  · rintro ⟨data, hlocate⟩
    obtain ⟨hresolve, hfind⟩ := locate_eq_ok.1 hlocate
    exact ⟨hresolve, data, get_of_find hfind⟩
  · rintro ⟨hresolve, data, hget⟩
    exact ⟨data, locate_eq_ok.2 ⟨hresolve, by simp [hget]⟩⟩

/-- A path to a regular file reads the bytes that are kept there. -/
theorem read_of_file (hfile : t.file? p = some location)
    (hget : t.get? location = some (.file data)) : t.read p = .ok data := by
  have hlocate : t.locate p = .ok (.inside location, .entry (.file data)) :=
    locate_eq_ok.2 ⟨(file_eq_some_iff.1 hfile).1, by simp [hget]⟩
  simp [read, hlocate]

namespace SameOutline

/-- The same outline seen from the other tree. -/
theorem symm (h : SameOutline t u) : SameOutline u t := fun location => (h location).symm

/-- Outlines are compared through a tree between. -/
theorem trans {v : Tree} (htu : SameOutline t u) (huv : SameOutline u v) : SameOutline t v :=
  fun location => (htu location).trans (huv location)

/-- Where one tree has a file, a tree with the same outline has one, too. -/
theorem get_file (h : SameOutline t u) (hget : t.get? location = some (.file data)) :
    ∃ content, u.get? location = some (.file content) := by
  have hfind : t.find? (.inside location) = some (.entry (.file data)) := by simp [hget]
  obtain ⟨content, hfind'⟩ := h.find_file hfind
  exact ⟨content, get_of_find hfind'⟩

/-- Every path leads to the same file in trees with the same outline. -/
theorem file_eq (h : SameOutline t u) (p : Path) : t.file? p = u.file? p := by
  ext location
  rw [file_eq_some_iff, file_eq_some_iff, h.resolve_eq]
  refine and_congr_right fun _ => ⟨?_, ?_⟩
  · rintro ⟨data, hget⟩
    exact h.get_file hget
  · rintro ⟨data, hget⟩
    exact h.symm.get_file hget

/-- A device in one tree is one in the other. -/
theorem find_device (h : SameOutline t u) {place : Place} {device : Device}
    (hdevice : t.find? place = some (.device device)) : u.find? place = some (.device device) := by
  rw [← h.find_eq fun content hfile => ?_]
  · exact hdevice
  · rw [hdevice] at hfile
    cases hfile

end SameOutline

/-- What comes to a file changes no more than its content. -/
theorem Received.same_outline {content : Bytes} (h : t.Received p content u) :
    SameOutline u t := by
  rcases h with ⟨location, old, hlocate, rfl⟩ | ⟨_, _, _, rfl⟩
  · exact same_outline_set (get_of_find (locate_eq_ok.1 hlocate).2)
  · exact fun _ => rfl

/-! ## Another content -/

/-- A file has the content that it is given. -/
theorem get_refill_same (h : t.get? location = some (.file old)) (content : Bytes) :
    (t.refill location content).get? location = some (.file content) := by
  have hroot : location ≠ [] := by
    rintro rfl
    simp [get?] at h
  rw [← set_eq_refill h, get_set_same hroot]

/-- Of two contents that a file is given the second one counts. -/
theorem refill_refill (t : Tree) (location : Location) (content content' : Bytes) :
    (t.refill location content).refill location content' = t.refill location content' := by
  unfold refill
  simp only [List.map_map]
  congr 2
  funext item
  by_cases hitem : item.1 = location <;> simp [hitem]

/-- Another content of a file leaves the outline as it is. -/
theorem same_outline_refill (h : t.get? location = some (.file old)) (content : Bytes) :
    SameOutline (t.refill location content) t := by
  rw [← set_eq_refill h]
  exact same_outline_set h

/-- Another content of a file leaves every path leading to the file that it led to. -/
theorem file_refill (h : t.get? location = some (.file old)) (content : Bytes) (p : Path) :
    (t.refill location content).file? p = t.file? p :=
  (same_outline_refill h content).file_eq p

/-- A path that does not lead to a file locates what it located before the file was given another
content. -/
theorem locate_refill_other (hget : t.get? location = some (.file old))
    (h : t.file? p ≠ some location) (content : Bytes) :
    (t.refill location content).locate p = t.locate p := by
  rw [← set_eq_refill hget]
  exact locate_set_other hget fun hresolve => h (file_eq_some_iff.2 ⟨hresolve, old, hget⟩)

end Tree

/-! ## Storages that do not look at contents -/

namespace Storage

/-- What becomes of a content depends on the content and its place, and not on what files hold. -/
def Steady (storage : Storage) : Prop :=
  ∀ t u, Tree.SameOutline t u → storage.accept t = storage.accept u

/-- Where everything takes what it is given, nothing depends on what files hold. -/
theorem roomy_steady : roomy.Steady := by
  intro t u h
  funext place content
  have hfull : t.find? place = some (.device .full) ↔ u.find? place = some (.device .full) :=
    ⟨h.find_device, h.symm.find_device⟩
  simp only [roomy, hfull]

end Storage

namespace Tree

variable {t u : Tree} {p : Path} {location : Location} {old data : Bytes} {storage : Storage}

/-- What is filled with a content is the regular file that the path leads to, if it leads to one. -/
theorem fill_refill {place : Place} {found : Found} (hlocate : t.locate p = .ok (place, found))
    (htakes : found.takesContent = true) (hget : t.get? location = some (.file old))
    (h : t.file? p ≠ some location) (content data : Bytes) :
    (t.refill location content).fill data place = (t.fill data place).refill location content := by
  have hlocate' := (locate_refill_other hget h content).trans hlocate
  rw [(received_fill hlocate htakes data).refills, (received_fill hlocate' htakes data).refills,
    file_refill hget]
  cases hfile : t.file? p with
  | none => rfl
  | some other =>
      have hother : location ≠ other := by
        rintro rfl
        exact h hfile
      exact refill_comm t hother content data

/-- What writing comes to, with another content in the file at a location afterwards. -/
def refilled (location : Location) (content : Bytes) :
    Except WriteError Tree → Except WriteError Tree
  | .ok u => .ok (u.refill location content)
  | .error (.opening e) => .error (.opening e)
  | .error (.writing e u) => .error (.writing e (u.refill location content))

/-- Writing elsewhere does not depend on the content of a file, and leaves it. -/
theorem write_refill_other (hstorage : storage.Steady) (hget : t.get? location = some (.file old))
    (h : t.file? p ≠ some location) (content data : Bytes) :
    (t.refill location content).write p data storage =
      refilled location content (t.write p data storage) := by
  have hlocate := locate_refill_other hget h content
  have haccept := hstorage _ _ (same_outline_refill hget content)
  unfold write
  rw [hlocate, haccept]
  cases hplace : t.locate p with
  | error e => rfl
  | ok item =>
      obtain ⟨place, found⟩ := item
      cases htakes : found.takesContent with
      | false => simp [htakes, refilled]
      | true =>
          simp only [htakes, ↓reduceIte, fill_refill hplace htakes hget h content]
          cases storage.accept t place data <;> rfl

end Tree

end QueryTidy
