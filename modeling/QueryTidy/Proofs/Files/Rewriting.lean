import Mathlib.Data.List.Pairwise
import QueryTidy.Files.Tree

/-!
# Rewriting files

What a new content of one file changes and what it leaves alone. Paths are followed by directories
and symbolic links only, so two trees with the same outline send every path to the same place
(`SameOutline.resolve_eq`). Hence a path that leads to the rewritten file reads the new content
(`read_set_same`), whatever its spelling, and every other path reads what it read before
(`read_set_other`).
-/

namespace QueryTidy

/-- The entry without the content of a file. -/
def Entry.outline : Entry → Entry
  | .file _ => .file []
  | .directory => .directory
  | .link target => .link target

namespace Storage

/-- Where everything takes what it is given, files take whole contents. -/
theorem roomy_takes_whole : roomy.TakesWhole := by
  intro t location content kept e h
  have hfull : t.find? (.inside location) ≠ some (.device .full) := by
    cases hget : t.get? location <;> simp [Tree.find?, hget]
  simp only [roomy, hfull, false_and, ↓reduceIte] at h
  cases h

/-- Every file has room for the given number of bytes. -/
def limited (room : Nat) : Storage where
  accept _ _ content := if room < content.length then .cut room .noSpace else .taken
  kept_lt := by
    intro t place content kept e h
    split at h
    · rename_i hroom
      cases h
      exact hroom
    · cases h

end Storage

namespace Tree

variable {t u : Tree} {location other : Location} {content old : Bytes} {storage : Storage}

/-! ## Entries of a tree with a new entry -/

/-- The entries of a list with a new entry in the place of those at a location. -/
theorem find_replaced_same {entries : List (Location × Entry)} {item : Location × Entry}
    (hitem : item ∈ entries) (hkey : item.1 = location) (e : Entry) :
    (entries.map fun item => if item.1 = location then (location, e) else item).find?
      (fun item => item.1 = location) = some (location, e) := by
  induction entries with
  | nil => cases hitem
  | cons first rest ih =>
      by_cases hfirst : first.1 = location
      · simp [hfirst]
      · rcases List.mem_cons.1 hitem with rfl | hrest
        · exact absurd hkey hfirst
        · rw [List.map_cons, if_neg hfirst, List.find?_cons_of_neg (by simpa using hfirst)]
          exact ih hrest

/-- Replacing the entries at a location keeps what is found at other locations. -/
theorem find_replaced_other (entries : List (Location × Entry)) (hother : other ≠ location)
    (e : Entry) :
    (entries.map fun item => if item.1 = location then (location, e) else item).find?
      (fun item => item.1 = other) = entries.find? fun item => item.1 = other := by
  induction entries with
  | nil => rfl
  | cons first rest ih =>
      rw [List.map_cons]
      by_cases hfirst : first.1 = location
      · have hne : first.1 ≠ other := fun h => hother (h.symm.trans hfirst)
        rw [if_pos hfirst, List.find?_cons_of_neg (by simpa using Ne.symm hother),
          List.find?_cons_of_neg (by simpa using hne)]
        exact ih
      · rw [if_neg hfirst]
        by_cases hhere : first.1 = other
        · rw [List.find?_cons_of_pos (by simpa using hhere),
            List.find?_cons_of_pos (by simpa using hhere)]
        · rw [List.find?_cons_of_neg (by simpa using hhere),
            List.find?_cons_of_neg (by simpa using hhere)]
          exact ih

/-- A new entry is found at its location. -/
theorem get_set_same (hroot : location ≠ []) (e : Entry) :
    (t.set location e).get? location = some e := by
  unfold get? set
  rw [if_neg hroot]
  split
  · rename_i hany
    obtain ⟨item, hitem, hkey⟩ := List.any_eq_true.1 hany
    rw [find_replaced_same hitem (of_decide_eq_true hkey)]
    rfl
  · rename_i hany
    have hnone : t.entries.find? (fun item => decide (item.1 = location)) = none :=
      List.find?_eq_none.2 fun item hitem hkey =>
        hany (List.any_eq_true.2 ⟨item, hitem, hkey⟩)
    simp [List.find?_append, hnone]

/-- A new entry changes nothing at other locations. -/
theorem get_set_other (hother : other ≠ location) (e : Entry) :
    (t.set location e).get? other = t.get? other := by
  unfold get? set
  split
  · rfl
  · split
    · rw [find_replaced_other _ hother]
    · simp [List.find?_append, Ne.symm hother]

/-- What is found at a place inside the tree is the entry there. -/
@[simp] theorem find_inside (t : Tree) (location : Location) :
    t.find? (.inside location) = (t.get? location).map .entry :=
  rfl

/-- No file is found in the system outside. -/
theorem system_ne_file (names : List Bytes) (content : Bytes) :
    system? names ≠ some (.entry (.file content)) := by
  unfold system?
  simp only
  split
  · simp
  · split
    · simp
    · split <;> simp

/-! ## The outline of a tree -/

/-- The trees have the same entries but for the contents of files. -/
def SameOutline (t u : Tree) : Prop :=
  ∀ location, (t.get? location).map Entry.outline = (u.get? location).map Entry.outline

/-- A new content of a file leaves the outline as it is. -/
theorem same_outline_set (h : t.get? location = some (.file old)) :
    SameOutline (t.set location (.file content)) t := by
  intro place
  by_cases hplace : place = location
  · have hroot : location ≠ [] := by
      rintro rfl
      simp [get?] at h
    rw [hplace, get_set_same hroot, h]
    rfl
  · rw [get_set_other hplace]

namespace SameOutline

/-- What is found at a place is the same but for the content of a file. -/
theorem find_eq (h : SameOutline t u) {place : Place}
    (hfile : ∀ content, t.find? place ≠ some (.entry (.file content))) :
    t.find? place = u.find? place := by
  cases place with
  | outside names => rfl
  | inside location =>
      have hlocation := h location
      rw [find_inside, find_inside]
      cases ht : t.get? location with
      | none =>
          cases hu : u.get? location with
          | none => rfl
          | some e => simp [ht, hu] at hlocation
      | some e =>
          cases hu : u.get? location with
          | none => simp [ht, hu] at hlocation
          | some e' =>
              rw [ht, hu] at hlocation
              cases e with
              | file content => exact absurd (by simp [ht]) (hfile content)
              | directory => cases e' <;> simp_all [Entry.outline]
              | link target => cases e' <;> simp_all [Entry.outline]

/-- Where one tree has a file, the other has one, too. -/
theorem find_file (h : SameOutline t u) {place : Place}
    (hfile : t.find? place = some (.entry (.file content))) :
    ∃ content', u.find? place = some (.entry (.file content')) := by
  cases place with
  | outside names => exact absurd hfile (system_ne_file names content)
  | inside location =>
      have hlocation := h location
      rw [find_inside] at hfile
      obtain ⟨e, ht, he⟩ := Option.map_eq_some_iff.1 hfile
      cases he
      rw [ht] at hlocation
      cases hu : u.get? location with
      | none => simp [hu] at hlocation
      | some e' =>
          cases e' with
          | file content' => exact ⟨content', by simp [hu]⟩
          | directory => simp [hu, Entry.outline] at hlocation
          | link target => simp [hu, Entry.outline] at hlocation

/-- Names are followed alike if what is done at symbolic links is the same. -/
theorem walk_names_eq (h : SameOutline t u)
    (follow : Place → List Bytes → Except IoError Place) (place : Place) (names : List Bytes) :
    t.walkNames follow place names = u.walkNames follow place names := by
  induction names generalizing place with
  | nil => rfl
  | cons name rest ih =>
      -- A place is a directory in both trees or in neither.
      have hdirectory : t.find? place = some (.entry .directory) ↔
          u.find? place = some (.entry .directory) := by
        by_cases hfile : ∃ content, t.find? place = some (.entry (.file content))
        · obtain ⟨content, hfile⟩ := hfile
          obtain ⟨content', hfile'⟩ := h.find_file hfile
          simp [hfile, hfile']
        · rw [h.find_eq fun content hc => hfile ⟨content, hc⟩]
      simp only [walkNames, hdirectory, ih]
      by_cases hfile : ∃ content, t.find? (place.child name) = some (.entry (.file content))
      · obtain ⟨content, hfile⟩ := hfile
        obtain ⟨content', hfile'⟩ := h.find_file hfile
        rw [hfile, hfile']
      · rw [h.find_eq fun content hc => hfile ⟨content, hc⟩]

/-- Names are followed alike through any number of symbolic links. -/
theorem walk_eq (h : SameOutline t u) (links : Nat) : t.walk links = u.walk links := by
  funext place names
  induction links generalizing place names with
  | zero => exact h.walk_names_eq _ place names
  | succ links ih =>
      have hfollow : t.walk links = u.walk links := by
        funext place names
        exact ih place names
      show t.walkNames (t.walk links) place names = u.walkNames (u.walk links) place names
      rw [hfollow]
      exact h.walk_names_eq _ place names

/-- Every path leads to the same place in both trees. -/
theorem resolve_eq (h : SameOutline t u) (p : Path) : t.resolve p = u.resolve p := by
  unfold resolve
  rw [h.walk_eq]

end SameOutline

/-! ## Reading after writing -/

/-- What is located at a path is found at the place that the path leads to. -/
theorem locate_eq_ok {p : Path} {place : Place} {found : Found} :
    t.locate p = .ok (place, found) ↔ t.resolve p = .ok place ∧ t.find? place = some found := by
  unfold locate
  constructor
  · intro h
    split at h
    · cases h
    · rename_i hresolve
      split at h
      · rename_i hfind
        cases h
        exact ⟨hresolve, hfind⟩
      · cases h
  · rintro ⟨hresolve, hfind⟩
    simp [hresolve, hfind]

/-- A file that is found inside the tree is an entry of it. -/
theorem get_of_find {e : Entry} (h : t.find? (.inside location) = some (.entry e)) :
    t.get? location = some e := by
  simpa [find?] using h

/-- A path that leads to a file with a new content reads the new content. -/
theorem read_set_same {p : Path}
    (h : t.locate p = .ok (.inside location, .entry (.file old))) :
    (t.set location (.file content)).read p = .ok content := by
  obtain ⟨hresolve, hfind⟩ := locate_eq_ok.1 h
  have hget := get_of_find hfind
  have hroot : location ≠ [] := by
    rintro rfl
    simp [get?] at hget
  have hlocate : (t.set location (.file content)).locate p =
      .ok (.inside location, .entry (.file content)) := by
    refine locate_eq_ok.2 ⟨?_, ?_⟩
    · rw [(same_outline_set hget).resolve_eq, hresolve]
    · simp [find?, get_set_same hroot]
  simp [read, hlocate]

/-- A path that leads elsewhere locates what it located before. -/
theorem locate_set_other {p : Path} (hget : t.get? location = some (.file old))
    (h : t.resolve p ≠ .ok (.inside location)) :
    (t.set location (.file content)).locate p = t.locate p := by
  unfold locate
  rw [(same_outline_set hget).resolve_eq]
  cases hresolve : t.resolve p with
  | error e => rfl
  | ok place =>
      cases place with
      | outside names => rfl
      | inside other =>
          have hother : other ≠ location := by
            rintro rfl
            exact h hresolve
          simp only [find?, get_set_other hother]

/-- A path that leads elsewhere reads what it read before. -/
theorem read_set_other {p : Path} (hget : t.get? location = some (.file old))
    (h : t.resolve p ≠ .ok (.inside location)) :
    (t.set location (.file content)).read p = t.read p := by
  unfold read
  rw [locate_set_other hget h]

/-! ## What writing does -/

/-- A content came to what a path leads to: it is in the file there now, and a device keeps nothing
of it. -/
def Received (t : Tree) (p : Path) (content : Bytes) (u : Tree) : Prop :=
  (∃ location old, t.locate p = .ok (.inside location, .entry (.file old)) ∧
      u = t.set location (.file content)) ∨
    ∃ place device, t.locate p = .ok (place, .device device) ∧ u = t

/-- Something that takes a content is filled with it. -/
theorem received_fill {p : Path} {place : Place} {found : Found}
    (hlocate : t.locate p = .ok (place, found)) (htakes : found.takesContent = true)
    (content : Bytes) : t.Received p content (t.fill content place) := by
  obtain ⟨-, hfind⟩ := locate_eq_ok.1 hlocate
  cases place with
  | inside location =>
      obtain ⟨e, -, rfl⟩ := Option.map_eq_some_iff.1 hfind
      cases e with
      | file old => exact .inl ⟨location, old, hlocate, rfl⟩
      | directory => cases htakes
      | link target => cases htakes
  | outside names =>
      cases found with
      | device device => exact .inr ⟨.outside names, device, hlocate, rfl⟩
      | entry e =>
          cases e with
          | file old => exact absurd hfind (system_ne_file names old)
          | directory => cases htakes
          | link target => cases htakes

/-- A content that is written whole comes to what the path leads to. -/
theorem received_of_write {p : Path} (h : t.write p content storage = .ok u) :
    t.Received p content u := by
  unfold write at h
  split at h
  · cases h
  · rename_i hlocate
    split at h
    · rename_i htakes
      split at h
      · cases h
      · cases h
        exact received_fill hlocate htakes content
      · cases h
    · cases h

/-- The number of bytes of a content that what a path leads to takes when it is opened for it. -/
def taken (t : Tree) (p : Path) (content : Bytes) (storage : Storage) : Nat :=
  match t.locate p with
  | .error _ => 0
  | .ok (place, _) =>
      match storage.accept t place content with
      | .refused _ => 0
      | .taken => content.length
      | .cut kept _ => kept

/-- Where writing fails halfway, what the path leads to has taken the beginning of the content, but
not all of it. -/
theorem received_of_cut {p : Path} {e : IoError}
    (h : t.write p content storage = .error (.writing e u)) :
    t.taken p content storage < content.length ∧
      t.Received p (content.take (t.taken p content storage)) u := by
  unfold write at h
  split at h
  · cases h
  · rename_i place found hlocate
    split at h
    · rename_i htakes
      split at h
      · cases h
      · cases h
      · rename_i kept e' haccept
        cases h
        have htaken : t.taken p content storage = kept := by
          simp only [taken, hlocate, haccept]
        rw [htaken]
        exact ⟨storage.kept_lt haccept, received_fill hlocate htakes _⟩
    · cases h

/-- Where a path leads to a location of the tree, a content that comes there replaces that of the
file at the location. -/
theorem Received.eq_set {p : Path} (h : t.Received p content u)
    (hresolve : t.resolve p = .ok (.inside location)) :
    ∃ old, t.locate p = .ok (.inside location, .entry (.file old)) ∧
      u = t.set location (.file content) := by
  rcases h with ⟨place, old, hlocate, rfl⟩ | ⟨place, device, hlocate, -⟩
  · obtain rfl : place = location := by
      rw [(locate_eq_ok.1 hlocate).1] at hresolve
      cases hresolve
      rfl
    exact ⟨old, hlocate, rfl⟩
  · obtain ⟨hplace, hfind⟩ := locate_eq_ok.1 hlocate
    rw [hplace] at hresolve
    cases hresolve
    cases hget : t.get? location <;> simp [hget] at hfind

/-- Where a path leads to a location of the tree, a content that comes there is in the file at the
location. -/
theorem Received.get_same {p : Path} (h : t.Received p content u)
    (hresolve : t.resolve p = .ok (.inside location)) :
    ∃ old, t.get? location = some (.file old) ∧ u.get? location = some (.file content) := by
  obtain ⟨old, hlocate, rfl⟩ := h.eq_set hresolve
  have hget := get_of_find (locate_eq_ok.1 hlocate).2
  have hroot : location ≠ [] := by
    rintro rfl
    simp [get?] at hget
  exact ⟨old, hget, get_set_same hroot _⟩

/-- A content that comes to where a path leads changes nothing at other locations. -/
theorem Received.get_other {p : Path} (h : t.Received p content u)
    (hresolve : t.resolve p ≠ .ok (.inside location)) : u.get? location = t.get? location := by
  rcases h with ⟨place, old, hlocate, rfl⟩ | ⟨-, -, -, rfl⟩
  · refine get_set_other ?_ _
    rintro rfl
    exact hresolve (locate_eq_ok.1 hlocate).1
  · rfl

/-- What a path reads depends on what is located at it. -/
theorem read_of_locate {p : Path} (h : u.locate p = t.locate p) : u.read p = t.read p := by
  unfold read
  rw [h]

/-- Where files take whole contents, writing to a regular file does not fail halfway. -/
theorem write_of_takes_whole {p : Path} {e : IoError} (hstorage : storage.TakesWhole)
    (hlocate : t.locate p = .ok (.inside location, .entry (.file old))) :
    t.write p content storage ≠ .error (.writing e u) := by
  intro h
  simp only [write, hlocate] at h
  split at h
  · split at h
    · cases h
    · cases h
    · rename_i haccept
      exact hstorage t location content _ _ haccept
  · cases h

/-- Where files take whole contents, writing that fails halfway leaves the tree as it is. -/
theorem eq_of_cut {p : Path} {e : IoError} (hstorage : storage.TakesWhole)
    (h : t.write p content storage = .error (.writing e u)) : u = t := by
  rcases (received_of_cut h).2 with ⟨location, old, hlocate, -⟩ | ⟨-, -, -, hkept⟩
  · exact absurd h (write_of_takes_whole hstorage hlocate)
  · exact hkept

/-- Where everything takes what it is given, only the full device takes less than a whole content.
-/
theorem write_roomy {p : Path} {place : Place} {found : Found}
    (hlocate : t.locate p = .ok (place, found)) :
    t.write p content =
      if found.takesContent then
        if found = .device .full ∧ content ≠ [] then
          .error (.writing .noSpace (t.fill (content.take 0) place))
        else .ok (t.fill content place)
      else .error (.opening .isDirectory) := by
  have haccept : Storage.roomy.accept t place content =
      if found = .device .full ∧ content ≠ [] then .cut 0 .noSpace else .taken := by
    simp only [Storage.roomy, (locate_eq_ok.1 hlocate).2, Option.some.injEq]
  simp only [write, hlocate, haccept]
  by_cases hfull : found = .device .full ∧ content ≠ []
  · rw [if_pos hfull, if_pos hfull]
  · rw [if_neg hfull, if_neg hfull]

/-- Where everything takes what it is given, the success of writing at a path depends on what is
located at it. -/
theorem write_of_locate {p : Path} (h : u.locate p = t.locate p) (content : Bytes) :
    (∃ v w, u.write p content = .ok v ∧ t.write p content = .ok w) ∨
    (∃ e, u.write p content = .error (.opening e) ∧ t.write p content = .error (.opening e)) ∨
    ∃ e v w, u.write p content = .error (.writing e v) ∧
      t.write p content = .error (.writing e w) := by
  cases hlocate : t.locate p with
  | error e =>
      exact .inr (.inl ⟨e, by simp only [write, h, hlocate], by simp only [write, hlocate]⟩)
  | ok item =>
      rw [write_roomy (h.trans hlocate), write_roomy hlocate]
      split
      · split
        · exact .inr (.inr ⟨_, _, _, rfl, rfl⟩)
        · exact .inl ⟨_, _, rfl, rfl⟩
      · exact .inr (.inl ⟨_, rfl, rfl⟩)

/-- The location of the regular file that a path leads to, if it leads to one. -/
def file? (t : Tree) (p : Path) : Option Location :=
  match t.locate p with
  | .ok (.inside location, .entry (.file _)) => some location
  | _ => none

/-- A path leads to a regular file where one is located at it. -/
theorem file_eq_some {p : Path} :
    t.file? p = some location ↔ ∃ old, t.locate p = .ok (.inside location, .entry (.file old)) := by
  unfold file?
  split
  · rename_i hlocate
    simp [hlocate]
  · rename_i hother
    simp only [reduceCtorEq, false_iff, not_exists]
    exact fun old hlocate => hother location old hlocate

/-! ## Many new contents -/

/-- The tree with another content in the file at a location. -/
def refill (t : Tree) (location : Location) (content : Bytes) : Tree :=
  ⟨t.entries.map fun item => if item.1 = location then (location, .file content) else item⟩

/-- A new content of a file that is there only takes the place of the old one. -/
theorem set_eq_refill (h : t.get? location = some (.file old)) :
    t.set location (.file content) = t.refill location content := by
  have hroot : location ≠ [] := by
    rintro rfl
    simp [get?] at h
  rw [get?, if_neg hroot, Option.map_eq_some_iff] at h
  obtain ⟨item, hitem, -⟩ := h
  have hkey := List.find?_some hitem
  have hany : t.entries.any (fun item => decide (item.1 = location)) = true :=
    List.any_eq_true.2 ⟨item, List.mem_of_find?_eq_some hitem, hkey⟩
  rw [set, if_pos hany]
  rfl

/-- A content comes to the regular file that the path leads to, if it leads to one. -/
theorem Received.refills {p : Path} (h : t.Received p content u) :
    u = (t.file? p).elim t fun location => t.refill location content := by
  rcases h with ⟨location, old, hlocate, rfl⟩ | ⟨place, device, hlocate, rfl⟩
  · rw [file_eq_some.2 ⟨old, hlocate⟩, set_eq_refill (get_of_find (locate_eq_ok.1 hlocate).2)]
    rfl
  · have hnone : u.file? p = none := by simp [file?, hlocate]
    rw [hnone]
    rfl

/-- Where everything takes what it is given, writing to a regular file does not fail. -/
theorem write_of_file {p : Path} (h : t.file? p = some location) (content : Bytes) :
    ∃ u, t.write p content = .ok u := by
  obtain ⟨old, hlocate⟩ := file_eq_some.1 h
  exact ⟨t.set location (.file content), by rw [write_roomy hlocate]; rfl⟩

/-- Contents of two files may be replaced in either order. -/
theorem refill_comm (t : Tree) (h : location ≠ other) (content content' : Bytes) :
    (t.refill location content).refill other content' =
      (t.refill other content').refill location content := by
  unfold refill
  simp only [List.map_map]
  congr 2
  funext item
  by_cases hlocation : item.1 = location
  · simp [hlocation, h]
  · by_cases hother : item.1 = other
    · simp [hother, Ne.symm h]
    · simp [hlocation, hother]

/-- The tree with other contents in the files at some locations. -/
def refillAll (t : Tree) (contents : List (Location × Bytes)) : Tree :=
  contents.foldl (fun t item => t.refill item.1 item.2) t

/-- The contents of different files may be replaced in any order. -/
theorem refill_all_perm {xs ys : List (Location × Bytes)} (hperm : xs.Perm ys)
    (hapart : xs.Pairwise fun x y => x.1 ≠ y.1) (t : Tree) : t.refillAll xs = t.refillAll ys := by
  have hsymm : Std.Symm fun x y : Location × Bytes => x.1 ≠ y.1 := ⟨fun _ _ h => Ne.symm h⟩
  refine hperm.foldl_eq' (fun x hx y hy u => ?_) t
  by_cases hxy : x = y
  · rw [hxy]
  · exact refill_comm u (hapart.forall hx hy hxy) x.2 y.2

/-! ## Removing -/

/-- Without the entry at one location the others are as they are. -/
theorem get_erase (t : Tree) (location other : Location) :
    (t.erase location).get? other = t.get? other ∨ (t.erase location).get? other = none := by
  unfold get? erase
  by_cases hroot : other = []
  · exact .inl (by rw [if_pos hroot, if_pos hroot])
  · rw [if_neg hroot, if_neg hroot, List.find?_filter]
    by_cases hother : other = location
    · refine .inr ?_
      rw [Option.map_eq_none_iff, List.find?_eq_none]
      intro item _
      simp [hother]
    · refine .inl ?_
      congr 2
      funext item
      by_cases hitem : item.1 = other
      · simp [hitem, hother]
      · simp [hitem]

/-- Removing what is at a path adds and changes no entry. -/
theorem get_remove (t : Tree) (p : Path) (location : Location) :
    (t.remove p).get? location = t.get? location ∨ (t.remove p).get? location = none := by
  unfold remove
  split
  · exact .inl rfl
  · split
    · exact get_erase t _ location
    · exact get_erase t _ location
    · exact .inl rfl

end Tree

end QueryTidy
