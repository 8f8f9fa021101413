import QueryTidy.Proofs.Run.Spellings
import QueryTidy.Proofs.Run.Turns

/-!
# Reading back what was written

Reading and writing follow a path in the same way, so a file that can be read can be given a new
content, as long as the path does not end at a device of the system outside (`Tree.StaysInside`).
Every path to the same file then reads the new content, and no other path notices.

The second part is about a formatter between the two. If it deletes nothing (`Tree.Keeps`), a path
that led to a place still leads there: new entries can only help where the path was at an end
before.
-/

namespace QueryTidy

open QueryTidy.Action

/-! ## Paths that stay inside -/

namespace Tree

variable {t u : Tree} {p q : Path} {location : Location} {content : Bytes}

/-- The path does not lead to the system outside. -/
def StaysInside (t : Tree) (p : Path) : Prop :=
  ∀ names, t.resolve p ≠ .ok (.outside names)

/-- A path that stays inside and leads to no file can neither be read nor written, for one
reason. -/
theorem read_write_of_no_file (hinside : t.StaysInside p) (hnone : t.file? p = none)
    (content : Bytes) :
    ∃ e, t.read p = .error e ∧ t.write p content = .error (.opening e) := by
  unfold read write
  cases hlocate : t.locate p with
  | error e => exact ⟨e, rfl, rfl⟩
  | ok located =>
      obtain ⟨place, found⟩ := located
      obtain ⟨hresolve, hfind⟩ := locate_eq_ok.mp hlocate
      cases place with
      | outside names => exact absurd hresolve (hinside names)
      | inside location =>
          cases found with
          | device device => cases hget : t.get? location <;> simp [hget] at hfind
          | entry e =>
              cases e with
              | file old => simp [file?, hlocate] at hnone
              | directory => exact ⟨.isDirectory, rfl, rfl⟩
              | link target => exact ⟨.isDirectory, rfl, rfl⟩

/-- Once a file has a new content, the paths to it read the content, and every other path reads what
it read before. -/
theorem read_write (hfile : t.file? p = some location) (h : t.write p content = .ok u) (q : Path) :
    u.read q = if t.file? q = some location then .ok content else t.read q := by
  obtain ⟨hresolve, old, hget⟩ := file_eq_some_iff.mp hfile
  by_cases hq : t.file? q = some location
  · obtain ⟨hresolve', -⟩ := file_eq_some_iff.mp hq
    obtain ⟨-, -, hnew⟩ := (received_of_write h).get_same hresolve
    rw [if_pos hq]
    exact read_of_file (((received_of_write h).same_outline.file_eq q).trans hq) hnew
  · rw [if_neg hq]
    refine (received_of_write h).read_other ?_
    rintro ⟨other, data, hother, hp, hq'⟩
    obtain rfl : other = location := by
      rw [hresolve] at hp
      cases hp
      rfl
    exact hq (file_eq_some_iff.mpr ⟨hq', data, hother⟩)

/-! ## Trees that grow -/

/-- Every entry of the first tree is in the second one, a file possibly with another content. -/
def Keeps (t u : Tree) : Prop :=
  ∀ location e, t.get? location = some e →
    ∃ e', u.get? location = some e' ∧ e'.outline = e.outline

namespace Keeps

/-- What is found at a place is still found there. -/
theorem find (h : Keeps t u) {place : Place} {found : Found} (hfind : t.find? place = some found)
    (hfile : ∀ content, found ≠ .entry (.file content)) : u.find? place = some found := by
  cases place with
  | outside names => exact hfind
  | inside location =>
      obtain ⟨e, hget, rfl⟩ := Option.map_eq_some_iff.mp hfind
      obtain ⟨e', hget', houtline⟩ := h location e hget
      have hsame : e' = e := by
        cases e with
        | file content => exact absurd rfl (hfile content)
        | directory => cases e' <;> simp_all [Entry.outline]
        | link target => cases e' <;> simp_all [Entry.outline]
      rw [find_inside, hget', hsame]
      rfl

/-- A file is still a file. -/
theorem find_file (h : Keeps t u) {place : Place} {old : Bytes}
    (hfind : t.find? place = some (.entry (.file old))) :
    ∃ new, u.find? place = some (.entry (.file new)) := by
  cases place with
  | outside names => exact absurd hfind (system_ne_file names old)
  | inside location =>
      obtain ⟨e', hget', houtline⟩ := h location _ (get_of_find hfind)
      cases e' with
      | file new => exact ⟨new, by simp [hget']⟩
      | directory => cases houtline
      | link target => cases houtline

/-- Names that lead to a place still lead there, if what is done at symbolic links still does. -/
theorem walk_names (h : Keeps t u) {follow follow' : Place → List Bytes → Except IoError Place}
    (hfollow : ∀ place names target, follow place names = .ok target →
      follow' place names = .ok target)
    {place target : Place} {names : List Bytes}
    (hwalk : t.walkNames follow place names = .ok target) :
    u.walkNames follow' place names = .ok target := by
  induction names generalizing place with
  | nil => exact hwalk
  | cons name rest ih =>
      rw [walkNames] at hwalk ⊢
      by_cases hdirectory : t.find? place = some (.entry .directory)
      · rw [if_pos hdirectory] at hwalk
        rw [if_pos (h.find hdirectory (by simp))]
        by_cases hdot : name = Path.dot
        · rw [if_pos hdot] at hwalk ⊢
          exact ih hwalk
        by_cases hup : name = Path.dotDot
        · rw [if_neg hdot, if_pos hup] at hwalk ⊢
          exact ih hwalk
        by_cases hlong : greatestName < name.length
        · rw [if_neg hdot, if_neg hup, if_pos hlong] at hwalk
          cases hwalk
        rw [if_neg hdot, if_neg hup, if_neg hlong] at hwalk ⊢
        cases hfind : t.find? (place.child name) with
        | none =>
            rw [hfind] at hwalk
            cases hwalk
        | some found =>
            rw [hfind] at hwalk
            -- Only a file may differ, and a walk does not look at its content.
            rcases found with (old | _ | link) | device
            · obtain ⟨new, hnew⟩ := h.find_file hfind
              rw [hnew]
              exact ih hwalk
            · rw [h.find hfind (by simp)]
              exact ih hwalk
            · rw [h.find hfind (by simp)]
              exact hfollow _ _ _ hwalk
            · rw [h.find hfind (by simp)]
              exact ih hwalk
      · rw [if_neg hdirectory] at hwalk
        cases hwalk

/-- A path that leads to a place still leads there. -/
theorem resolve (h : Keeps t u) {place : Place} (hresolve : t.resolve p = .ok place) :
    u.resolve p = .ok place := by
  have hwalk : ∀ links place names target, t.walk links place names = .ok target →
      u.walk links place names = .ok target := by
    intro links
    induction links with
    | zero =>
        intro place names target
        exact h.walk_names fun _ _ _ hfollow => by cases hfollow
    | succ links ih =>
        intro place names target
        exact h.walk_names ih
  unfold Tree.resolve at hresolve ⊢
  split_ifs at hresolve ⊢
  exact hwalk _ _ _ _ hresolve

/-- A path that can be read can be written with any content. -/
theorem write (h : Keeps t u) {data : Bytes} (hread : t.read p = .ok data) (content : Bytes) :
    ∃ v, u.write p content = .ok v := by
  unfold read at hread
  cases hlocate : t.locate p with
  | error e => simp [hlocate] at hread
  | ok located =>
      obtain ⟨place, found⟩ := located
      obtain ⟨hresolve, hfind⟩ := locate_eq_ok.mp hlocate
      rcases found with (old | _ | link) | (_ | _)
      · cases place with
        | outside names => exact absurd hfind (system_ne_file names old)
        | inside location =>
            obtain ⟨new, hnew⟩ := h.find_file hfind
            have hlocate' := locate_eq_ok.mpr ⟨h.resolve hresolve, hnew⟩
            exact write_of_file (file_eq_some.mpr ⟨new, hlocate'⟩) content
      · simp [hlocate] at hread
      · simp [hlocate] at hread
      · have hlocate' := locate_eq_ok.mpr ⟨h.resolve hresolve, h.find hfind nofun⟩
        exact ⟨u.fill content place, by rw [write_roomy hlocate']; rfl⟩
      · simp [hlocate] at hread

end Keeps

end Tree

/-- The formatter deletes nothing: whatever it adds and writes, every entry is still there, a file
as a file, a directory as a directory and a link with its target. -/
def Formatter.DeletesNothing (formatter : Formatter) : Prop :=
  ∀ text (t : Tree), t.Keeps ((formatter text).run t).tree

/-- A formatter that leaves the files alone deletes nothing. -/
theorem Formatter.KeepsTree.deletes_nothing {formatter : Formatter} (h : formatter.KeepsTree) :
    formatter.DeletesNothing := by
  intro text t location e hget
  rw [h text t]
  exact ⟨e, hget, rfl⟩

/-! ## Loading, storing and treating files -/

namespace Batch

variable {b : Batch} {t u : Tree} {p q : Path} {location : Location}

/-- What loading does. -/
theorem load_run (path : Path) (t : Tree) :
    (load path).run t =
      match t.read path with
      | .ok data => ⟨.finished (.ok data), t, [], []⟩
      | .error e => ⟨.finished (.error (.read path e)), t, [], []⟩ := by
  unfold load
  cases hread : t.read path with
  | ok data => simp only [run_bind, run_getTree, hread, run_pure]; rfl
  | error e => simp only [run_bind, run_getTree, hread, run_pure]; rfl

/-- With a formatter that deletes nothing, a file that was read is there for writing. -/
theorem process_file_opens (hmode : b.mode = .inPlace) (hformatter : b.formatter.DeletesNothing)
    (t : Tree) (p q : Path) (e : IoError) :
    ((b.processFile p).run t).result ≠ .finished (.error (.openForWriting q e)) := by
  cases htext : t.text? p with
  | none =>
      obtain ⟨fault, hfault, hrun⟩ := process_file_no_text (b := b) htext
      rw [hrun]
      rcases hfault with ⟨e', rfl⟩ | ⟨message, rfl⟩
      · nofun
      · nofun
  | some text =>
      obtain ⟨data, hread, -⟩ := Tree.text_eq_some.mp htext
      generalize hrun : (b.processFile p).run t = effect
      have hasked := process_file_asked b .roomy htext
      rw [hrun] at hasked
      cases hasked with
      | crash _ => nofun
      | refused _ => nofun
      | fits _ => nofun
      | @treated shown _ _ _ =>
          -- The path was read before the formatter ran, and is written after it.
          obtain ⟨u, hwrite⟩ := (hformatter text t).write hread (Content.ofText shown).bytes
          rw [treat_in_place_run hmode, hwrite]
          nofun

end Batch

/-- Where files take what is written to them, a path that stays inside can be written exactly when
it can be read, that is when it leads to a regular file. Otherwise writing fails to open it for the
reason that keeps it from being read, and nothing changes. After writing, the paths to the same file
read the content and its line end, and every other path reads what it read before. A batch whose
formatter deletes nothing never fails to open a file for writing. -/
theorem read_back_after_store (t : Tree) (p : Path) (content : Content)
    (hinside : t.StaysInside p) :
    ((∃ location, t.file? p = some location) →
      (∃ data, (Batch.load p).run t = ⟨.finished (.ok data), t, [], []⟩) ∧
      ∃ u, (Batch.store p content).run t = ⟨.finished (.ok ()), u, [], []⟩ ∧
        ∀ q, ((Batch.load q).run u).result =
          if t.file? q = t.file? p then .finished (.ok content.bytes)
          else ((Batch.load q).run t).result) ∧
    (t.file? p = none →
      ∃ e, (Batch.load p).run t = ⟨.finished (.error (.read p e)), t, [], []⟩ ∧
        (Batch.store p content).run t = ⟨.finished (.error (.openForWriting p e)), t, [], []⟩) ∧
    ∀ b : Batch, b.mode = .inPlace → b.formatter.DeletesNothing → ∀ q e,
      ((b.processFile p).run t).result ≠ .finished (.error (.openForWriting q e)) := by
  refine ⟨?_, ?_, ?_⟩
  · rintro ⟨location, hfile⟩
    obtain ⟨-, old, hget⟩ := Tree.file_eq_some_iff.mp hfile
    obtain ⟨u, hwrite⟩ := Tree.write_of_file hfile content.bytes
    refine ⟨⟨old, by rw [Batch.load_run, Tree.read_of_file hfile hget]⟩, u,
      by rw [Batch.store_run, hwrite], ?_⟩
    intro q
    rw [Batch.load_run, Batch.load_run, Tree.read_write hfile hwrite, hfile]
    split_ifs
    · rfl
    · cases t.read q <;> rfl
  · intro hnone
    obtain ⟨e, hread, hwrite⟩ := Tree.read_write_of_no_file hinside hnone content.bytes
    exact ⟨e, by rw [Batch.load_run, hread], by rw [Batch.store_run, hwrite]⟩
  · intro b hmode hformatter q e
    exact Batch.process_file_opens hmode hformatter t p q e

/-- A file that is written through a link with a detour, next to a link that leads to itself. The
file reads the new content, which is shorter than the old one, and the other link stays what it was.
The formatter of queries deletes nothing. -/
theorem read_back_through_link :
    let q := Utf8.encode ['q']
    let l := Utf8.encode ['l']
    let o := Utf8.encode ['o']
    let t : Tree := ⟨[([q], .file (Utf8.encode "b + c".toList)),
      ([l], .link (Utf8.encode "d/.././q".toList)), ([o], .link o),
      ([Utf8.encode ['d']], .directory)]⟩
    let content : Content := ⟨Utf8.encode ['a']⟩
    t.StaysInside l ∧ t.file? l = some [q] ∧
      ∃ u, (Batch.store l content).run t = ⟨.finished (.ok ()), u, [], []⟩ ∧
        ((Batch.load q).run u).result = .finished (.ok (Utf8.encode ['a', '\n'])) ∧
        ((Batch.load o).run u).result = .finished (.error (.read o .tooManyLinks)) ∧
        Formatter.query.DeletesNothing ∧
        ∀ p e, ((Batch.processFile ⟨Formatter.query, .inPlace, ⟨none, false⟩, ⟨⟨none, none⟩, none⟩⟩
          l).run t).result ≠ .finished (.error (.openForWriting p e)) := by
  intro q l o t content
  have hfile : t.file? l = some [q] := by decide +kernel
  have hinside : t.StaysInside l := by
    intro names hnames
    rw [(Tree.file_eq_some_iff.mp hfile).1] at hnames
    cases hnames
  have hquery := Formatter.query_keeps_tree.deletes_nothing
  obtain ⟨hwritten, -, hopens⟩ := read_back_after_store t l content hinside
  obtain ⟨-, u, hstore, hload⟩ := hwritten ⟨[q], hfile⟩
  refine ⟨hinside, hfile, u, hstore, ?_, ?_, hquery, hopens _ rfl hquery⟩
  · have hsame : t.file? q = t.file? l := by decide +kernel
    rw [hload q, if_pos hsame]
    rfl
  · have hother : t.file? o ≠ t.file? l := by decide +kernel
    have hloop : ((Batch.load o).run t).result = .finished (.error (.read o .tooManyLinks)) := by
      decide +kernel
    rw [hload o, if_neg hother, hloop]

end QueryTidy
