import QueryTidy.Proofs.Run.Concat
import QueryTidy.Proofs.Run.Turns

/-!
# Sessions

A session performs operations one after the other, whatever they answer: single steps and batches of
files. It consists of turns (`Batch.turns`), each of which starts from the tree that the one before
leaves (`Linked`). What a turn does to the files (`Turn.get_after`) therefore says what a whole
session does: nothing is created, no entry becomes one of another kind, what is gone was removed by
the formatter, and a file has the content that was written to it last
(`Batch.only_written_files_change`).
-/

namespace QueryTidy

open QueryTidy.Action

/-- An operation of a session: a single step, or a batch of files. -/
inductive Operation where
  | single (step : Step)
  | batch (paths : List Path)

namespace Batch

/-- Perform an operation. -/
def perform (b : Batch) : Operation → Action (Except Fault Answer)
  | .single step => b.take step
  | .batch paths => do pure ((← b.process paths).map .reported)

/-- Perform operations one after the other, whatever they answer. -/
def performAll (b : Batch) : List Operation → Action (List (Except Fault Answer))
  | [] => pure []
  | operation :: rest => do
      let answer ← b.perform operation
      let answers ← b.performAll rest
      pure (answer :: answers)

end Batch

/-- The turn is the last one of its batch: the formatter stops the program, or the file comes to a
fault that ends the run. -/
def Turn.endsBatch (b : Batch) (storage : Storage := .roomy) (turn : Turn) : Bool :=
  match (turn.effect b storage).result with
  | .finished (.ok _) => false
  | .finished (.error fault) => fault.endsRun
  | .crashed => true

namespace Batch

/-- The turns of a batch of files. -/
def fileTurns (b : Batch) (paths : List Path) (t : Tree) (storage : Storage := .roomy) :
    List Turn :=
  match paths with
  | [] => []
  | path :: rest =>
      let turn : Turn := ⟨.format path, t⟩
      turn ::
        if turn.endsBatch b storage then [] else b.fileTurns rest (turn.after b storage) storage

/-- The turns of an operation. -/
def turnsOf (b : Batch) (storage : Storage) : Operation → Tree → List Turn
  | .single step, t => [⟨step, t⟩]
  | .batch paths, t => b.fileTurns paths t storage

/-- The turns of a session. A crash of the program ends it. -/
def turns (b : Batch) (storage : Storage) : List Operation → Tree → List Turn
  | [], _ => []
  | operation :: rest, t =>
      let here := (b.perform operation).run t storage
      b.turnsOf storage operation t ++
        match here.result with
        | .finished _ => b.turns storage rest here.tree
        | .crashed => []

end Batch

/-- The turns lead from a tree to another: each starts from the tree that the one before it
leaves. -/
inductive Linked (b : Batch) (storage : Storage) : Tree → List Turn → Tree → Prop
  | nil (t : Tree) : Linked b storage t [] t
  | cons (turn : Turn) {rest : List Turn} {u : Tree} :
      Linked b storage (turn.after b storage) rest u →
        Linked b storage turn.before (turn :: rest) u

variable {b : Batch} {storage : Storage} {t u v : Tree} {xs ys : List Turn} {location : Location}

/-- Turns may be linked one after the other. -/
theorem Linked.append (h : Linked b storage t xs u) (h' : Linked b storage u ys v) :
    Linked b storage t (xs ++ ys) v := by
  induction h with
  | nil => exact h'
  | cons turn _ ih => exact .cons turn (ih h')

/-! ## The turns of a session -/

namespace Batch

/-- A turn in which a file is formatted is the last one of its batch if its result ends the run. -/
theorem ends_batch_format (b : Batch) (path : Path) (t : Tree) :
    Turn.endsBatch b storage ⟨.format path, t⟩ =
      match ((b.processFile path).run t storage).result with
      | .finished r => endsRun r
      | .crashed => true := by
  rw [Turn.endsBatch, Turn.effect_format]
  cases ((b.processFile path).run t storage).result with
  | crashed => rfl
  | finished r => cases r <;> rfl

/-- After a turn that ends it, a batch is over; otherwise it goes on with the rest. -/
theorem process_all_first (b : Batch) (path : Path) (rest : List Path) (t : Tree) :
    let turn : Turn := ⟨.format path, t⟩
    ((b.processAll (path :: rest)).run t storage).tree =
      if turn.endsBatch b storage then turn.after b storage
      else ((b.processAll rest).run (turn.after b storage) storage).tree := by
  intro turn
  have hafter : turn.after b storage = ((b.processFile path).run t storage).tree := by
    rw [Turn.after, Turn.effect_format]
  rw [hafter, ends_batch_format]
  have hfirst := first_file b path rest t storage
  generalize (b.processAll (path :: rest)).run t storage = whole at hfirst
  cases hfirst with
  | crash hresult => simp only [hresult, ↓reduceIte]
  | fatal fault hresult hends =>
      have hfault : endsRun (.error fault) = true := hends
      simp only [hresult, hfault, ↓reduceIte]
  | goesOn r hresult hends => simp only [hresult, hends, Bool.false_eq_true, ↓reduceIte]

/-- The turns of a batch lead to the tree that it leaves. -/
theorem file_turns_linked (b : Batch) (paths : List Path) (t : Tree) :
    Linked b storage t (b.fileTurns paths t storage) ((b.processAll paths).run t storage).tree := by
  induction paths generalizing t with
  | nil => exact .nil t
  | cons path rest ih =>
      rw [fileTurns, process_all_first]
      refine .cons ⟨.format path, t⟩ ?_
      split
      · exact .nil _
      · exact ih _

/-- The turns of an operation lead to the tree that it leaves. -/
theorem turns_of_linked (b : Batch) (storage : Storage) (operation : Operation) (t : Tree) :
    Linked b storage t (b.turnsOf storage operation t)
      ((b.perform operation).run t storage).tree := by
  cases operation with
  | single step => exact .cons ⟨step, t⟩ (.nil _)
  | batch paths =>
      have htree : ((b.perform (.batch paths)).run t storage).tree =
          ((b.processAll paths).run t storage).tree := by
        rw [perform, run_bind_pure, process_run]
      rw [htree]
      exact file_turns_linked b paths t

/-- The turns of a session lead to the tree that it leaves. -/
theorem turns_linked (b : Batch) (operations : List Operation) (t : Tree) :
    Linked b storage t (b.turns storage operations t)
      ((b.performAll operations).run t storage).tree := by
  induction operations generalizing t with
  | nil => exact .nil t
  | cons operation rest ih =>
      have hhere := turns_of_linked b storage operation t
      rw [turns, performAll, run_bind]
      cases ((b.perform operation).run t storage).result with
      | crashed =>
          dsimp only
          rw [List.append_nil]
          exact hhere
      | finished answer =>
          dsimp only
          rw [run_bind_pure]
          exact hhere.append (ih _)

/-- Only where changes are shown does a batch end with a fault. -/
theorem preview_of_process_all_error {paths : List Path} {fault : Fault}
    (h : ((b.processAll paths).run t storage).result = .finished (.error fault)) :
    b.mode = .preview := by
  induction paths generalizing t fault with
  | nil => cases h
  | cons path rest ih =>
      have hfirst := first_file b path rest t storage
      generalize (b.processAll (path :: rest)).run t storage = whole at h hfirst
      cases hfirst with
      | crash => cases h
      | fatal _ hresult hends => exact preview_of_fatal hresult hends
      | goesOn r =>
          cases hrest : ((b.processAll rest).run
              ((b.processFile path).run t storage).tree storage).result with
          | crashed => simp [hrest, withResult] at h
          | finished value =>
              cases value with
              | ok results => simp [hrest, withResult] at h
              | error last => exact ih hrest

/-- Every turn of a batch is one in which a file is formatted. -/
theorem format_of_file_turns {paths : List Path} {turn : Turn}
    (h : turn ∈ b.fileTurns paths t storage) : ∃ path, turn.step = .format path := by
  induction paths generalizing t with
  | nil => cases h
  | cons path rest ih =>
      rcases List.mem_cons.1 h with rfl | h
      · exact ⟨path, rfl⟩
      · split at h
        · cases h
        · exact ih h

/-- An operation that answers with a fault leaves the tree as the formatter left it, unless it cuts
a file off, which is the fault then. -/
theorem after_of_fault {operation : Operation} {fault : Fault}
    (h : ((b.perform operation).run t storage).result = .finished (.error fault)) :
    ∀ turn ∈ b.turnsOf storage operation t, turn.after b storage = turn.left b storage ∨
      (turn.CutOff b storage ∧ ∃ path e, fault = .write path e) := by
  intro turn hturn
  cases operation with
  | single step =>
      obtain rfl := List.mem_singleton.1 hturn
      have hresult : (Turn.effect b storage ⟨step, t⟩).result = .finished (.error fault) := h
      refine (Turn.after_of_failure fun a ha => ?_).imp_right fun hcut => ⟨hcut, ?_⟩
      · rw [hresult] at ha
        cases ha
      · obtain ⟨path, -, -, -, e, -, hwrite, -⟩ := hcut
        rw [hresult] at hwrite
        cases hwrite
        exact ⟨path, e, rfl⟩
  | batch paths =>
      have hmode : b.mode = .preview := by
        rw [perform, run_bind_pure, process_run] at h
        cases hall : ((b.processAll paths).run t storage).result with
        | crashed => simp [hall, reported, Completion.map] at h
        | finished value =>
            cases value with
            | ok results => simp [hall, reported, Completion.map, Except.map] at h
            | error fatal => exact preview_of_process_all_error hall
      obtain ⟨path, hstep⟩ := format_of_file_turns hturn
      exact .inl (Turn.after_of_preview hmode hstep)

end Batch

/-! ## What is kept from turn to turn -/

/-- What is written last at a location, in a list of turns. -/
def lastWrite? (b : Batch) (storage : Storage) (location : Location) (turns : List Turn) :
    Option Bytes :=
  turns.reverse.findSome? (Turn.writes? b storage location)

/-- What is written last is written in the later turns, or else in the first one. -/
theorem last_write_cons (b : Batch) (location : Location) (turn : Turn) (rest : List Turn) :
    lastWrite? b storage location (turn :: rest) =
      (lastWrite? b storage location rest).or (turn.writes? b storage location) := by
  simp [lastWrite?, List.findSome?_append]

/-- Of two contents one after the other the last one stays. -/
theorem Entry.with_content_or (later earlier : Option Bytes) (e : Entry) :
    (e.withContent earlier).withContent later = e.withContent (later.or earlier) := by
  cases e with
  | file old => cases later <;> cases earlier <;> rfl
  | directory => rfl
  | link target => rfl

/-- Where the formatter leaves a location alone, the entry there is the same in the end, with the
content that is written to it last. -/
theorem Linked.get_of_left (h : Linked b storage t xs u)
    (hleft : ∀ turn ∈ xs, (turn.left b storage).get? location = turn.before.get? location) :
    u.get? location =
      (t.get? location).map (Entry.withContent (lastWrite? b storage location xs)) := by
  induction h with
  | nil t =>
      have hnone : lastWrite? b storage location [] = none := rfl
      rw [hnone, Entry.map_with_content_none]
  | cons turn _ ih =>
      rw [ih fun later hlater => hleft later (List.mem_cons_of_mem _ hlater), Turn.get_after,
        hleft turn List.mem_cons_self, Option.map_map, last_write_cons]
      congr 1
      exact funext (Entry.with_content_or _ _)

/-- The formatter adds and changes no entry; it may remove some. -/
def Formatter.OnlyRemoves (formatter : Formatter) : Prop :=
  ∀ text t storage location,
    ((formatter text).run t storage).tree.get? location = t.get? location ∨
      ((formatter text).run t storage).tree.get? location = none

/-- What a formatter that only removes leaves in a turn. -/
theorem Turn.left_of_only_removes (h : b.formatter.OnlyRemoves) (turn : Turn)
    (location : Location) :
    (turn.left b storage).get? location = turn.before.get? location ∨
      (turn.left b storage).get? location = none := by
  unfold Turn.left
  cases hasked : turn.asked? b storage with
  | none => exact .inl rfl
  | some asked =>
      obtain ⟨text, rfl⟩ : ∃ text, (b.formatter text).run turn.before storage = asked := by
        unfold Turn.asked? at hasked
        split at hasked
        · obtain ⟨text, -, htext⟩ := Option.map_eq_some_iff.1 hasked
          exact ⟨text, htext⟩
        · cases hasked
      exact h text turn.before storage location

/-- What is not there does not come to be there. -/
theorem Linked.get_of_none (h : Linked b storage t xs u) (hremoves : b.formatter.OnlyRemoves)
    (hnone : t.get? location = none) : u.get? location = none := by
  induction h with
  | nil => exact hnone
  | cons turn _ ih =>
      refine ih ?_
      have hleft : (turn.left b storage).get? location = none :=
        (turn.left_of_only_removes hremoves location).elim (fun heq => heq.trans hnone) id
      rw [Turn.get_after, hleft, Option.map_none]

/-- After one of linked turns the others are linked. -/
theorem Linked.of_mem {turn : Turn} (h : Linked b storage t xs u) (hmem : turn ∈ xs) :
    ∃ rest, Linked b storage (turn.after b storage) rest u := by
  induction h with
  | nil => cases hmem
  | @cons first rest u hrest ih =>
      rcases List.mem_cons.1 hmem with rfl | hmem
      · exact ⟨rest, hrest⟩
      · exact ih hmem

/-- With a formatter that only removes, an entry is the same in the end, with the content that is
written to it last, or it is gone because the formatter removed it. -/
theorem Linked.get_or_removed (h : Linked b storage t xs u) (hremoves : b.formatter.OnlyRemoves)
    (location : Location) :
    u.get? location =
        (t.get? location).map (Entry.withContent (lastWrite? b storage location xs)) ∨
      (u.get? location = none ∧ ∃ turn ∈ xs, (turn.before.get? location).isSome ∧
        (turn.left b storage).get? location = none) := by
  by_cases hchanged :
      ∃ turn ∈ xs, (turn.left b storage).get? location ≠ turn.before.get? location
  · -- In that turn the entry is removed, and from then on there is none.
    obtain ⟨turn, hturn, hne⟩ := hchanged
    have hnone := (turn.left_of_only_removes hremoves location).resolve_left hne
    obtain ⟨rest, hrest⟩ := h.of_mem hturn
    refine .inr ⟨hrest.get_of_none hremoves ?_, turn, hturn, ?_, hnone⟩
    · rw [Turn.get_after, hnone, Option.map_none]
    · rw [Option.isSome_iff_ne_none, ← hnone]
      exact Ne.symm hne
  · refine .inl (h.get_of_left fun turn hturn => Decidable.byContradiction fun hne => ?_)
    exact hchanged ⟨turn, hturn, hne⟩

/-- A formatter that removes a file and otherwise leaves the files alone only removes. -/
theorem Formatter.removing_only_removes {base : Formatter} (h : base.KeepsTree) (path : Path) :
    (Formatter.removing path base).OnlyRemoves := by
  intro text t storage location
  have hrun : ((Formatter.removing path base text).run t storage).tree = t.remove path :=
    h text (t.remove path) storage
  rw [hrun]
  exact Tree.get_remove t path location

/-! ## Sessions as a whole -/

/-- What a turn does to the files is contained. -/
structure Turn.Contained (b : Batch) (storage : Storage) (turn : Turn) : Prop where
  /-- There are the entries that the formatter left, of the same kinds and with the same targets. -/
  outline : Tree.SameOutline (turn.after b storage) (turn.left b storage)
  /-- The contents are the same but for what the turn writes. -/
  entries : ∀ location, (turn.after b storage).get? location =
    ((turn.left b storage).get? location).map (Entry.withContent (turn.writes? b storage location))
  /-- A turn writes to a file at a path that leads there, and a content that was stored or that the
  formatter made: all of it if the turn says so, and otherwise the beginning of it. -/
  written : ∀ location bytes, turn.writes? b storage location = some bytes →
    ∃ path content, turn.content? b storage = some (path, content) ∧
      (turn.left b storage).resolve path = .ok (.inside location) ∧
      ((turn.Wrote b storage ∧ bytes = content.bytes) ∨
        (turn.CutOff b storage ∧ bytes <+: content.bytes))
  /-- A turn that does not succeed writes nothing, unless it cuts a file off. -/
  failure : (∀ a, (turn.effect b storage).result ≠ .finished (.ok a)) →
    turn.after b storage = turn.left b storage ∨ turn.CutOff b storage
  /-- A turn in which a file is formatted writes only in the mode in which files are changed in
  place. -/
  inPlace : ∀ path, turn.step = .format path → turn.write? b storage ≠ none → b.mode = .inPlace

/-- Every turn is contained. -/
theorem Turn.contained (b : Batch) (storage : Storage) (turn : Turn) :
    turn.Contained b storage where
  outline := turn.same_outline_after b storage
  entries := turn.get_after b storage
  written location _ := turn.written b storage location
  failure := after_of_failure
  inPlace _ hstep hwrite := in_place_of_write hstep hwrite

/-- A file that has room for one byte only is cut off when it is formatted. -/
example :
    let q := Utf8.encode ['q']
    let b : Batch := ⟨Formatter.ofFunction fun _ => .ok ['a'], .inPlace, ⟨none, false⟩,
      ⟨⟨none, none⟩, none⟩⟩
    let turn : Turn := ⟨.format q, ⟨[([q], .file [])]⟩⟩
    turn.effect b (.limited 1) = ⟨.finished (.error (.write q .noSpace)),
      ⟨[([q], .file (Utf8.encode ['a']))]⟩, [Batch.applyingRecord q], []⟩ := by
  rfl

end QueryTidy
