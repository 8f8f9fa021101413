import QueryTidy.Proofs.Files.Rewriting
import QueryTidy.Proofs.Run.Frame
import QueryTidy.Proofs.Run.Verdict

/-!
# Turns

A session acts on one path at a time. In such a turn (`Turn`) the formatter may be asked, which may
act on the files; everything else that the turn does to them is at most one write, of the content
that was given or that the formatter made (`Turn.content?`). The file takes the whole content, or
the beginning of it where writing fails halfway (`Turn.write?`). So a turn keeps what the formatter
left, but for the content of the file that is written (`Turn.get_after`).
-/

namespace QueryTidy

open QueryTidy.Action

/-- What a session may do at one path. -/
inductive Step where
  | load (path : Path)
  | store (path : Path) (content : Content)
  | preview (path : Path) (content : Content)
  | format (path : Path)

/-- What a session may answer. -/
inductive Answer where
  | data (bytes : Bytes)
  | done
  | treated (treatment : Treatment)
  | reported (report : Report)

/-- The entry with another content, if there is one and the entry is a file. -/
def Entry.withContent (content : Option Bytes) : Entry → Entry
  | .file old => .file (content.getD old)
  | .directory => .directory
  | .link target => .link target

/-- Another content makes no other kind of entry. -/
theorem Entry.outline_with_content (content : Option Bytes) (e : Entry) :
    (e.withContent content).outline = e.outline := by
  cases e <;> rfl

/-- Without another content an entry is as it is, if there is one. -/
theorem Entry.map_with_content_none (e : Option Entry) : e.map (Entry.withContent none) = e := by
  cases e with
  | none => rfl
  | some e => cases e <;> rfl

/-- A step of a session, with the tree from which it starts. -/
structure Turn where
  step : Step
  before : Tree

/-! ## Files that are treated with any formatter -/

namespace Batch

variable {b : Batch} {t : Tree} {storage : Storage} {path : Path} {content : Content}
  {text shown : Text}

/-- Storing a content is writing it. -/
theorem store_run (path : Path) (content : Content) (t : Tree) :
    (store path content).run t storage =
      match t.write path content.bytes storage with
      | .ok u => ⟨.finished (.ok ()), u, [], []⟩
      | .error (.opening e) => ⟨.finished (.error (.openForWriting path e)), t, [], []⟩
      | .error (.writing e left) => ⟨.finished (.error (.write path e)), left, [], []⟩ := by
  unfold store
  cases hwrite : t.write path content.bytes storage with
  | ok u =>
      simp only [run_bind, run_getTree, run_getStorage, hwrite, run_setTree, run_pure]
      rfl
  | error e =>
      cases e <;>
        simp only [run_bind, run_getTree, run_getStorage, hwrite, run_setTree, run_pure] <;> rfl

/-- What becomes of a file that is treated, from the tree before to the result and the tree after.
-/
inductive Treated (b : Batch) (path : Path) (content : Content) (t : Tree) (storage : Storage) :
    FileResult → Tree → Prop
  /-- The file is rewritten. -/
  | rewritten {u : Tree} : b.mode = .inPlace → t.write path content.bytes storage = .ok u →
      Treated b path content t storage (.ok .rewritten) u
  /-- The file is opened, and takes only the beginning of the content. -/
  | cut {e : IoError} {u : Tree} : b.mode = .inPlace →
      t.write path content.bytes storage = .error (.writing e u) →
        Treated b path content t storage (.error (.write path e)) u
  /-- Nothing is written to the file. -/
  | kept {r : FileResult} : r ≠ .ok .rewritten → (∀ p e, r ≠ .error (.write p e)) →
      Treated b path content t storage r t

/-- A file that is treated is rewritten, cut off or left as it is. -/
theorem treat_cases (b : Batch) (path : Path) (content : Content) (t : Tree) (storage : Storage) :
    ∃ r, ((b.treat path content).run t storage).result = .finished r ∧
      Treated b path content t storage r ((b.treat path content).run t storage).tree := by
  cases hmode : b.mode with
  | inPlace =>
      rw [treat_in_place_run hmode]
      cases hwrite : t.write path content.bytes storage with
      | ok u => exact ⟨_, rfl, .rewritten hmode hwrite⟩
      | error e =>
          cases e with
          | opening e => exact ⟨_, rfl, .kept (fun h => nomatch h) fun _ _ h => nomatch h⟩
          | writing e left => exact ⟨_, rfl, .cut hmode hwrite⟩
  | preview =>
      cases hcomparer : b.settings.comparer with
      | none =>
          rw [treat_without_comparer hmode hcomparer]
          exact ⟨_, rfl, .kept (fun h => nomatch h) fun _ _ h => nomatch h⟩
      | some comparer =>
          rw [treat_preview_run hmode hcomparer]
          cases Handover.result b.host (b.comparison comparer path) t content.bytes with
          | ok value => exact ⟨_, rfl, .kept (fun h => nomatch h) fun _ _ h => nomatch h⟩
          | error reason => exact ⟨_, rfl, .kept (fun h => nomatch h) fun _ _ h => nomatch h⟩

/-- A file without a text cannot be read or is not the encoding of one. -/
theorem process_file_no_text (h : t.text? path = none) :
    ∃ fault, ((∃ e, fault = .read path e) ∨ ∃ message, fault = .parse path message) ∧
      (b.processFile path).run t storage = ⟨.finished (.error fault), t, [], []⟩ := by
  unfold Tree.text? at h
  unfold processFile load
  cases hread : t.read path with
  | error e =>
      refine ⟨.read path e, .inl ⟨e, rfl⟩, ?_⟩
      simp only [run_bind, run_getTree, hread, run_pure]
      rfl
  | ok data =>
      rw [hread] at h
      cases hdecode : Utf8.decode data with
      | ok text => simp [hdecode, Except.toOption] at h
      | error e =>
          refine ⟨.parse path ("source is not valid UTF-8: ".toList ++ e.message), .inr ⟨_, rfl⟩,
            ?_⟩
          simp only [run_bind, run_getTree, hread, run_pure, newContent, hdecode]
          rfl

/-- A file without a text comes to a fault before the formatter is asked. -/
theorem process_file_unread (h : t.text? path = none) :
    ∃ fault, fault.endsRun = false ∧
      (b.processFile path).run t storage = ⟨.finished (.error fault), t, [], []⟩ := by
  obtain ⟨fault, hfault, hrun⟩ := process_file_no_text (b := b) h
  refine ⟨fault, ?_, hrun⟩
  rcases hfault with ⟨e, rfl⟩ | ⟨message, rfl⟩
  · rfl
  · rfl

/-- What comes of a file after the formatter was asked for the canonical form of its text. -/
inductive AfterAsking (b : Batch) (path : Path) (storage : Storage)
    (asked : Effect (Except Text Text)) : Effect FileResult → Prop
  /-- The formatter stops the program. -/
  | crash {logs output} : asked.result = .crashed →
      AfterAsking b path storage asked ⟨.crashed, asked.tree, logs, output⟩
  /-- The formatter refuses the text. -/
  | refused {message logs output} : asked.result = .finished (.error message) →
      AfterAsking b path storage asked
        ⟨.finished (.error (.parse path message)), asked.tree, logs, output⟩
  /-- The file is in canonical form. -/
  | fits {shown logs output} : asked.result = .finished (.ok shown) →
      AfterAsking b path storage asked ⟨.finished (.ok .unchanged), asked.tree, logs, output⟩
  /-- The file has to change, and is treated in the tree that the formatter left. -/
  | treated {shown logs output} : asked.result = .finished (.ok shown) →
      AfterAsking b path storage asked
        ⟨((b.treat path (Content.ofText shown)).run asked.tree storage).result,
          ((b.treat path (Content.ofText shown)).run asked.tree storage).tree, logs, output⟩

/-- A file with a text is left as the formatter leaves it, or treated from there on. -/
theorem process_file_asked (b : Batch) (storage : Storage) (h : t.text? path = some text) :
    AfterAsking b path storage ((b.formatter text).run t storage)
      ((b.processFile path).run t storage) := by
  obtain ⟨data, hread, hdecode⟩ := Tree.text_eq_some.1 h
  rcases hasked : (b.formatter text).run t storage with ⟨result, u, logs, output⟩
  simp only [processFile, load, newContent, run_bind, run_getTree, hread, run_pure, hdecode, hasked]
  cases result with
  | crashed => exact .crash rfl
  | finished formatted =>
      cases formatted with
      | error message => exact .refused rfl
      | ok shown =>
          by_cases hchanges : (Content.ofText shown).changes data = true
          · simp only [run_pure, hchanges, ↓reduceIte]
            exact .treated rfl
          · simp only [run_pure, hchanges]
            exact .fits rfl

/-- Only where changes are shown does a file end the run with a fault. -/
theorem preview_of_fatal {fault : Fault}
    (h : ((b.processFile path).run t storage).result = .finished (.error fault))
    (hends : fault.endsRun = true) : b.mode = .preview := by
  cases hmode : b.mode with
  | preview => rfl
  | inPlace =>
      exfalso
      cases htext : t.text? path with
      | none =>
          obtain ⟨fault', hgoes, hrun⟩ := process_file_unread (b := b) htext
          rw [hrun] at h
          cases h
          rw [hgoes] at hends
          cases hends
      | some text =>
          generalize hrun : (b.processFile path).run t storage = here at h
          have hcases := process_file_asked b storage htext
          rw [hrun] at hcases
          cases hcases with
          | crash => cases h
          | refused =>
              cases h
              cases hends
          | fits => cases h
          | @treated shown _ _ hshown =>
              rw [treat_in_place_run hmode] at h
              split at h
              · cases h
              · cases h
                cases hends
              · cases h
                cases hends

/-! ## Steps -/

/-- Take a step. -/
def take (b : Batch) : Step → Action (Except Fault Answer)
  | .load path => do pure ((← load path).map .data)
  | .store path content => do pure ((← store path content).map fun _ => .done)
  | .preview path content => do pure ((← b.preview path content).map fun _ => .done)
  | .format path => do pure ((← b.processFile path).map .treated)

end Batch

/-- The ending with another value. -/
def Completion.map {α β : Type} (f : α → β) : Completion α → Completion β
  | .finished a => .finished (f a)
  | .crashed => .crashed

/-- Yielding a value that is made of another one changes nothing else. -/
theorem Action.run_bind_pure {α β : Type} (action : Action α) (f : α → β) (t : Tree)
    {storage : Storage} :
    (action >>= fun a => pure (f a)).run t storage =
      ⟨(action.run t storage).result.map f, (action.run t storage).tree,
        (action.run t storage).logs, (action.run t storage).output⟩ := by
  rw [run_bind]
  cases (action.run t storage).result <;> simp only [run_pure, List.append_nil, Completion.map]

namespace Turn

variable {b : Batch} {storage : Storage} {turn : Turn} {path : Path} {content : Content}
  {location : Location}

/-- What the turn yields and leaves behind. -/
def effect (b : Batch) (storage : Storage := .roomy) (turn : Turn) : Effect (Except Fault Answer) :=
  (b.take turn.step).run turn.before storage

/-- The tree after the turn. -/
def after (b : Batch) (storage : Storage := .roomy) (turn : Turn) : Tree :=
  (turn.effect b storage).tree

/-- What asking the formatter yields and leaves behind, if it is asked. -/
def asked? (b : Batch) (storage : Storage) (turn : Turn) : Option (Effect (Except Text Text)) :=
  match turn.step with
  | .format path =>
      (turn.before.text? path).map fun text => (b.formatter text).run turn.before storage
  | _ => none

/-- The tree as the formatter leaves it. -/
def left (b : Batch) (storage : Storage) (turn : Turn) : Tree :=
  ((turn.asked? b storage).map Effect.tree).getD turn.before

/-- The content that the formatter makes, if it is asked and makes one. -/
def made? (b : Batch) (storage : Storage) (turn : Turn) : Option Content :=
  (turn.asked? b storage).bind fun asked =>
    match asked.result with
    | .finished (.ok shown) => some (Content.ofText shown)
    | _ => none

/-- The content that the turn may write and the path at which it does so: a content that is stored,
or the one that the formatter made. -/
def content? (b : Batch) (storage : Storage) (turn : Turn) : Option (Path × Content) :=
  match turn.step with
  | .store path content => some (path, content)
  | .format path => (turn.made? b storage).map fun content => (path, content)
  | _ => none

/-- How much of a content is written, by the answer: all of it where it was stored or a file was
rewritten, and the bytes that were taken where writing failed halfway. -/
def written? (content : Content) (taken : Nat) : Completion (Except Fault Answer) → Option Bytes
  | .finished (.ok .done) => some content.bytes
  | .finished (.ok (.treated .rewritten)) => some content.bytes
  | .finished (.error (.write _ _)) => some (content.bytes.take taken)
  | _ => none

/-- What the turn writes and the path at which it does so. -/
def write? (b : Batch) (storage : Storage) (turn : Turn) : Option (Path × Bytes) :=
  (turn.content? b storage).bind fun (path, content) =>
    (written? content ((turn.left b storage).taken path content.bytes storage)
      (turn.effect b storage).result).map fun bytes => (path, bytes)

/-- What a turn does in which a file is treated. -/
theorem effect_format (b : Batch) (storage : Storage) (path : Path) (t : Tree) :
    effect b storage ⟨.format path, t⟩ =
      ⟨((b.processFile path).run t storage).result.map fun r => r.map .treated,
        ((b.processFile path).run t storage).tree, ((b.processFile path).run t storage).logs,
        ((b.processFile path).run t storage).output⟩ :=
  run_bind_pure _ _ _

/-- The turn answers that a content was stored or that a file was rewritten. -/
def Wrote (b : Batch) (storage : Storage) (turn : Turn) : Prop :=
  (turn.effect b storage).result = .finished (.ok .done) ∨
    (turn.effect b storage).result = .finished (.ok (.treated .rewritten))

/-- What a turn does to the files once the formatter was asked. -/
inductive Acts (b : Batch) (storage : Storage) (turn : Turn) : Prop
  /-- It writes the whole content. -/
  | whole (path : Path) (content : Content) : turn.content? b storage = some (path, content) →
      turn.Wrote b storage → turn.write? b storage = some (path, content.bytes) →
      (turn.left b storage).write path content.bytes storage = .ok (turn.after b storage) →
      (∀ path, turn.step = .format path → b.mode = .inPlace) → Acts b storage turn
  /-- It fails when only the beginning of the content is written. -/
  | cut (path : Path) (content : Content) (e : IoError) :
      turn.content? b storage = some (path, content) →
      (turn.effect b storage).result = .finished (.error (.write path e)) →
      turn.write? b storage = some (path, content.bytes.take
        ((turn.left b storage).taken path content.bytes storage)) →
      (turn.left b storage).write path content.bytes storage =
        .error (.writing e (turn.after b storage)) →
      (∀ path, turn.step = .format path → b.mode = .inPlace) → Acts b storage turn
  /-- It writes nothing. -/
  | nothing : turn.write? b storage = none → turn.after b storage = turn.left b storage →
      Acts b storage turn

/-- A turn in which a content is stored writes it, or the beginning of it, or nothing. -/
theorem acts_store (b : Batch) (storage : Storage) (path : Path) (content : Content) (t : Tree) :
    Acts b storage ⟨.store path content, t⟩ := by
  have hcontent : content? b storage ⟨.store path content, t⟩ = some (path, content) := rfl
  have hleft : left b storage ⟨.store path content, t⟩ = t := rfl
  have heffect : effect b storage ⟨.store path content, t⟩ =
      ⟨((Batch.store path content).run t storage).result.map fun r => r.map fun _ => .done,
        ((Batch.store path content).run t storage).tree,
        ((Batch.store path content).run t storage).logs,
        ((Batch.store path content).run t storage).output⟩ := run_bind_pure _ _ _
  rw [Batch.store_run] at heffect
  cases hwrite : t.write path content.bytes storage with
  | ok u =>
      rw [hwrite] at heffect
      refine .whole path content hcontent (.inl (by rw [heffect]; rfl)) ?_ ?_ fun _ h => nomatch h
      · rw [write?, hcontent, heffect]
        rfl
      · rw [hleft, hwrite, after, heffect]
  | error e =>
      rw [hwrite] at heffect
      cases e with
      | opening e =>
          refine .nothing ?_ (by rw [hleft, after, heffect])
          rw [write?, hcontent, heffect]
          rfl
      | writing e u =>
          refine .cut path content e hcontent (by rw [heffect]; rfl) ?_ ?_ fun _ h => nomatch h
          · rw [write?, hcontent, heffect]
            rfl
          · rw [hleft, hwrite, after, heffect]

/-- A turn whose answer says nothing of writing writes nothing. -/
theorem write_eq_none
    (h : ∀ content taken, written? content taken (turn.effect b storage).result = none) :
    turn.write? b storage = none := by
  simp [write?, h]

/-- A file that is neither rewritten nor cut off has nothing written to it. -/
theorem written_of_kept {r : FileResult} (hrewritten : r ≠ .ok .rewritten)
    (hcut : ∀ p e, r ≠ .error (.write p e)) (content : Content) (taken : Nat) :
    written? content taken (.finished (r.map .treated)) = none := by
  cases r with
  | ok treatment =>
      cases treatment with
      | rewritten => exact absurd rfl hrewritten
      | _ => rfl
  | error fault =>
      cases fault with
      | write p e => exact absurd rfl (hcut p e)
      | _ => rfl

/-- A turn in which a file is treated rewrites it, cuts it off or leaves it as it is. -/
theorem acts_treated {t : Tree} {r : FileResult}
    (hcontent : content? b storage ⟨.format path, t⟩ = some (path, content))
    (hresult : (effect b storage ⟨.format path, t⟩).result = .finished (r.map .treated))
    (h : Batch.Treated b path content (left b storage ⟨.format path, t⟩) storage r
      (after b storage ⟨.format path, t⟩)) : Acts b storage ⟨.format path, t⟩ := by
  generalize hafter : after b storage ⟨.format path, t⟩ = u at h
  cases h with
  | rewritten hmode hwrite =>
      refine .whole path content hcontent (.inr hresult) ?_ (by rw [hwrite, hafter])
        fun _ _ => hmode
      rw [write?, hcontent, hresult]
      rfl
  | @cut e _ hmode hwrite =>
      refine .cut path content e hcontent hresult ?_ (by rw [hwrite, hafter]) fun _ _ => hmode
      rw [write?, hcontent, hresult]
      rfl
  | kept hrewritten hcut =>
      refine .nothing (write_eq_none fun content taken => ?_) hafter
      rw [hresult]
      exact written_of_kept hrewritten hcut content taken

/-- A turn in which a file is formatted writes the content that the formatter made, or the beginning
of it, or nothing. -/
theorem acts_format (b : Batch) (storage : Storage) (path : Path) (t : Tree) :
    Acts b storage ⟨.format path, t⟩ := by
  have hafter : after b storage ⟨.format path, t⟩ = ((b.processFile path).run t storage).tree := by
    rw [after, effect_format]
  have hresult : (effect b storage ⟨.format path, t⟩).result =
      ((b.processFile path).run t storage).result.map fun r => r.map .treated := by
    rw [effect_format]
  cases htext : t.text? path with
  | none =>
      obtain ⟨fault, -, hrun⟩ := Batch.process_file_unread (b := b) htext
      refine .nothing ?_ ?_
      · simp [write?, content?, made?, asked?, htext]
      · rw [hafter, hrun]
        simp [left, asked?, htext]
  | some text =>
      have hasked : asked? b storage ⟨.format path, t⟩ =
          some ((b.formatter text).run t storage) := by
        simp [asked?, htext]
      have hleft : left b storage ⟨.format path, t⟩ = ((b.formatter text).run t storage).tree := by
        simp [left, hasked]
      have hcases := Batch.process_file_asked b storage htext
      generalize (b.processFile path).run t storage = here at hafter hresult hcases
      cases hcases with
      | crash =>
          exact .nothing (write_eq_none fun _ _ => by rw [hresult]; rfl) (by rw [hafter, hleft])
      | refused =>
          exact .nothing (write_eq_none fun _ _ => by rw [hresult]; rfl) (by rw [hafter, hleft])
      | fits =>
          exact .nothing (write_eq_none fun _ _ => by rw [hresult]; rfl) (by rw [hafter, hleft])
      | @treated shown _ _ hshown =>
          obtain ⟨r, htreat, htreated⟩ := Batch.treat_cases b path (Content.ofText shown)
            ((b.formatter text).run t storage).tree storage
          rw [← hleft] at htreat htreated hafter hresult
          rw [← hafter] at htreated
          refine acts_treated ?_ (hresult.trans (by rw [htreat]; rfl)) htreated
          simp [content?, made?, hasked, hshown]

/-- What a turn does to the files once the formatter was asked: it writes what it writes, or
nothing. -/
theorem acts (b : Batch) (storage : Storage) (turn : Turn) : turn.Acts b storage := by
  obtain ⟨step, t⟩ := turn
  cases step with
  | load path =>
      refine .nothing rfl ?_
      simp only [after, effect, Batch.take, run_bind_pure]
      exact Batch.load_keeps_tree path t storage
  | preview path content =>
      refine .nothing rfl ?_
      simp only [after, effect, Batch.take, run_bind_pure]
      exact Batch.preview_keeps_tree path content t storage
  | store path content => exact acts_store b storage path content t
  | format path => exact acts_format b storage path t

/-! ## The files after a turn -/

/-- What a turn writes comes to what the path leads to; a turn that writes nothing leaves the tree
as the formatter left it. -/
theorem received (b : Batch) (storage : Storage) (turn : Turn) :
    (∃ path bytes, turn.write? b storage = some (path, bytes) ∧
      (turn.left b storage).Received path bytes (turn.after b storage)) ∨
    (turn.write? b storage = none ∧ turn.after b storage = turn.left b storage) := by
  cases acts b storage turn with
  | whole path content _ _ hbytes hwrite =>
      exact .inl ⟨path, _, hbytes, Tree.received_of_write hwrite⟩
  | cut path content e _ _ hbytes hwrite =>
      exact .inl ⟨path, _, hbytes, (Tree.received_of_cut hwrite).2⟩
  | nothing hbytes hafter => exact .inr ⟨hbytes, hafter⟩

/-- What the turn writes at a location, if the path at which it writes leads there. -/
def writes? (b : Batch) (storage : Storage) (location : Location) (turn : Turn) : Option Bytes :=
  (turn.write? b storage).bind fun (path, bytes) =>
    match (turn.left b storage).resolve path with
    | .ok place => if place = .inside location then some bytes else none
    | .error _ => none

/-- A turn writes at a location if it writes at a path that leads there. -/
theorem writes_eq_some {bytes : Bytes} :
    turn.writes? b storage location = some bytes ↔
      ∃ path, turn.write? b storage = some (path, bytes) ∧
        (turn.left b storage).resolve path = .ok (.inside location) := by
  unfold writes?
  rw [Option.bind_eq_some_iff]
  constructor
  · rintro ⟨⟨path, bytes'⟩, hwrite, h⟩
    dsimp only at h
    split at h
    · rename_i place hresolve
      split at h
      · rename_i hplace
        cases h
        exact ⟨path, hwrite, by rw [hresolve, hplace]⟩
      · cases h
    · cases h
  · rintro ⟨path, hwrite, hresolve⟩
    exact ⟨(path, bytes), hwrite, by simp [hresolve]⟩

/-- After a turn there is at every location what the formatter left there, with the content that the
turn writes. -/
theorem get_after (b : Batch) (storage : Storage) (turn : Turn) (location : Location) :
    (turn.after b storage).get? location = ((turn.left b storage).get? location).map
      (Entry.withContent (turn.writes? b storage location)) := by
  rcases received b storage turn with ⟨path, bytes, hwrite, hafter⟩ | ⟨hwrite, hafter⟩
  · by_cases hresolve : (turn.left b storage).resolve path = .ok (.inside location)
    · obtain ⟨old, hold, hnew⟩ := hafter.get_same hresolve
      simp [writes_eq_some.2 ⟨path, hwrite, hresolve⟩, hold, hnew, Entry.withContent]
    · have hnone : turn.writes? b storage location = none := by
        refine Option.eq_none_iff_forall_ne_some.2 fun bytes' hbytes => hresolve ?_
        obtain ⟨path', hwrite', hresolve'⟩ := writes_eq_some.1 hbytes
        rw [hwrite] at hwrite'
        cases hwrite'
        exact hresolve'
      rw [hnone, Entry.map_with_content_none, hafter.get_other hresolve]
  · have hnone : turn.writes? b storage location = none := by simp [writes?, hwrite]
    rw [hnone, Entry.map_with_content_none, hafter]

/-- After a turn there are the entries that the formatter left, but for the contents of files. -/
theorem same_outline_after (b : Batch) (storage : Storage) (turn : Turn) :
    Tree.SameOutline (turn.after b storage) (turn.left b storage) := by
  intro location
  rw [get_after, Option.map_map]
  congr 1
  exact funext (Entry.outline_with_content _)

/-- The turn opens a regular file and fails when only the beginning of the content is written, which
is what the file holds then. -/
def CutOff (b : Batch) (storage : Storage) (turn : Turn) : Prop :=
  ∃ path content location kept e, turn.content? b storage = some (path, content) ∧
    (turn.effect b storage).result = .finished (.error (.write path e)) ∧
    (turn.left b storage).file? path = some location ∧ kept < content.bytes.length ∧
    turn.after b storage =
      (turn.left b storage).set location (.file (content.bytes.take kept))

/-- Where files take whole contents, no file is cut off. -/
theorem not_cut_off (hstorage : storage.TakesWhole) (b : Batch) (turn : Turn) :
    ¬turn.CutOff b storage := by
  rintro ⟨path, content, location, kept, e, hcontent, hresult, hfile, -, -⟩
  cases acts b storage turn with
  | whole _ _ _ hwrote =>
      unfold Wrote at hwrote
      rw [hresult] at hwrote
      rcases hwrote with hdone | hrewritten
      · cases hdone
      · cases hrewritten
  | cut path' content' _ hcontent' _ _ hwrite =>
      rw [hcontent] at hcontent'
      cases hcontent'
      obtain ⟨old, hlocate⟩ := Tree.file_eq_some.1 hfile
      exact Tree.write_of_takes_whole hstorage hlocate hwrite
  | nothing hwrite =>
      rw [write?, hcontent, hresult] at hwrite
      cases hwrite

/-- A turn that does not succeed leaves the tree as the formatter left it, or cuts a file off. -/
theorem after_of_failure (h : ∀ a, (turn.effect b storage).result ≠ .finished (.ok a)) :
    turn.after b storage = turn.left b storage ∨ turn.CutOff b storage := by
  cases acts b storage turn with
  | whole path content _ hwrote =>
      rcases hwrote with hdone | hrewritten
      · exact absurd hdone (h _)
      · exact absurd hrewritten (h _)
  | cut path content e hcontent hresult _ hwrite =>
      obtain ⟨hlt, hreceived⟩ := Tree.received_of_cut hwrite
      rcases hreceived with ⟨location, old, hlocate, hafter⟩ | ⟨place, device, hlocate, hafter⟩
      · exact .inr ⟨path, content, location, _, e, hcontent, hresult,
          Tree.file_eq_some.2 ⟨old, hlocate⟩, hlt, hafter⟩
      · exact .inl hafter
  | nothing _ hafter => exact .inl hafter

/-- What a turn writes to a file is the content that was given or made, and all of it if the turn
succeeds. -/
theorem written (b : Batch) (storage : Storage) (turn : Turn) (location : Location) {bytes : Bytes}
    (h : turn.writes? b storage location = some bytes) :
    ∃ path content, turn.content? b storage = some (path, content) ∧
      (turn.left b storage).resolve path = .ok (.inside location) ∧
      ((turn.Wrote b storage ∧ bytes = content.bytes) ∨
        (turn.CutOff b storage ∧ bytes <+: content.bytes)) := by
  obtain ⟨path, hbytes, hresolve⟩ := writes_eq_some.1 h
  cases acts b storage turn with
  | whole path' content hcontent hwrote hbytes' =>
      rw [hbytes] at hbytes'
      cases hbytes'
      exact ⟨path, content, hcontent, hresolve, .inl ⟨hwrote, rfl⟩⟩
  | cut path' content e hcontent hresult hbytes' hwrite =>
      rw [hbytes] at hbytes'
      cases hbytes'
      obtain ⟨hlt, hreceived⟩ := Tree.received_of_cut hwrite
      obtain ⟨old, hlocate, hafter⟩ := hreceived.eq_set hresolve
      refine ⟨path, content, hcontent, hresolve, .inr ⟨?_, List.take_prefix _ _⟩⟩
      exact ⟨path, content, location, _, e, hcontent, hresult, Tree.file_eq_some.2 ⟨old, hlocate⟩,
        hlt, hafter⟩
  | nothing hnone =>
      rw [hbytes] at hnone
      cases hnone

/-- A turn in which a file is formatted writes only where files are changed in place. -/
theorem in_place_of_write (hstep : turn.step = .format path)
    (h : turn.write? b storage ≠ none) : b.mode = .inPlace := by
  cases acts b storage turn with
  | whole _ _ _ _ _ _ hmode => exact hmode path hstep
  | cut _ _ _ _ _ _ _ hmode => exact hmode path hstep
  | nothing hwrite => exact absurd hwrite h

/-- Where changes are only shown, a turn in which a file is formatted leaves the tree as the
formatter left it. -/
theorem after_of_preview (hmode : b.mode = .preview) (hstep : turn.step = .format path) :
    turn.after b storage = turn.left b storage := by
  cases acts b storage turn with
  | whole _ _ _ _ _ _ hplace => exact nomatch hmode.symm.trans (hplace path hstep)
  | cut _ _ _ _ _ _ _ hplace => exact nomatch hmode.symm.trans (hplace path hstep)
  | nothing _ hafter => exact hafter

end Turn

end QueryTidy
