import QueryTidy.Proofs.Run.Fatal
import QueryTidy.Proofs.Run.OneByOne
import QueryTidy.Proofs.Run.Sessions

/-!
# What a run tells

Without the option for more messages, a run tells which files have to change and what goes wrong.
The messages and the exit status come from the turns of its files (`Batch.fileTurns`): what is told
at a turn (`Turn.told`) is a function of the tree from which the turn starts. The messages of a run
are those of its turns (`Program.finish_messages`), and its exit status says whether one of them is
an error message (`Program.finish_status`), so a run that ends with the status 0 made or showed all
changes (`Program.messages_tell_the_truth`).
-/

namespace QueryTidy

open QueryTidy.Action

/-! ## Messages and lines -/

namespace Program

/-- The texts of the records that are not just for debugging. -/
def messages (logs : List LogRecord) : List Text :=
  (logs.filter fun r => r.level ≠ .debug).map LogRecord.text

/-- The line that shows a message. Control sequences are left out, since they are for terminals. -/
def line (message : Text) : Text :=
  Text.plain ("promfmt: ".toList ++ message ++ ['\n'])

/-- The messages of records one after the other. -/
theorem messages_append (logs logs' : List LogRecord) :
    messages (logs ++ logs') = messages logs ++ messages logs' := by
  simp [messages]

/-- Records for debugging are no messages. -/
theorem messages_quiet {logs : List LogRecord} (h : ∀ r ∈ logs, r.level = .debug) :
    messages logs = [] := by
  unfold messages
  rw [List.filter_eq_nil_iff.2 fun r hr => by simp [h r hr]]
  rfl

/-- A message without control characters, but for blanks, is shown as it is. -/
theorem line_eq {message : Text} (h : ∀ c ∈ message, Text.isKept c = true) :
    line message = "promfmt: ".toList ++ message ++ ['\n'] := by
  have hname : ("promfmt: ".toList.all Text.isKept) = true := by decide
  refine Text.plain_eq_self fun c hc => ?_
  simp only [List.mem_append] at hc
  rcases hc with (hc | hc) | hc
  · exact List.all_eq_true.1 hname c hc
  · exact h c hc
  · obtain rfl := List.mem_singleton.1 hc
    rfl

/-- Without the option for more messages and without a filter of the environment, exactly the
messages are shown, each in its line. -/
theorem log_text_messages (logs : List LogRecord) :
    logText false none logs = (messages logs).flatMap line := by
  have hshows : LogFilter.shows ⟨[⟨some "promfmt".toList, 3⟩], []⟩ =
      fun r => decide (r.level ≠ .debug) := by
    funext ⟨level, area, text⟩
    cases area <;> cases level <;> cases text <;> rfl
  have hline : logLine false = fun r => line r.text := rfl
  simp only [logText, filter_of_none, hshows, messages, List.flatMap_map, hline, List.flatten_nil,
    List.nil_append]

end Program

open QueryTidy.Program

/-- The path of a step. -/
def Step.path : Step → Path
  | .load path => path
  | .store path _ => path
  | .preview path _ => path
  | .format path => path

/-- What is done about a file that has to change, where nothing goes wrong. -/
def RunMode.treatment : RunMode → Treatment
  | .inPlace => .rewritten
  | .preview => .previewed

variable {b : Batch} {f : Text → FormatResult} {t : Tree} {storage : Storage} {path : Path}
  {paths rest : List Path}

/-! ## What is told at a turn -/

namespace Batch

/-- The message that a file has to change. -/
def announcement (b : Batch) (path : Path) : Text :=
  match b.mode with
  | .inPlace => "Applying formatting to ".toList ++ path.toText
  | .preview => "Diffing ".toList ++ path.toText

/-- The announcement of a file, if it has to change. -/
def announced (b : Batch) (f : Text → FormatResult) (t : Tree) (path : Path) : List Text :=
  (t.change? f path).toList.map fun _ => b.announcement path

/-- What is told while a file is treated. -/
theorem messages_treat (path : Path) (content : Content) (t : Tree) (storage : Storage) :
    messages ((b.treat path content).run t storage).logs = [b.announcement path] := by
  unfold announcement
  cases hmode : b.mode with
  | inPlace =>
      rw [treat_in_place_run hmode]
      split <;> rfl
  | preview =>
      cases hcomparer : b.settings.comparer with
      | none =>
          rw [treat_without_comparer hmode hcomparer]
          rfl
      | some comparer =>
          -- The announcement comes first; what concerns the tool is for debugging.
          have hquiet : ∀ r ∈ showingRecord path comparer ::
              Handover.records b.host (b.comparison comparer path), r.level = .debug := by
            unfold Handover.records
            split <;> simp [showingRecord, Handover.runningRecord]
          rw [treat_preview_run hmode hcomparer, ← List.singleton_append, messages_append,
            messages_quiet hquiet]
          rfl

/-- What is told about a file, but for a fault in the end, is that it has to change. -/
theorem messages_process_file (hf : b.formatter = Formatter.ofResult f) (path : Path) (t : Tree)
    (storage : Storage) :
    messages ((b.processFile path).run t storage).logs = b.announced f t path := by
  rw [process_file_run hf]
  unfold announced
  cases hchange : t.change? f path with
  | some content =>
      rw [Tree.verdict_change_iff.2 hchange]
      exact messages_treat path content t storage
  | none =>
      cases hverdict : t.verdict f path with
      | change content => exact absurd hverdict (Tree.verdict_ne_change hchange content)
      | _ => rfl

/-- What is told about a fault in the end is its wording. -/
theorem messages_fault (r : FileResult) :
    messages (faultRecords r) = (Report.fault? r).toList.map Fault.message := by
  cases r <;> rfl

/-- A file that is treated without a fault is treated as the mode has it. -/
theorem treat_ok {content : Content} {treatment : Treatment}
    (h : ((b.treat path content).run t storage).result = .finished (.ok treatment)) :
    treatment = b.mode.treatment := by
  cases hmode : b.mode with
  | inPlace =>
      rw [treat_in_place_run hmode] at h
      split at h <;> cases h
      rfl
  | preview =>
      cases hcomparer : b.settings.comparer with
      | none =>
          rw [treat_without_comparer hmode hcomparer] at h
          cases h
      | some comparer =>
          rw [treat_preview_run hmode hcomparer] at h
          unfold previewResult at h
          split at h <;> cases h
          rfl

/-- A file without a fault is in canonical form, or treated as the mode has it. -/
theorem process_file_ok (hf : b.formatter = Formatter.ofResult f) {treatment : Treatment}
    (h : ((b.processFile path).run t storage).result = .finished (.ok treatment)) :
    treatment = .unchanged ∨ treatment = b.mode.treatment := by
  rw [process_file_run hf] at h
  cases hverdict : t.verdict f path with
  | change content =>
      rw [hverdict] at h
      exact .inr (treat_ok h)
  | fits =>
      rw [hverdict] at h
      cases h
      exact .inl rfl
  | _ =>
      rw [hverdict] at h
      cases h

end Batch

namespace Turn

/-- The fault of a turn, if it comes to one. -/
def fault? (b : Batch) (storage : Storage) (turn : Turn) : Option Fault :=
  match (turn.effect b storage).result with
  | .finished (.error fault) => some fault
  | _ => none

/-- What is told at a turn in which a file is formatted: that the file has to change, if it has to,
and then the fault that it comes to, if it comes to one. -/
def told (b : Batch) (storage : Storage) (f : Text → FormatResult) (turn : Turn) : List Text :=
  b.announced f turn.before turn.step.path ++ (turn.fault? b storage).toList.map Fault.message

/-- The fault of a turn in which a file is formatted is that of the file. -/
theorem fault_format {r : FileResult}
    (h : ((b.processFile path).run t storage).result = .finished r) :
    fault? b storage ⟨.format path, t⟩ = Report.fault? r := by
  unfold fault?
  rw [effect_format, h]
  cases r <;> rfl

/-- A turn that stops the program comes to no fault. -/
theorem fault_format_crash (h : ((b.processFile path).run t storage).result = .crashed) :
    fault? b storage ⟨.format path, t⟩ = none := by
  unfold fault?
  rw [effect_format, h]
  rfl

/-- A turn with a fault that ends the run is the last one of its batch. -/
theorem ends_batch_of_fault {turn : Turn} (h : turn.fault? b storage = some .noComparer) :
    turn.endsBatch b storage = true := by
  unfold fault? at h
  unfold endsBatch
  split at h
  · rename_i hresult
    cases h
    rw [hresult]
    rfl
  · cases h

/-- The last turn of a batch stops the program or has a fault that ends the run. -/
theorem cases_of_ends_batch {turn : Turn} (h : turn.endsBatch b storage = true) :
    (turn.effect b storage).result = .crashed ∨ turn.fault? b storage = some .noComparer := by
  unfold endsBatch at h
  unfold fault?
  split at h
  · cases h
  · rename_i hresult
    rw [hresult, Fault.ends_run_iff.1 h]
    exact .inr rfl
  · exact .inl ‹_›

end Turn

/-! ## The turns of a run -/

namespace Batch

/-- The turns of a batch format its files in order, from the first one on. -/
theorem file_turns_steps (b : Batch) (paths : List Path) (t : Tree) (storage : Storage) :
    (b.fileTurns paths t storage).map Turn.step <+: paths.map Step.format := by
  induction paths generalizing t with
  | nil => exact List.nil_prefix
  | cons path rest ih =>
      rw [fileTurns, List.map_cons, List.map_cons]
      refine List.cons_prefix_cons.2 ⟨rfl, ?_⟩
      split
      · exact List.nil_prefix
      · exact ih _

/-- Unless one of them ends the batch, the turns of a batch format all of its files. -/
theorem file_turns_all
    (h : ∀ turn ∈ b.fileTurns paths t storage, turn.endsBatch b storage = false) :
    (b.fileTurns paths t storage).map Turn.step = paths.map Step.format := by
  induction paths generalizing t with
  | nil => rfl
  | cons path rest ih =>
      rw [fileTurns] at h ⊢
      have hfirst := h _ List.mem_cons_self
      rw [hfirst] at h ⊢
      rw [List.map_cons, List.map_cons]
      exact congrArg _ (ih fun turn hturn => h turn (List.mem_cons_of_mem _ hturn))

/-- A turn that ends a batch comes last. -/
theorem file_turns_last {turn : Turn} (h : turn ∈ b.fileTurns paths t storage)
    (hends : turn.endsBatch b storage = true) :
    ∃ front, b.fileTurns paths t storage = front ++ [turn] := by
  induction paths generalizing t with
  | nil => cases h
  | cons path rest ih =>
      rw [fileTurns] at h ⊢
      rcases List.mem_cons.1 h with rfl | hrest
      · refine ⟨[], ?_⟩
        rw [hends]
        rfl
      · -- There are turns after the first one only if that does not end the batch.
        by_cases hfirst : Turn.endsBatch b storage ⟨.format path, t⟩ = true
        · simp [hfirst] at hrest
        · rw [if_neg hfirst] at hrest ⊢
          obtain ⟨front, hfront⟩ := ih hrest
          exact ⟨⟨.format path, t⟩ :: front, by rw [hfront, List.cons_append]⟩

/-- The faults of the turns of a batch. -/
def turnFaults (b : Batch) (paths : List Path) (t : Tree) (storage : Storage) : List Fault :=
  (b.fileTurns paths t storage).filterMap (Turn.fault? b storage)

/-- A batch with a fault that ends the run tells it last. -/
theorem last_told (h : .noComparer ∈ b.turnFaults paths t storage) :
    ((b.fileTurns paths t storage).flatMap (Turn.told b storage f)).getLast? =
      some Fault.noComparer.message := by
  obtain ⟨turn, hturn, hfault⟩ := List.mem_filterMap.1 h
  obtain ⟨front, hfront⟩ := file_turns_last hturn (Turn.ends_batch_of_fault hfault)
  have htold : turn.told b storage f =
      b.announced f turn.before turn.step.path ++ [Fault.noComparer.message] := by
    rw [Turn.told, hfault]
    rfl
  -- No turn comes after this one, and its fault is told after the announcement.
  rw [hfront, List.flatMap_append, List.flatMap_singleton, htold, ← List.append_assoc,
    List.getLast?_concat]

/-- Unless a fault or a crash ends the run, the turns of a batch format all of its files. -/
theorem file_turns_of_no_fatal
    (hgoes : ∀ turn ∈ b.fileTurns paths t storage, (turn.effect b storage).result ≠ .crashed)
    (h : .noComparer ∉ b.turnFaults paths t storage) :
    (b.fileTurns paths t storage).map Turn.step = paths.map Step.format := by
  refine file_turns_all fun turn hturn => ?_
  by_cases hends : turn.endsBatch b storage = true
  · rcases Turn.cases_of_ends_batch hends with hcrash | hfault
    · exact absurd hcrash (hgoes turn hturn)
    · exact absurd (List.mem_filterMap.2 ⟨turn, hturn, hfault⟩) h
  · exact Bool.eq_false_iff.2 hends

/-- A turn that neither stops the program nor comes to a fault leaves its file in canonical form, or
treats it as the mode has it. -/
theorem file_turn_ok (hf : b.formatter = Formatter.ofResult f) {turn : Turn}
    (hturn : turn ∈ b.fileTurns paths t storage)
    (hcrash : (turn.effect b storage).result ≠ .crashed)
    (hfault : turn.fault? b storage = none) :
    (turn.effect b storage).result = .finished (.ok (.treated .unchanged)) ∨
      (turn.effect b storage).result = .finished (.ok (.treated b.mode.treatment)) := by
  obtain ⟨path, hstep⟩ := format_of_file_turns hturn
  obtain ⟨step, u⟩ := turn
  obtain rfl : step = .format path := hstep
  rw [Turn.effect_format] at hcrash ⊢
  cases hresult : ((b.processFile path).run u storage).result with
  | crashed =>
      rw [hresult] at hcrash
      exact absurd rfl hcrash
  | finished r =>
      rw [Turn.fault_format hresult] at hfault
      cases r with
      | error fault => cases hfault
      | ok treatment =>
          rcases process_file_ok hf hresult with rfl | rfl
          · exact .inl rfl
          · exact .inr rfl

/-- A turn stops the program only with a text that stops the formatter. -/
theorem text_of_file_turn_crash (hf : b.formatter = Formatter.ofResult f) {turn : Turn}
    (hturn : turn ∈ b.fileTurns paths t storage)
    (hcrash : (turn.effect b storage).result = .crashed) :
    ∃ text ∈ turn.before.text? turn.step.path, f text = .crash := by
  obtain ⟨path, hstep⟩ := format_of_file_turns hturn
  obtain ⟨step, u⟩ := turn
  obtain rfl : step = .format path := hstep
  rw [Turn.effect_format] at hcrash
  cases hresult : ((b.processFile path).run u storage).result with
  | finished r => simp [hresult, Completion.map] at hcrash
  | crashed => exact text_of_process_file_crash hf hresult

end Batch

/-! ## Runs -/

namespace Program

/-- What becomes of a run over a first file and others, and the turns of the run. -/
inductive FirstTurn (b : Batch) (path : Path) (rest : List Path) (t : Tree) (storage : Storage) :
    Effect Nat → List Turn → Prop
  /-- The first file stops the program. -/
  | crash : ((b.processFile path).run t storage).result = .crashed →
      FirstTurn b path rest t storage
        ⟨.crashed, ((b.processFile path).run t storage).tree,
          ((b.processFile path).run t storage).logs, ((b.processFile path).run t storage).output⟩
        [⟨.format path, t⟩]
  /-- There is no tool to show the changes of the first file with. -/
  | fatal : ((b.processFile path).run t storage).result = .finished (.error .noComparer) →
      FirstTurn b path rest t storage
        ⟨.finished 1, ((b.processFile path).run t storage).tree,
          ((b.processFile path).run t storage).logs ++ [noComparerRecord],
          ((b.processFile path).run t storage).output⟩
        [⟨.format path, t⟩]
  /-- The others are treated on the tree that the first file leaves. -/
  | goesOn (r : FileResult) : ((b.processFile path).run t storage).result = .finished r →
      FirstTurn b path rest t storage
        (joined (statusOfResult r) ((b.processFile path).run t storage) (Batch.faultRecords r)
          ((finish b rest).run ((b.processFile path).run t storage).tree storage))
        (⟨.format path, t⟩ :: b.fileTurns rest ((b.processFile path).run t storage).tree storage)

/-- A run is over with the turn of its first file, or goes on with the others. -/
theorem first_turn (b : Batch) (path : Path) (rest : List Path) (t : Tree) (storage : Storage) :
    FirstTurn b path rest t storage ((finish b (path :: rest)).run t storage)
      (b.fileTurns (path :: rest) t storage) := by
  have hafter : Turn.after b storage ⟨.format path, t⟩ =
      ((b.processFile path).run t storage).tree := by
    rw [Turn.after, Turn.effect_format]
  rw [Batch.fileTurns, Batch.ends_batch_format, hafter]
  cases hresult : ((b.processFile path).run t storage).result with
  | crashed =>
      rw [finish_of_crash hresult]
      exact .crash hresult
  | finished r =>
      show FirstTurn b path rest t storage _ (_ :: if Batch.endsRun r then [] else _)
      by_cases hends : Batch.endsRun r = true
      · obtain ⟨fault, rfl, hfatal⟩ := Batch.fault_of_ends_run hends
        obtain rfl := Fault.ends_run_iff.1 hfatal
        rw [finish_of_fatal hresult, if_pos hends]
        exact .fatal hresult
      · rw [finish_of_result hresult (Bool.eq_false_iff.2 hends), if_neg hends]
        exact .goesOn r hresult

/-- The messages of a run are those of its turns. -/
theorem finish_messages (hf : b.formatter = Formatter.ofResult f) (paths : List Path) (t : Tree)
    (storage : Storage) :
    messages ((finish b paths).run t storage).logs =
      (b.fileTurns paths t storage).flatMap (Turn.told b storage f) := by
  induction paths generalizing t with
  | nil => rfl
  | cons path rest ih =>
      have hhere := Batch.messages_process_file hf path t storage
      have hfirst := first_turn b path rest t storage
      generalize (finish b (path :: rest)).run t storage = whole at hfirst ⊢
      generalize b.fileTurns (path :: rest) t storage = turns at hfirst ⊢
      cases hfirst with
      | crash hresult =>
          rw [List.flatMap_singleton, Turn.told, Turn.fault_format_crash hresult, hhere]
          exact (List.append_nil _).symm
      | fatal hresult =>
          rw [List.flatMap_singleton, Turn.told, Turn.fault_format hresult, messages_append, hhere]
          rfl
      | goesOn r hresult =>
          rw [List.flatMap_cons, Turn.told, Turn.fault_format hresult, ← ih]
          show messages
            (((b.processFile path).run t storage).logs ++ (Batch.faultRecords r ++ _)) = _
          rw [messages_append, messages_append, hhere, Batch.messages_fault, ← List.append_assoc]
          rfl

/-- A run stops the program at one of its turns. -/
theorem turn_of_finish_crash (h : ((finish b paths).run t storage).result = .crashed) :
    ∃ turn ∈ b.fileTurns paths t storage, (turn.effect b storage).result = .crashed := by
  induction paths generalizing t with
  | nil => cases h
  | cons path rest ih =>
      have hfirst := first_turn b path rest t storage
      generalize (finish b (path :: rest)).run t storage = whole at h hfirst
      generalize b.fileTurns (path :: rest) t storage = turns at hfirst ⊢
      cases hfirst with
      | crash hresult =>
          refine ⟨_, List.mem_cons_self, ?_⟩
          rw [Turn.effect_format, hresult]
          rfl
      | fatal => cases h
      | goesOn r =>
          cases hrest : ((finish b rest).run
              ((b.processFile path).run t storage).tree storage).result with
          | finished status => simp [joined, hrest] at h
          | crashed =>
              obtain ⟨turn, hturn, hcrash⟩ := ih hrest
              exact ⟨turn, List.mem_cons_of_mem _ hturn, hcrash⟩

/-- The exit status of a run that does not stop the program says whether there were faults, and no
turn of such a run stops the program. -/
theorem finish_status {status : Nat}
    (h : ((finish b paths).run t storage).result = .finished status) :
    (∀ turn ∈ b.fileTurns paths t storage, (turn.effect b storage).result ≠ .crashed) ∧
      status = if b.turnFaults paths t storage = [] then 0 else 1 := by
  unfold Batch.turnFaults
  induction paths generalizing t status with
  | nil =>
      cases h
      exact ⟨(fun _ hturn => nomatch hturn), rfl⟩
  | cons path rest ih =>
      have hfinishes : ∀ {r}, ((b.processFile path).run t storage).result = .finished r →
          (Turn.effect b storage ⟨.format path, t⟩).result ≠ .crashed := by
        intro r hresult
        rw [Turn.effect_format, hresult]
        exact fun h => nomatch h
      have hfirst := first_turn b path rest t storage
      generalize (finish b (path :: rest)).run t storage = whole at h hfirst
      generalize b.fileTurns (path :: rest) t storage = turns at hfirst ⊢
      cases hfirst with
      | crash => cases h
      | fatal hresult =>
          cases h
          rw [List.filterMap_cons_some (Turn.fault_format hresult)]
          exact ⟨List.forall_mem_singleton.2 (hfinishes hresult), rfl⟩
      | goesOn r hresult =>
          have hfault := Turn.fault_format hresult
          cases hrest : ((finish b rest).run
              ((b.processFile path).run t storage).tree storage).result with
          | crashed => simp [joined, hrest] at h
          | finished status' =>
              obtain ⟨hgoes, hlater⟩ := ih hrest
              refine ⟨List.forall_mem_cons.2 ⟨hfinishes hresult, hgoes⟩, ?_⟩
              -- A fault makes the status 1, whatever the files after it come to.
              have hstatus : status = max (statusOfResult r) status' := by
                simpa [joined, hrest] using h.symm
              rw [hstatus, hlater]
              cases r with
              | ok treatment =>
                  rw [List.filterMap_cons_none hfault]
                  exact Nat.zero_max _
              | error fault =>
                  rw [List.filterMap_cons_some hfault]
                  show max 1 _ = 1
                  split <;> rfl

/-- The turns of a run over files, and what the run tells of them. -/
structure Tells (b : Batch) (f : Text → FormatResult) (paths : List Path) (t : Tree)
    (storage : Storage) (outcome : Outcome) : Prop where
  /-- Each turn starts from the tree that the one before it leaves. -/
  linked : Linked b storage t (b.fileTurns paths t storage) outcome.tree
  /-- The turns format the files in order, from the first one on. -/
  steps : (b.fileTurns paths t storage).map Turn.step <+: paths.map Step.format
  /-- All files have their turns unless there is no tool to show changes with. -/
  all : .noComparer ∉ b.turnFaults paths t storage →
    (b.fileTurns paths t storage).map Turn.step = paths.map Step.format
  /-- The lines are those of what is told at the turns. -/
  errors : outcome.errors =
    ((b.fileTurns paths t storage).flatMap (Turn.told b storage f)).flatMap line
  /-- The fault that there is no tool is told last. -/
  last : .noComparer ∈ b.turnFaults paths t storage →
    ((b.fileTurns paths t storage).flatMap (Turn.told b storage f)).getLast? =
      some Fault.noComparer.message
  /-- The exit status is 0 if there is no fault, and 1 otherwise. -/
  status : outcome.ending = .exit (if b.turnFaults paths t storage = [] then 0 else 1)
  /-- After an exit with the status 0, every file had its turn and was in canonical form then, or
  was treated as the mode has it. -/
  success : outcome.ending = .exit 0 →
    (b.fileTurns paths t storage).map Turn.step = paths.map Step.format ∧
      ∀ turn ∈ b.fileTurns paths t storage,
        (turn.effect b storage).result = .finished (.ok (.treated .unchanged)) ∨
          (turn.effect b storage).result = .finished (.ok (.treated b.mode.treatment))

/-- A run over files that does not stop the program tells what happens at its turns. -/
theorem finish_tells (hf : b.formatter = Formatter.ofResult f) {status : Nat}
    (h : ((finish b paths).run t storage).result = .finished status) (output : Bytes) :
    Tells b f paths t storage ⟨.exit status, output,
      (messages ((finish b paths).run t storage).logs).flatMap line,
      ((finish b paths).run t storage).tree⟩ := by
  obtain ⟨hgoes, hstatus⟩ := finish_status h
  have htree : ((finish b paths).run t storage).tree =
      ((b.processAll paths).run t storage).tree := by
    rw [finish_run]
    split <;> rfl
  constructor
  case linked =>
    rw [htree]
    exact Batch.file_turns_linked b paths t
  case steps => exact Batch.file_turns_steps b paths t storage
  case all => exact Batch.file_turns_of_no_fatal hgoes
  case errors => rw [finish_messages hf]
  case last => exact Batch.last_told
  case status => rw [hstatus]
  case success =>
    intro hzero
    have hnone : b.turnFaults paths t storage = [] := by
      by_cases hfaults : b.turnFaults paths t storage = []
      · exact hfaults
      · rw [hstatus, if_neg hfaults] at hzero
        cases hzero
    refine ⟨Batch.file_turns_of_no_fatal hgoes (hnone ▸ List.not_mem_nil), fun turn hturn => ?_⟩
    exact Batch.file_turn_ok hf hturn (hgoes turn hturn)
      (List.filterMap_eq_nil_iff.1 hnone turn hturn)

/-- The exit status and the messages tell the truth, without a filter of the environment. Refused
arguments end the program with the status 2, whatever tools there are, and no file is touched. A run
without the option for more messages tells, in the order of the files, which files have to change
and what each of them fails with, each message in its line; the status is 0 if there is no such
fault, and 1 otherwise, and with the status 0 every file was in canonical form at its turn, or was
treated as the mode has it. What is shown of a message lacks control sequences, and is the message
where it has none. (A text that stops the formatter can stop the program.) -/
theorem messages_tell_the_truth (start : Start) (storage : Storage)
    (hfilter : start.filter = none) :
    (∀ e, Arguments.read start.arguments = .refused e → ∀ host,
      run { start with host } storage = ⟨.exit 2, [], e.message, start.tree⟩) ∧
    (∀ o, Arguments.read start.arguments = .run o → o.verbose = false →
      let b := batchOf start.host start.terminal o.dryRun o.choice
      ((run start storage).ending = .crash → ∃ turn ∈ b.fileTurns o.paths start.tree storage,
        ∃ text ∈ turn.before.text? turn.step.path, Query.format text = .crash) ∧
      ((run start storage).ending ≠ .crash →
        Tells b Query.format o.paths start.tree storage (run start storage))) ∧
    ∀ message, (∀ c ∈ message, Text.isKept c = true) →
      line message = "promfmt: ".toList ++ message ++ ['\n'] := by
  refine ⟨fun e he host => ?_, fun o ho hverbose => ?_, fun message => line_eq⟩
  · simp only [run, he]
  · intro b
    obtain ⟨logs, hwork, hlogs⟩ := work_run_batch start.host start.terminal o.dryRun o.choice
    -- What is logged before the first file is for debugging, so the lines are those of the files.
    have hrun : run start storage =
        ⟨ending ((finish b o.paths).run start.tree storage).result,
          ((finish b o.paths).run start.tree storage).output,
          (messages ((finish b o.paths).run start.tree storage).logs).flatMap line,
          ((finish b o.paths).run start.tree storage).tree⟩ := by
      have hwhole := hwork false o.paths start.tree storage
      obtain ⟨dryRun, choice, verbose, paths⟩ := o
      obtain rfl : verbose = false := hverbose
      simp only [run, ho, hfilter, hwhole, log_text_messages, messages_append,
        messages_quiet hlogs, List.nil_append]
      rfl
    rw [hrun]
    cases hresult : ((finish b o.paths).run start.tree storage).result with
    | crashed =>
        obtain ⟨turn, hturn, hcrash⟩ := turn_of_finish_crash hresult
        refine ⟨fun _ => ⟨turn, hturn, ?_⟩, fun h => absurd rfl h⟩
        exact Batch.text_of_file_turn_crash Formatter.query_eq hturn hcrash
    | finished status =>
        exact ⟨Ending.noConfusion, fun _ => finish_tells Formatter.query_eq hresult _⟩

/-- A file that has to change and a path that leads nowhere. -/
theorem missing_file_is_told :
    let q := Utf8.encode ['q']
    let m := Utf8.encode ['m']
    let host : Host := ⟨⟨none, none⟩, none⟩
    let t : Tree := ⟨[([q], .file (Utf8.encode "x  +  y".toList))]⟩
    let start : Start := ⟨[q, m], none, t, host, false⟩
    start.filter = none ∧
      Tells (batchOf host false false .auto) Query.format [q, m] t .roomy (run start) ∧
      (run start).ending = .exit 1 ∧
      (run start).errors = ("promfmt: Applying formatting to q\npromfmt: failed to open m: ".toList
        ++ IoError.notFound.message ++ ['\n']) := by
  intro q m host t start
  obtain ⟨-, hrun, -⟩ := messages_tell_the_truth start .roomy rfl
  have hread : Arguments.read start.arguments = .run ⟨false, .auto, false, [q, m]⟩ := by
    decide +kernel
  exact ⟨rfl, (hrun _ hread rfl).2 (by decide +kernel), by decide +kernel, by decide +kernel⟩

/-- A control sequence in a path is not shown. -/
theorem control_sequence_is_not_shown :
    let path := Utf8.encode "\x1b[1mq".toList
    let t : Tree := ⟨[([path], .file (Utf8.encode "foo  +  bar".toList))]⟩
    let start : Start := ⟨[path], none, t, ⟨⟨none, none⟩, none⟩, false⟩
    (run start).ending = .exit 0 ∧
      (run start).tree = ⟨[([path], .file (Utf8.encode "foo + bar\n".toList))]⟩ ∧
      (run start).errors = "promfmt: Applying formatting to q\n".toList ∧
      (run start).errors ≠
        "promfmt: Applying formatting to ".toList ++ Path.toText path ++ ['\n'] := by
  decide +kernel

end Program

end QueryTidy
