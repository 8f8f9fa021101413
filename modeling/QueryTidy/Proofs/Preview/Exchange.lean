import QueryTidy.Preview.Exchange
import QueryTidy.Proofs.Run.Verdict

/-!
# Exchanges end and lose nothing

Two invariants carry an exchange with a tool, and every step of every party keeps them. What each
party knows fits together (`Exchange.Coherent`), and as long as the tool may still read, what it has
read, what is in the pipe and what is left to write make up the content (`Exchange.Flow`). From the
first it follows that the program or the writer can go on once the tool is over
(`Exchange.goes_on_of_over`), and as each of their steps is one of a bounded number
(`Exchange.Step.remaining_lt`), every exchange ends. From the second it follows that a tool which
reads to the end has read the whole content.
-/

namespace QueryTidy.Exchange

variable {x : Exchange} {party : Party} {schedule : List Party} {s u v : State}

/-! ## What the parties know -/

/-- The tool for which the wait ended so. -/
def Child.ofEnding : Except IoError ExitStatus → Child
  | .ok status => .exited status
  | .error e => .notStarted e

/-- What the parties know fits together. -/
structure Coherent (x : Exchange) (s : State) : Prop where
  absent : s.child = .absent ↔ s.stage = .starting
  started : s.child = .running ∨ (∃ status, s.child = .exited status) → x.launchFault = none
  notStarted : ∀ e, s.child = .notStarted e → x.launchFault = some e
  joining : ∀ ending, s.stage = .joining ending → s.child = .ofEnding ending
  returned : ∀ result, s.stage = .returned result → s.writer = .ended ∧
    ∃ ending, s.child = .ofEnding ending ∧ result = conclusion ending

/-- What the parties know fits together at the start. -/
theorem coherent_start (x : Exchange) : x.Coherent x.start := by
  refine ⟨by simp [start], ?_, ?_, ?_, ?_⟩ <;> simp [start]

/-- Every step keeps what the parties know together. -/
theorem Coherent.step (h : x.Coherent s) (hstep : x.Step party s v) : x.Coherent v := by
  obtain ⟨habsent, hstarted, hnotStarted, hjoining, hreturned⟩ := h
  cases hstep with
  | write n hwriter =>
      refine ⟨habsent, hstarted, hnotStarted, hjoining, fun result hresult => ?_⟩
      obtain ⟨hended, -⟩ := hreturned result hresult
      rw [hwriter] at hended
      cases hended
  | finish hwriter =>
      exact ⟨habsent, hstarted, hnotStarted, hjoining,
        fun result hresult => ⟨rfl, (hreturned result hresult).2⟩⟩
  | giveUp hwriter =>
      exact ⟨habsent, hstarted, hnotStarted, hjoining,
        fun result hresult => ⟨rfl, (hreturned result hresult).2⟩⟩
  | launch hstage hfault =>
      exact ⟨by simp, fun _ => hfault, by simp, by simp, by simp⟩
  | launchFails hstage hfault =>
      refine ⟨by simp, by simp, fun e he => ?_, by simp, by simp⟩
      cases he
      exact hfault
  | release hstage =>
      rw [hstage] at habsent
      exact ⟨by simpa using habsent, hstarted, hnotStarted, by simp, by simp⟩
  | reap hstage hchild =>
      refine ⟨by simp [hchild], hstarted, hnotStarted, fun ending hending => ?_, by simp⟩
      cases hending
      exact hchild
  | skip hstage hchild =>
      refine ⟨by simp [hchild], hstarted, hnotStarted, fun ending hending => ?_, by simp⟩
      cases hending
      exact hchild
  | @join _ ending hstage hwriter =>
      have hchild := hjoining ending hstage
      refine ⟨?_, hstarted, hnotStarted, by simp, fun result hresult => ?_⟩
      · rw [hstage] at habsent
        simpa using habsent
      · cases hresult
        exact ⟨hwriter, ending, hchild, rfl⟩
  | read n hchild =>
      exact ⟨habsent, hstarted, hnotStarted, hjoining, hreturned⟩
  | readEnd hchild =>
      exact ⟨habsent, hstarted, hnotStarted, hjoining, hreturned⟩
  | exit status hchild =>
      -- The program waits at most for a tool that runs.
      refine ⟨?_, fun _ => hstarted (.inl hchild), by simp, fun ending hending => ?_,
        fun result hresult => ?_⟩
      · rw [hchild] at habsent
        simpa using habsent
      · have hother := hjoining ending hending
        rw [hchild] at hother
        cases ending <;> cases hother
      · obtain ⟨-, ending, hother, -⟩ := hreturned result hresult
        rw [hchild] at hother
        cases ending <;> cases hother

/-! ## Where the bytes are -/

/-- No byte of the content is lost as long as the tool may still read. -/
structure Flow (x : Exchange) (s : State) : Prop where
  whole : s.child = .absent ∨ s.child = .running →
    s.received ++ s.pipe ++ s.writer.left = x.content
  received_prefix : s.received <+: x.content
  sawEnd : s.sawEnd = true → s.received = x.content

/-- At the start the whole content is left to write. -/
theorem flow_start (x : Exchange) : x.Flow x.start :=
  ⟨fun _ => by simp [start, Writer.left], by simp [start], by simp [start]⟩

/-- Every step loses nothing as long as the tool may still read. -/
theorem Flow.step (h : x.Flow s) (hcoherent : x.Coherent s) (hstep : x.Step party s v) :
    x.Flow v := by
  obtain ⟨hwhole, hreceived, hend⟩ := h
  cases hstep with
  | @write _ left n hwriter hreadable hpos hleft hroom =>
      refine ⟨fun hchild => ?_, hreceived, hend⟩
      have hold := hwhole hchild
      rw [hwriter, Writer.left] at hold
      simp only [Writer.left]
      rw [← hold, List.append_assoc, List.append_assoc, List.append_assoc, List.take_append_drop]
  | finish hwriter =>
      refine ⟨fun hchild => ?_, hreceived, hend⟩
      have hold := hwhole hchild
      rw [hwriter] at hold
      exact hold
  | giveUp hwriter hleft hreadable =>
      -- The program starts the tool before it closes its read end.
      refine ⟨fun hchild => absurd ?_ hreadable, hreceived, hend⟩
      rcases hchild with habsent | hrunning
      · have hstage := hcoherent.absent.1 habsent
        simp [State.isReadable, hstage, Stage.holdsReadEnd]
      · have hrunning : s.child = .running := hrunning
        simp [State.isReadable, hrunning]
  | launch hstage =>
      exact ⟨fun _ => hwhole (.inl (hcoherent.absent.2 hstage)), hreceived, hend⟩
  | launchFails hstage =>
      exact ⟨by simp, hreceived, hend⟩
  | release => exact ⟨hwhole, hreceived, hend⟩
  | reap => exact ⟨hwhole, hreceived, hend⟩
  | skip => exact ⟨hwhole, hreceived, hend⟩
  | join => exact ⟨hwhole, hreceived, hend⟩
  | read n hchild hn =>
      have hnew : (s.received ++ s.pipe.take n) ++ s.pipe.drop n ++ s.writer.left = x.content := by
        rw [List.append_assoc s.received, List.take_append_drop]
        exact hwhole (.inr hchild)
      refine ⟨fun _ => hnew, ?_, fun hsaw => ?_⟩
      · rw [List.append_assoc] at hnew
        exact ⟨_, hnew⟩
      · -- Nothing is in the pipe any more.
        have hold := hwhole (.inr hchild)
        rw [hend hsaw, List.append_assoc, List.append_right_eq_self, List.append_eq_nil_iff] at hold
        simp [hold.1, hend hsaw]
  | readEnd hchild hpipe hwriter =>
      refine ⟨hwhole, hreceived, fun _ => ?_⟩
      have hold := hwhole (.inr hchild)
      simpa [hpipe, hwriter, Writer.left] using hold
  | exit status hchild => exact ⟨by simp, hreceived, hend⟩

/-- Both invariants hold at every moment of an exchange. -/
theorem Run.invariants (h : x.Run schedule s v) (hcoherent : x.Coherent s) (hflow : x.Flow s) :
    x.Coherent v ∧ x.Flow v := by
  induction h with
  | nil s => exact ⟨hcoherent, hflow⟩
  | cons hstep _ ih => exact ih (hcoherent.step hstep) (hflow.step hcoherent hstep)

/-! ## Going on -/

/-- A step of the program or the writer is one of those that remain. -/
theorem Step.remaining_lt (h : x.Step party s v) (hparty : party ≠ .tool) :
    v.remaining < s.remaining := by
  cases h with
  | write n hwriter _ hpos hleft =>
      simp only [State.remaining, hwriter, Writer.remaining, List.length_drop]
      omega
  | finish hwriter => simp [State.remaining, hwriter, Writer.remaining]
  | giveUp hwriter => simp [State.remaining, hwriter, Writer.remaining]
  | launch hstage => simp [State.remaining, hstage, Stage.remaining]
  | launchFails hstage => simp [State.remaining, hstage, Stage.remaining]
  | release hstage => simp [State.remaining, hstage, Stage.remaining]
  | reap hstage => simp [State.remaining, hstage, Stage.remaining]
  | skip hstage => simp [State.remaining, hstage, Stage.remaining]
  | join hstage => simp [State.remaining, hstage, Stage.remaining]
  | read => exact absurd rfl hparty
  | readEnd => exact absurd rfl hparty
  | exit => exact absurd rfl hparty

/-- A tool that is over takes no step, and it stays over. -/
theorem Step.over (h : x.Step party s v) (hover : s.child.isOver = true)
    (hstage : s.stage ≠ .starting) :
    party ≠ .tool ∧ v.child.isOver = true ∧ v.stage ≠ .starting := by
  cases h with
  | launch hstart => exact absurd hstart hstage
  | launchFails hstart => exact absurd hstart hstage
  | read n hchild => simp [hchild, Child.isOver] at hover
  | readEnd hchild => simp [hchild, Child.isOver] at hover
  | exit status hchild => simp [hchild, Child.isOver] at hover
  | _ => simp_all

/-- Once the tool is over, every schedule is one of the program and the writer, and it is no longer
than the number of steps that remain. -/
theorem Run.length_le (h : x.Run schedule s v) (hover : s.child.isOver = true)
    (hstage : s.stage ≠ .starting) :
    .tool ∉ schedule ∧ schedule.length ≤ s.remaining ∧ v.child.isOver = true := by
  induction h with
  | nil s => exact ⟨List.not_mem_nil, Nat.zero_le _, hover⟩
  | cons hstep _ ih =>
      obtain ⟨hparty, hover', hstage'⟩ := hstep.over hover hstage
      obtain ⟨htool, hlength, hlast⟩ := ih hover' hstage'
      have hless := hstep.remaining_lt hparty
      refine ⟨?_, ?_, hlast⟩
      · simp [Ne.symm hparty, htool]
      · rw [List.length_cons]
        omega

/-- A tool that is over was started, or it could not be. -/
theorem Coherent.stage_of_over (h : x.Coherent s) (hover : s.child.isOver = true) :
    s.stage ≠ .starting := by
  intro hstage
  rw [h.absent.2 hstage] at hover
  cases hover

/-- Once the tool is over, the program or the writer can go on until the program returns. -/
theorem goes_on_of_over (h : x.Coherent s) (hover : s.child.isOver = true)
    (hreturned : s.stage.isReturned = false) :
    (∃ v, x.Step .program s v) ∨ ∃ v, x.Step .writer s v := by
  have hstarted := h.stage_of_over hover
  cases hstage : s.stage with
  | starting => exact absurd hstage hstarted
  | releasing => exact .inl ⟨_, .release hstage⟩
  | waiting =>
      cases hchild : s.child with
      | absent => simp [hchild, Child.isOver] at hover
      | running => simp [hchild, Child.isOver] at hover
      | exited status => exact .inl ⟨_, .reap hstage hchild⟩
      | notStarted e => exact .inl ⟨_, .skip hstage hchild⟩
  | joining ending =>
      -- The writer is waited for. If it has more to write, nobody can read it any more.
      cases hwriter : s.writer with
      | ended => exact .inl ⟨_, .join hstage hwriter⟩
      | writing left =>
          by_cases hleft : left = []
          · exact .inr ⟨_, .finish (hleft ▸ hwriter)⟩
          · refine .inr ⟨_, .giveUp hwriter hleft ?_⟩
            have hrunning : s.child ≠ .running := by
              intro hchild
              simp [hchild, Child.isOver] at hover
            simp [State.isReadable, hstage, Stage.holdsReadEnd, hrunning]
  | returned result => simp [hstage, Stage.isReturned] at hreturned

/-- A tool that runs and finds the pipe empty is told that this is the end, or the writer can go
on. -/
theorem fed_of_running (hchild : s.child = .running) (hpipe : s.pipe = []) :
    (∃ v, x.Step .tool s v ∧ v.sawEnd = true) ∨ ∃ v, x.Step .writer s v := by
  cases hwriter : s.writer with
  | ended => exact .inl ⟨_, .readEnd hchild hpipe hwriter, rfl⟩
  | writing left =>
      by_cases hleft : left = []
      · exact .inr ⟨_, .finish (hleft ▸ hwriter)⟩
      · refine .inr ⟨_, .write 1 hwriter ?_ Nat.one_pos ?_ ?_⟩
        · simp [State.isReadable, hchild]
        · exact List.length_pos_iff.2 hleft
        · rw [hpipe]
          exact x.capacity_pos

/-- Someone can go on as long as the program has not returned. -/
theorem goes_on (h : x.Coherent s) (hreturned : s.stage.isReturned = false) :
    ∃ party v, x.Step party s v := by
  cases hchild : s.child with
  | absent =>
      have hstage := h.absent.1 hchild
      cases hfault : x.launchFault with
      | none => exact ⟨_, _, .launch hstage hfault⟩
      | some e => exact ⟨_, _, .launchFails hstage hfault⟩
  | running => exact ⟨_, _, .exit (.code 0) hchild⟩
  | exited status =>
      rcases goes_on_of_over h (by rw [hchild]; rfl) hreturned with ⟨v, hv⟩ | ⟨v, hv⟩
      · exact ⟨_, v, hv⟩
      · exact ⟨_, v, hv⟩
  | notStarted e =>
      rcases goes_on_of_over h (by rw [hchild]; rfl) hreturned with ⟨v, hv⟩ | ⟨v, hv⟩
      · exact ⟨_, v, hv⟩
      · exact ⟨_, v, hv⟩

/-! ## What an exchange comes to -/

/-- Handing content over to a tool has the result of any exchange of the command: that of the launch
or, if the tool exits as it does with the whole content before it, that of its exit. -/
theorem perform_of_returned (h : x.Coherent s) {result : Except PreviewFault Unit}
    (hresult : s.stage = .returned result) {host : Host} {command : Command}
    {t : Tree} (hpipe : host.pipeFault = none)
    (hlaunch : x.launchFault = launchFaultOf host.tools command)
    (hexit : ∀ behavior status, host.tools.launch command = .ok behavior →
      s.child = .exited status → status = (behavior.run command t x.content).2) :
    ((Handover.perform host command x.content).run t).result = .finished result := by
  obtain ⟨-, ending, hchild, rfl⟩ := h.returned result hresult
  rw [Handover.perform_run, Handover.result, hpipe]
  cases hcommand : host.tools.launch command with
  | error e =>
      rw [launchFaultOf, hcommand] at hlaunch
      cases ending with
      | ok status =>
          have hnone := h.started (.inr ⟨status, hchild⟩)
          rw [hlaunch] at hnone
          cases hnone
      | error e' =>
          have hsome := h.notStarted e' hchild
          rw [hlaunch] at hsome
          cases hsome
          rfl
  | ok behavior =>
      rw [launchFaultOf, hcommand] at hlaunch
      cases ending with
      | ok status => rw [hexit behavior status hcommand hchild, conclusion]
      | error e =>
          have hsome := h.notStarted e hchild
          rw [hlaunch] at hsome
          cases hsome

/-- An exchange neither hangs nor loses bytes, whatever the content and the room in the pipe, and in
every schedule. At each moment what the tool has read is a beginning of the content, and it is told
that nothing comes any more only when it has read the whole. As long as the program has not
returned, someone can go on; once the tool has exited or could not be started, the program or the
writer can, they have only a bounded number of steps before them, and when nobody can go on any more
the program has returned. A tool that runs and finds the pipe empty is told that this is the end, or
the writer can go on. When the program returns, the writer has ended, and the result is that of
`Handover.perform`, for any command that is launched as the exchange says and any tool that exits as
it does with the whole content before it. -/
theorem exchange_ends_and_loses_nothing (h : x.Run schedule x.start s) :
    (s.received <+: x.content ∧ (s.sawEnd = true → s.received = x.content)) ∧
      (s.stage.isReturned = false → ∃ party v, x.Step party s v) ∧
      (s.child.isOver = true →
        (s.stage.isReturned = false → (∃ v, x.Step .program s v) ∨ ∃ v, x.Step .writer s v) ∧
        ∀ later v, x.Run later s v → .tool ∉ later ∧ later.length ≤ s.remaining ∧
          ((∀ party w, ¬x.Step party v w) → v.stage.isReturned = true)) ∧
      (s.child = .running → s.pipe = [] →
        (∃ v, x.Step .tool s v ∧ v.sawEnd = true) ∨ ∃ v, x.Step .writer s v) ∧
      ∀ result, s.stage = .returned result → s.writer = .ended ∧
        ∀ (host : Host) (command : Command) (t : Tree), host.pipeFault = none →
          x.launchFault = launchFaultOf host.tools command →
          (∀ behavior status, host.tools.launch command = .ok behavior →
            s.child = .exited status → status = (behavior.run command t x.content).2) →
          ((Handover.perform host command x.content).run t).result = .finished result := by
  obtain ⟨hcoherent, hflow⟩ := h.invariants (coherent_start x) (flow_start x)
  refine ⟨⟨hflow.received_prefix, hflow.sawEnd⟩, goes_on hcoherent, fun hover => ⟨?_, ?_⟩,
    fed_of_running, fun result hresult => ⟨(hcoherent.returned result hresult).1, ?_⟩⟩
  · exact goes_on_of_over hcoherent hover
  · intro later v hlater
    obtain ⟨htool, hlength, -⟩ := hlater.length_le hover (hcoherent.stage_of_over hover)
    refine ⟨htool, hlength, fun hstuck => ?_⟩
    obtain ⟨hcoherent', -⟩ := hlater.invariants hcoherent hflow
    cases hreturned : v.stage.isReturned with
    | true => rfl
    | false =>
        obtain ⟨party, w, hstep⟩ := goes_on hcoherent' hreturned
        exact absurd hstep (hstuck party w)
  · intro host command t hpipe hlaunch hexit
    exact perform_of_returned hcoherent hresult hpipe hlaunch hexit

/-- A tool that reads one byte of three and exits, while the pipe holds the second and the writer
still has the third: the program and the writer have at most four steps before them. -/
theorem tool_exits_in_the_middle :
    let x : Exchange := ⟨[1, 2, 3], 1, by decide, none⟩
    ∃ s : State, (∃ schedule, x.Run schedule x.start s) ∧ s.child = .exited (.code 1) ∧
      s.writer = .writing [3] ∧ s.pipe = [2] ∧ s.received <+: x.content ∧
      ((∃ v, x.Step .program s v) ∨ ∃ v, x.Step .writer s v) ∧
      ∀ later v, x.Run later s v → later.length ≤ 4 ∧
        ((∀ party w, ¬x.Step party v w) → v.stage.isReturned = true) := by
  intro x
  have hrun : ∃ schedule, x.Run schedule x.start
      ⟨.writing [3], [2], .exited (.code 1), [1], false, .waiting⟩ := by
    refine ⟨_, .cons (.launch rfl rfl) (.cons (.write 1 rfl rfl ?_ ?_ ?_) (.cons (.read 1 rfl ?_)
      (.cons (.release rfl) (.cons (.write 1 rfl rfl ?_ ?_ ?_) (.cons (.exit (.code 1) rfl)
        (.nil _))))))⟩ <;> decide
  obtain ⟨schedule, hschedule⟩ := hrun
  obtain ⟨⟨hreceived, -⟩, -, hover, -, -⟩ := exchange_ends_and_loses_nothing hschedule
  obtain ⟨hgoes, hends⟩ := hover rfl
  refine ⟨_, ⟨schedule, hschedule⟩, rfl, rfl, rfl, hreceived, hgoes rfl, fun later v hlater => ?_⟩
  obtain ⟨-, hlength, hlast⟩ := hends later v hlater
  exact ⟨hlength, hlast⟩

end QueryTidy.Exchange
