import QueryTidy.Program
import QueryTidy.Proofs.CommandLine.Verbose

/-!
# Logging

What a run does is settled before any message is shown: the log filter and the option for more
messages reach nothing but the text on the error stream. Two runs that differ in the log filter only
do the same (`Program.deeds_of_filter`), and so do two of which one asks for more messages
(`Program.deeds_louder`). Where the option stands among the arguments does not matter either, by
`Arguments.read_insert`.
-/

namespace QueryTidy

/-- What a run does apart from its messages: how it ends, what it prints on the standard output, and
the files that it leaves. -/
def Outcome.deeds (o : Outcome) : Ending × Bytes × Tree :=
  (o.ending, o.output, o.tree)

namespace Program

/-- What is done for a request, whatever is logged. -/
def serve (host : Host) (terminal : Bool) (t : Tree) (storage : Storage) :
    Request → Ending × Bytes × Tree
  | .help detailed =>
      (.exit 0, Utf8.encode (if detailed then Usage.details else Usage.summary), t)
  | .version => (.exit 0, Utf8.encode Usage.version, t)
  | .refused _ => (.exit 2, [], t)
  | .run o =>
      let effect := (work host terminal o).run t storage
      (ending effect.result, effect.output, effect.tree)

/-- What a run does depends on its arguments by what they ask for, and not on the log filter. -/
theorem deeds_of_filter (start : Start) (storage : Storage) :
    (run start storage).deeds =
      serve start.host start.terminal start.tree storage (Arguments.read start.arguments) := by
  unfold run
  cases Arguments.read start.arguments <;> rfl

/-- What is done for a request does not depend on whether more messages are asked for. -/
theorem deeds_louder (host : Host) (terminal : Bool) (t : Tree) (storage : Storage)
    (request : Request) :
    serve host terminal t storage request.louder = serve host terminal t storage request := by
  cases request <;> rfl

/-- Logging never influences the work. For accepted arguments of which none before the separator
asks for more messages, the exit status, the standard output and the files that are left are the
same whatever the log filter of the environment is, and they are the same, again with any filter, if
the option for more messages is put somewhere before the separator, as an argument of its own that
does not come between the option for a choice and its word. -/
theorem logging_changes_nothing {before after : List Bytes}
    (hquiet : ∀ argument ∈ (before ++ after).takeWhile (· ≠ Arguments.separator),
      Arguments.asksVerbose (Argument.ofBytes argument) = false)
    (hseparator : Arguments.separator ∉ before)
    (hdiffer : before.getLast? ≠ some Arguments.differFlag)
    (haccepted : ∀ e, Arguments.read (before ++ after) ≠ .refused e) (t : Tree) (host : Host)
    (terminal : Bool) (storage : Storage) (filter filter' : Option Bytes) :
    (run ⟨before ++ after, filter', t, host, terminal⟩ storage).deeds =
        (run ⟨before ++ after, filter, t, host, terminal⟩ storage).deeds ∧
      (run ⟨before ++ Arguments.verboseFlag :: after, filter', t, host, terminal⟩ storage).deeds =
        (run ⟨before ++ after, filter, t, host, terminal⟩ storage).deeds := by
  have hread := Arguments.read_insert hquiet hseparator hdiffer haccepted
  constructor
  · rw [deeds_of_filter, deeds_of_filter]
  · rw [deeds_of_filter, deeds_of_filter]
    simp only [hread, deeds_louder]

/-- A run that shows the changes of a file, and one that shows what it does as well: the messages
differ, and nothing else does. -/
theorem more_messages_about_the_same_work :
    let words := fun (ws : List String) => ws.map fun w => Utf8.encode w.toList
    let before := words ["--dry-run"]
    let after := words ["--differ", "diff", "q", "--", "-v"]
    let t : Tree := ⟨[([Utf8.encode ['q']], .file (Utf8.encode "x  +  y".toList))]⟩
    let host : Host := ⟨⟨some (.executable (.echoing [] (.code 0) (.code 1))), none⟩, none⟩
    let quiet := run ⟨before ++ after, some (Utf8.encode "off".toList), t, host, false⟩
    let loud := run ⟨before ++ Arguments.verboseFlag :: after, none, t, host, false⟩
    (∀ argument ∈ (before ++ after).takeWhile (· ≠ Arguments.separator),
      Arguments.asksVerbose (Argument.ofBytes argument) = false) ∧
      Arguments.separator ∉ before ∧ before.getLast? ≠ some Arguments.differFlag ∧
      (∀ e, Arguments.read (before ++ after) ≠ .refused e) ∧
      loud.deeds = quiet.deeds ∧ quiet.output ≠ [] ∧ loud.errors ≠ quiet.errors := by
  intro words before after t host quiet loud
  have hquiet : ∀ argument ∈ (before ++ after).takeWhile (· ≠ Arguments.separator),
      Arguments.asksVerbose (Argument.ofBytes argument) = false := by decide +kernel
  have hread : Arguments.read (before ++ after) =
      .run ⟨true, .diff, false, [Utf8.encode ['q'], Utf8.encode "-v".toList]⟩ := by decide +kernel
  have haccepted : ∀ e, Arguments.read (before ++ after) ≠ .refused e := by
    intro e h
    rw [hread] at h
    cases h
  have hseparator : Arguments.separator ∉ before := by decide +kernel
  have hdiffer : before.getLast? ≠ some Arguments.differFlag := by decide +kernel
  refine ⟨hquiet, hseparator, hdiffer, haccepted, ?_, by decide +kernel, by decide +kernel⟩
  exact (logging_changes_nothing hquiet hseparator hdiffer haccepted t host false .roomy _
    none).2

end Program

end QueryTidy
