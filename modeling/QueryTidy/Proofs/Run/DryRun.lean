import QueryTidy.Proofs.CommandLine.Given
import QueryTidy.Proofs.Run.Frame

/-!
# Dry runs

A run that is asked to show changes only leaves every file as it is. There are two ways to leave the
files alone: the command line is refused or answered without a run, and then no action starts, or
the run has its options, and then the batch is in the mode that shows changes
(`Batch.process_keeps_tree`).
-/

namespace QueryTidy.Program

open QueryTidy.Action

/-- The work of a run that only shows changes touches no file. -/
theorem work_keeps_tree (host : Host) (terminal : Bool) {o : Options} (h : o.dryRun = true) :
    (work host terminal o).KeepsTree := by
  refine (Availability.probe_keeps_tree _).bind fun available => ?_
  refine (PreviewSettings.settle_keeps_tree _ _ _).bind fun settings => ?_
  have hmode : RunMode.ofPreview o.dryRun = .preview := by simp [RunMode.ofPreview, h]
  refine (Batch.process_keeps_tree hmode Formatter.query_keeps_tree o.paths).bind fun result => ?_
  cases result with
  | ok report => exact keeps_tree_pure _
  | error fault => exact (keeps_tree_log _ _ _).bind fun _ => keeps_tree_pure _

/-- A run that is asked, anywhere before the separator, to show changes only ends with the files it
started from, whatever else it is asked, whatever tools it finds and however it ends. -/
theorem dry_run_changes_no_file (start : Start) (storage : Storage)
    (h : Arguments.AsksDryRun start.arguments) : (run start storage).tree = start.tree := by
  unfold run
  cases hread : Arguments.read start.arguments with
  | help detailed => rfl
  | version => rfl
  | refused e => rfl
  | run options =>
      exact work_keeps_tree start.host start.terminal (Arguments.read_dry_run h hread) start.tree
        storage

/-- The bytes of words. -/
def encoded (words : List String) : List Bytes :=
  words.map fun word => Utf8.encode word.toList

/-- The option may come late, between a choice of a tool and paths after the separator. -/
theorem late_dry_run_changes_no_file :
    Arguments.AsksDryRun (encoded ["q", "--differ", "diff", "--dry-run", "-v", "--", "r"]) ∧
    (run
      { arguments := encoded ["q", "--differ", "diff", "--dry-run", "-v", "--", "r"]
        filter := none
        tree := ⟨[([Utf8.encode ['q']], .file (Utf8.encode "foo  +  bar".toList))]⟩
        host := ⟨⟨some (.executable (.echoing [] (.code 0) (.code 1))), none⟩, none⟩
        terminal := true }).tree =
      ⟨[([Utf8.encode ['q']], .file (Utf8.encode "foo  +  bar".toList))]⟩ := by
  have hasks : Arguments.AsksDryRun
      (encoded ["q", "--differ", "diff", "--dry-run", "-v", "--", "r"]) :=
    ⟨encoded ["q", "--differ", "diff"], encoded ["-v", "--", "r"], rfl, by decide⟩
  exact ⟨hasks, dry_run_changes_no_file _ _ hasks⟩

end QueryTidy.Program
