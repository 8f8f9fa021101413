import QueryTidy.Program
import QueryTidy.Proofs.Run.Verdict

/-!
# Actions that leave the files alone

`Action.KeepsTree` says that an action ends, or crashes, with the tree that it started from,
whatever the storage. The property is closed under chaining, so a whole run has it as soon as its
parts do: everything that shows changes has it, and so has everything that comes before the
treatment of the first file.
-/

namespace QueryTidy

namespace Action

/-- The action leaves every tree as it is, whether it finishes or crashes. -/
def KeepsTree {α : Type} (action : Action α) : Prop :=
  ∀ t storage, (action.run t storage).tree = t

variable {α β : Type}

/-- Yielding a value leaves the tree as it is. -/
theorem keeps_tree_pure (a : α) : (pure a : Action α).KeepsTree := fun _ _ => rfl

/-- Logging leaves the tree as it is. -/
theorem keeps_tree_log (level : LogLevel) (area : LogArea) (text : Text) :
    (log level area text).KeepsTree := fun _ _ => rfl

/-- Output leaves the tree as it is. -/
theorem keeps_tree_emit (bytes : Bytes) : (emit bytes).KeepsTree := fun _ _ => rfl

/-- Looking at the tree leaves it as it is. -/
theorem keeps_tree_get : getTree.KeepsTree := fun _ _ => rfl

/-- A crash leaves the tree as it is. -/
theorem keeps_tree_crash : (crash : Action α).KeepsTree := fun _ _ => rfl

/-- Two actions one after the other leave the tree as it is if each of them does. -/
theorem KeepsTree.bind {first : Action α} {next : α → Action β} (hfirst : first.KeepsTree)
    (hnext : ∀ a, (next a).KeepsTree) : (first >>= next).KeepsTree := by
  intro t storage
  show (Action.bind first next storage t).tree = t
  unfold Action.bind
  cases hresult : (first.run t storage).result with
  | crashed =>
      simp only [hresult]
      exact hfirst t storage
  | finished a =>
      simp only [hresult]
      rw [hfirst t storage]
      exact hnext a t storage

end Action

open QueryTidy.Action

/-- A formatter that leaves the files alone. -/
def Formatter.KeepsTree (formatter : Formatter) : Prop :=
  ∀ text, (formatter text).KeepsTree

/-- A formatter that depends on the text alone touches no file. -/
theorem Formatter.of_result_keeps_tree (f : Text → FormatResult) :
    (Formatter.ofResult f).KeepsTree := by
  intro text
  unfold Formatter.ofResult
  cases f text with
  | formatted shown => exact keeps_tree_pure _
  | rejected message => exact keeps_tree_pure _
  | crash => exact keeps_tree_crash

/-- The formatter of queries touches no file. -/
theorem Formatter.query_keeps_tree : Formatter.query.KeepsTree :=
  Formatter.of_result_keeps_tree Query.format

/-- Asking what the new content is touches no file. -/
theorem new_content_keeps_tree {formatter : Formatter} (h : formatter.KeepsTree) (path : Path)
    (data : Bytes) : (newContent formatter path data).KeepsTree := by
  unfold newContent
  cases Utf8.decode data with
  | error e => exact keeps_tree_pure _
  | ok text =>
      refine (h text).bind fun formatted => ?_
      cases formatted <;> exact keeps_tree_pure _

/-- Handing content over to a tool touches no file. -/
theorem Handover.perform_keeps_tree (host : Host) (command : Command) (content : Bytes) :
    (Handover.perform host command content).KeepsTree := by
  unfold Handover.perform
  cases host.pipeFault with
  | some e => exact keeps_tree_pure _
  | none =>
      refine (keeps_tree_log _ _ _).bind fun _ => ?_
      cases host.tools.launch command with
      | error e => exact keeps_tree_pure _
      | ok behavior =>
          exact keeps_tree_get.bind fun _ => (keeps_tree_emit _).bind fun _ => keeps_tree_pure _

namespace Batch

variable {b : Batch}

/-- Reading a file leaves it as it is. -/
theorem load_keeps_tree (path : Path) : (load path).KeepsTree := by
  refine keeps_tree_get.bind fun tree => ?_
  cases tree.read path <;> exact keeps_tree_pure _

/-- Showing changes leaves the files as they are, whatever becomes of the tool. -/
theorem preview_keeps_tree (path : Path) (content : Content) :
    (b.preview path content).KeepsTree := by
  unfold preview
  cases b.settings.comparer with
  | none => exact keeps_tree_pure _
  | some comparer =>
      refine (keeps_tree_log _ _ _).bind fun _ => ?_
      refine (Handover.perform_keeps_tree _ _ _).bind fun result => ?_
      cases result <;> exact keeps_tree_pure _

/-- A file that has to change is left as it is when changes are only shown. -/
theorem treat_keeps_tree (hmode : b.mode = .preview) (path : Path) (content : Content) :
    (b.treat path content).KeepsTree := by
  unfold treat
  rw [hmode]
  refine (keeps_tree_log _ _ _).bind fun _ => ?_
  refine (preview_keeps_tree path content).bind fun result => ?_
  cases result <;> exact keeps_tree_pure _

/-- Every file is left as it is when changes are only shown. -/
theorem process_file_keeps_tree (hmode : b.mode = .preview) (hformatter : b.formatter.KeepsTree)
    (path : Path) : (b.processFile path).KeepsTree := by
  unfold processFile
  refine (load_keeps_tree path).bind fun loaded => ?_
  cases loaded with
  | error f => exact keeps_tree_pure _
  | ok old =>
      refine (new_content_keeps_tree hformatter path old).bind fun formatted => ?_
      cases formatted with
      | error f => exact keeps_tree_pure _
      | ok content =>
          by_cases hchanges : content.changes old
          · simp only [hchanges, ↓reduceIte]
            exact treat_keeps_tree hmode path content
          · simp only [hchanges]
            exact (keeps_tree_log _ _ _).bind fun _ => keeps_tree_pure _

/-- What one file keeps, a list of files keeps, whether or not a fault ends it early. -/
theorem process_all_keeps_tree (hmode : b.mode = .preview) (hformatter : b.formatter.KeepsTree)
    (paths : List Path) : (b.processAll paths).KeepsTree := by
  induction paths with
  | nil => exact keeps_tree_pure _
  | cons path rest ih =>
      refine (process_file_keeps_tree hmode hformatter path).bind fun result => ?_
      cases result with
      | error f =>
          by_cases hfatal : f.endsRun
          · simp only [hfatal]
            exact keeps_tree_pure _
          · simp only [hfatal]
            refine (keeps_tree_log _ _ _).bind fun _ => ih.bind fun results => ?_
            cases results <;> exact keeps_tree_pure _
      | ok treatment =>
          refine ih.bind fun results => ?_
          cases results <;> exact keeps_tree_pure _

/-- A batch that only shows changes leaves the files as they are. -/
theorem process_keeps_tree (hmode : b.mode = .preview) (hformatter : b.formatter.KeepsTree)
    (paths : List Path) : (b.process paths).KeepsTree := by
  refine (process_all_keeps_tree hmode hformatter paths).bind fun results => ?_
  cases results <;> exact keeps_tree_pure _

end Batch

/-- Looking for the version control system touches no file. -/
theorem Availability.probe_git_keeps_tree (tools : Toolset) :
    (Availability.probeGit tools).KeepsTree := by
  unfold Availability.probeGit
  by_cases hgit : tools.has ToolBehavior.gitName
  · simp only [hgit]
    exact (keeps_tree_log _ _ _).bind fun _ => keeps_tree_pure _
  · simp only [hgit]
    exact keeps_tree_pure _

/-- Looking for the tools touches no file. -/
theorem Availability.probe_keeps_tree (tools : Toolset) : (Availability.probe tools).KeepsTree :=
  (probe_git_keeps_tree tools).bind fun _ => (keeps_tree_log _ _ _).bind fun _ => keeps_tree_pure _

/-- Settling which tool is used touches no file. -/
theorem PreviewSettings.settle_keeps_tree (choice : ComparerChoice) (available : Availability)
    (color : Bool) : (PreviewSettings.settle choice available color).KeepsTree :=
  (keeps_tree_log _ _ _).bind fun _ => keeps_tree_pure _

end QueryTidy
