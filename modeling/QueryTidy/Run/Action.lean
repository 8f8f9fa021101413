import QueryTidy.Files.Tree
import QueryTidy.Run.Log

/-!
# Actions on a file tree

An action starts from a file tree, with a storage that takes what is written to the files. It ends
with a value or with a crash of the program, and in both cases it leaves a tree, log records and the
output of the tools that ran. Actions are chained by running the second one on the tree that the
first one leaves; records and output come one after the other, and nothing runs after a crash.

Where no storage is named, an action runs with one that takes everything (`Storage.roomy`).
-/

namespace QueryTidy

/-- How an action ends. -/
inductive Completion (α : Type) where
  | finished (value : α)
  | crashed
  deriving DecidableEq, Repr

/-- What an action yields and leaves behind. -/
structure Effect (α : Type) where
  result : Completion α
  tree : Tree
  logs : List LogRecord
  output : Bytes
  deriving DecidableEq, Repr

/-- A computation on a file tree. -/
def Action (α : Type) : Type :=
  Storage → Tree → Effect α

namespace Action

/-- Run an action on a tree. -/
def run {α : Type} (action : Action α) (t : Tree) (storage : Storage := .roomy) : Effect α :=
  action storage t

/-- Yield a value and leave everything as it is. -/
protected def pure {α : Type} (a : α) : Action α :=
  fun _ t => ⟨.finished a, t, [], []⟩

/-- Run an action and then the one that its value determines. -/
protected def bind {α β : Type} (first : Action α) (next : α → Action β) : Action β :=
    fun storage t =>
  let before := first.run t storage
  match before.result with
  | .crashed => ⟨.crashed, before.tree, before.logs, before.output⟩
  | .finished a =>
      let after := (next a).run before.tree storage
      ⟨after.result, after.tree, before.logs ++ after.logs, before.output ++ after.output⟩

instance : Monad Action where
  pure := Action.pure
  bind := Action.bind

/-- The program crashes. -/
def crash {α : Type} : Action α :=
  fun _ t => ⟨.crashed, t, [], []⟩

/-- Write a log record. -/
def log (level : LogLevel) (area : LogArea) (text : Text) : Action Unit :=
  fun _ t => ⟨.finished (), t, [⟨level, area, text⟩], []⟩

/-- Send bytes to the standard output. -/
def emit (bytes : Bytes) : Action Unit :=
  fun _ t => ⟨.finished (), t, [], bytes⟩

/-- The current tree. -/
def getTree : Action Tree :=
  fun _ t => ⟨.finished t, t, [], []⟩

/-- The storage. -/
def getStorage : Action Storage :=
  fun storage t => ⟨.finished storage, t, [], []⟩

/-- Replace the tree. -/
def setTree (t : Tree) : Action Unit :=
  fun _ _ => ⟨.finished (), t, [], []⟩

section

variable {α β : Type} (t : Tree) (storage : Storage)

@[simp] theorem run_pure (a : α) :
    (pure a : Action α).run t storage = ⟨.finished a, t, [], []⟩ :=
  rfl

@[simp] theorem run_log (level : LogLevel) (area : LogArea) (text : Text) :
    (log level area text).run t storage = ⟨.finished (), t, [⟨level, area, text⟩], []⟩ :=
  rfl

@[simp] theorem run_emit (bytes : Bytes) :
    (emit bytes).run t storage = ⟨.finished (), t, [], bytes⟩ :=
  rfl

@[simp] theorem run_getTree : getTree.run t storage = ⟨.finished t, t, [], []⟩ :=
  rfl

@[simp] theorem run_getStorage : getStorage.run t storage = ⟨.finished storage, t, [], []⟩ :=
  rfl

@[simp] theorem run_setTree (u : Tree) :
    (setTree u).run t storage = ⟨.finished (), u, [], []⟩ :=
  rfl

@[simp] theorem run_crash : (crash : Action α).run t storage = ⟨.crashed, t, [], []⟩ :=
  rfl

end

/-- Chaining after an action that finishes. -/
theorem run_bind_finished {α β : Type} {first : Action α} {next : α → Action β} {t : Tree}
    {storage : Storage} {a : α} (h : (first.run t storage).result = .finished a) :
    (first >>= next).run t storage =
      ⟨((next a).run (first.run t storage).tree storage).result,
        ((next a).run (first.run t storage).tree storage).tree,
        (first.run t storage).logs ++ ((next a).run (first.run t storage).tree storage).logs,
        (first.run t storage).output ++
          ((next a).run (first.run t storage).tree storage).output⟩ := by
  show Action.bind first next storage t = _
  simp only [Action.bind, h]

end Action

end QueryTidy
