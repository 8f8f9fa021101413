import QueryTidy.Proofs.Run.Quiet
import QueryTidy.Proofs.Run.Verdict

/-!
# Tools that are found

What looking for the tools tells about them. The plain tool is found if it is executable
(`Availability.found_diff_iff`), and the version control system if it also answers the question for
its version with 2.42 or later (`Availability.found_git_iff`). So a tool that the automatic choice
settles on is an executable under the name of its program
(`ComparerChoice.executable_of_settle_auto`).
-/

namespace QueryTidy

open QueryTidy.Action

/-! ## What is found -/

namespace Toolset

variable {tools : Toolset}

/-- The version control system can show changes: it is executable, it succeeds when it is asked for
its version, and the version is at least 2.42. -/
def GitShows (tools : Toolset) (tool : ToolBehavior) : Prop :=
  tools.git = some (.executable tool) ∧ tool.versionExit = .code 0 ∧
    ∃ v, GitVersion.parse? (Utf8.decodeLossy tool.version) = some v ∧
      (2 < v.major ∨ v.major = 2 ∧ 42 ≤ v.minor)

/-- The plain tool is found under its name. -/
@[simp] theorem find_diff (tools : Toolset) : tools.find? ToolBehavior.diffName = tools.diff := by
  simp [find?]

/-- The version control system is found under its name. -/
@[simp] theorem find_git (tools : Toolset) : tools.find? ToolBehavior.gitName = tools.git := by
  have hname : ToolBehavior.gitName ≠ ToolBehavior.diffName := by decide
  simp [find?, hname]

/-- A search finds the executables only. -/
theorem has_iff {name : Bytes} :
    tools.has name = true ↔ ∃ tool, tools.find? name = some (.executable tool) := by
  unfold has
  split
  · rename_i tool hfind
    simp [hfind]
  · rename_i hother
    simp only [Bool.false_eq_true, false_iff, not_exists]
    exact hother

end Toolset

/-- The first usable release and all later ones, in the order of their numbers. -/
theorem GitVersion.at_least_first_usable {v : GitVersion} :
    v.atLeast GitVersion.firstUsable = true ↔ 2 < v.major ∨ v.major = 2 ∧ 42 ≤ v.minor := by
  show (decide (2 < v.major) || (decide (v.major = 2) && decide (42 ≤ v.minor))) = true ↔ _
  simp only [Bool.or_eq_true, Bool.and_eq_true, decide_eq_true_eq]

namespace Availability

variable {tools : Toolset}

/-- The plain tool counts as found if it is executable. -/
theorem found_diff_iff :
    (found tools).diff = true ↔ ∃ tool, tools.diff = some (.executable tool) := by
  rw [found, Toolset.has_iff, Toolset.find_diff]

/-- The answer of an executable to the question for its version. -/
theorem git_version_of_executable {tool : ToolBehavior}
    (h : tools.git = some (.executable tool)) :
    gitVersion? tools =
      if tool.versionExit = .code 0 then GitVersion.parse? (Utf8.decodeLossy tool.version)
      else none := by
  have hlaunch : tools.launch ⟨ToolBehavior.gitName, ToolBehavior.versionArgs⟩ = .ok tool := by
    have hnul : Command.hasNul ⟨ToolBehavior.gitName, ToolBehavior.versionArgs⟩ = false := by
      decide
    simp [Toolset.launch, hnul, h]
  simp [gitVersion?, hlaunch]

/-- The version control system counts as found if it can show changes. -/
theorem found_git_iff : (found tools).git = true ↔ ∃ tool, tools.GitShows tool := by
  simp only [found, Bool.and_eq_true, Toolset.has_iff, Toolset.find_git, Toolset.GitShows]
  constructor
  · rintro ⟨⟨tool, htool⟩, hversion⟩
    rw [git_version_of_executable htool] at hversion
    split at hversion
    · rename_i hexit
      cases hparse : GitVersion.parse? (Utf8.decodeLossy tool.version) with
      | none => simp [hparse] at hversion
      | some v =>
          rw [hparse] at hversion
          exact ⟨tool, htool, hexit, v, hparse, GitVersion.at_least_first_usable.1 hversion⟩
    · cases hversion
  · rintro ⟨tool, htool, hexit, v, hparse, hleast⟩
    refine ⟨⟨tool, htool⟩, ?_⟩
    rw [git_version_of_executable htool, if_pos hexit, hparse]
    exact GitVersion.at_least_first_usable.2 hleast

/-- Looking for the tools yields those that are found, whatever the files are, and starts none to
show changes with. -/
theorem probe_run (tools : Toolset) : ∃ logs, (∀ t storage, (probe tools).run t storage =
    ⟨.finished (found tools), t, logs, []⟩) ∧ ∀ r ∈ logs, r.area = .detection := by
  unfold probe probeGit found
  cases tools.has ToolBehavior.gitName with
  | true =>
      simp only [↓reduceIte, run_bind, run_log, run_pure, Bool.true_and]
      exact ⟨_, fun _ _ => rfl, by simp⟩
  | false =>
      simp only [Bool.false_eq_true, ↓reduceIte, run_bind, run_log, run_pure, Bool.false_and]
      exact ⟨_, fun _ _ => rfl, by simp⟩

end Availability

/-! ## What is settled -/

namespace ComparerChoice

variable {tools : Toolset}

/-- The choice that names a tool. -/
def named : Comparer → ComparerChoice
  | .diff => .diff
  | .git => .git

/-- A tool that is named is used. -/
theorem settle_named (available : Availability) (c : Comparer) :
    (named c).settle available = some c := by
  cases c <;> rfl

/-- The version control system is chosen if it can show changes. -/
theorem settle_auto_git {tool : ToolBehavior} (h : tools.GitShows tool) :
    auto.settle (Availability.found tools) = some .git := by
  have hgit := Availability.found_git_iff.2 ⟨tool, h⟩
  simp only [settle, hgit, ↓reduceIte]

/-- The plain tool is chosen if it is executable and the version control system cannot show
changes. -/
theorem settle_auto_diff {tool : ToolBehavior} (hgit : ∀ other, ¬tools.GitShows other)
    (h : tools.diff = some (.executable tool)) :
    auto.settle (Availability.found tools) = some .diff := by
  have hnot : (Availability.found tools).git = false :=
    Bool.eq_false_iff.2 fun h => (Availability.found_git_iff.1 h).elim hgit
  have hdiff := Availability.found_diff_iff.2 ⟨tool, h⟩
  simp only [settle, hnot, hdiff, Bool.false_eq_true, ↓reduceIte]

/-- No tool is chosen if none can show changes. -/
theorem settle_auto_none (hgit : ∀ other, ¬tools.GitShows other)
    (hdiff : ∀ tool, tools.diff ≠ some (.executable tool)) :
    auto.settle (Availability.found tools) = none := by
  have hnot : (Availability.found tools).git = false :=
    Bool.eq_false_iff.2 fun h => (Availability.found_git_iff.1 h).elim hgit
  have hnot' : (Availability.found tools).diff = false :=
    Bool.eq_false_iff.2 fun h => (Availability.found_diff_iff.1 h).elim hdiff
  simp only [settle, hnot, hnot', Bool.false_eq_true, ↓reduceIte]

/-- A tool that was chosen and not named is an executable. -/
theorem executable_of_settle_auto {c : Comparer}
    (h : auto.settle (Availability.found tools) = some c) :
    ∃ tool, tools.find? c.program = some (.executable tool) := by
  simp only [settle] at h
  split at h
  · rename_i hgit
    cases h
    obtain ⟨tool, htool, -⟩ := Availability.found_git_iff.1 hgit
    exact ⟨tool, by rw [Comparer.program, Toolset.find_git, htool]⟩
  · split at h
    · rename_i hdiff
      cases h
      obtain ⟨tool, htool⟩ := Availability.found_diff_iff.1 hdiff
      exact ⟨tool, by rw [Comparer.program, Toolset.find_diff, htool]⟩
    · cases h

end ComparerChoice

end QueryTidy
