import QueryTidy.CommandLine.Arguments

/-!
# Options that were taken stay taken

An option without a value that was taken once counts as given until the arguments end: the only
option that a later argument takes back is the choice of a tool. So an argument `--dry-run` before
the separator either makes the reading fail or shows in the options of the run, wherever it stands.
-/

namespace QueryTidy.Arguments

/-- The argument that asks for changes to be shown only. -/
def dryRunFlag : Bytes := Utf8.encode "--dry-run".toList

/-- The argument after which only paths follow. -/
def separator : Bytes := Utf8.encode "--".toList

/-- Among the arguments before the separator, one asks for changes to be shown only. -/
def AsksDryRun (arguments : List Bytes) : Prop :=
  ∃ before after, arguments = before ++ dryRunFlag :: after ∧ separator ∉ before

/-- The form of the argument that asks for changes to be shown only. -/
theorem of_bytes_dry_run_flag :
    Argument.ofBytes dryRunFlag = .long (Utf8.encode OptionName.dryRun.word) none := by
  decide

/-- Only the argument `--` itself has the form of the separator. -/
theorem eq_separator_of_form {bytes : Bytes} (h : Argument.ofBytes bytes = .separator) :
    bytes = separator := by
  unfold Argument.ofBytes at h
  split at h
  · rename_i hdrop
    have hbytes := (Text.dropStart?_eq_some_iff _ _ _).1 hdrop
    rw [hbytes]
    decide
  · simp at h
  · split at h <;> simp at h

namespace Reader

variable {name : OptionName} {r s : Reader}

/-- Taking a choice takes back no option but an earlier choice. -/
theorem take_choice_given (hname : name ≠ .differ) (h : name ∈ r.given) (word : Bytes) :
    name ∈ (r.takeChoice word).1.given := by
  unfold takeChoice
  split
  · exact (List.mem_erase_of_ne hname).2 h
  · have hmem : name ∈ r.given ++ [OptionName.differ] := List.mem_append_left _ h
    split
    · exact hmem
    · split <;> exact hmem

/-- Examining what is pending takes back no option but an earlier choice. -/
theorem settled_given (hname : name ≠ .differ) (h : name ∈ r.given) (hs : r.settled = .ok s) :
    name ∈ s.given := by
  have hgiven : name ∈ r.settle.1.given := by
    unfold settle
    split
    · exact h
    · exact h
    · exact take_choice_given hname h _
    · exact h
  unfold settled at hs
  split at hs
  · rename_i hsettle
    cases hs
    rwa [hsettle] at hgiven
  · cases hs

/-- Taking an option without a value keeps the options that were taken. -/
theorem take_flag_given {flag : OptionName} (hname : name ≠ .differ) (h : name ∈ r.given)
    (hs : r.takeFlag flag = .ok s) : name ∈ s.given := by
  unfold takeFlag at hs
  split at hs
  · cases hs
  · rename_i hsettled
    split at hs
    · cases hs
    · cases hs
      exact List.mem_append_left _ (settled_given hname h hsettled)

/-- Options that end the reading never let it go on. -/
theorem finish_with_ne_ok (request : Request) : r.finishWith request ≠ .ok s := by
  unfold finishWith
  split <;> simp

/-- Taking an option by its name keeps the options that were taken. -/
theorem take_option_given {detailed : Bool} {option : OptionName} (hname : name ≠ .differ)
    (h : name ∈ r.given) (hs : r.takeOption detailed option = .ok s) : name ∈ s.given := by
  cases option with
  | dryRun => exact take_flag_given hname h hs
  | verbose => exact take_flag_given hname h hs
  | help => exact absurd hs (finish_with_ne_ok _)
  | version => exact absurd hs (finish_with_ne_ok _)
  | differ =>
      simp only [takeOption] at hs
      split at hs
      · cases hs
      · rename_i hsettled
        cases hs
        have hgiven := settled_given hname h hsettled
        exact hgiven

/-- Taking an option by its long name keeps the options that were taken. -/
theorem take_long_given {word : Bytes} {value : Option Bytes} (hname : name ≠ .differ)
    (h : name ∈ r.given) (hs : r.takeLong word value = .ok s) : name ∈ s.given := by
  unfold takeLong at hs
  split at hs
  · cases hs
  · exact take_option_given hname h hs
  · split at hs
    · cases hs
    · rename_i hsettled
      split at hs
      · rename_i hchoice
        cases hs
        have hgiven := take_choice_given hname (settled_given hname h hsettled) ‹Bytes›
        rwa [hchoice] at hgiven
      · cases hs
  · cases hs

/-- Taking options by their letters keeps the options that were taken. -/
theorem take_letters_given (hname : name ≠ .differ) {letters : List Utf8.Chunk}
    (h : name ∈ r.given) (hs : r.takeLetters letters = .ok s) : name ∈ s.given := by
  induction letters generalizing r with
  | nil =>
      cases hs
      exact h
  | cons chunk rest ih =>
      cases chunk with
      | stray bytes => cases hs
      | char c =>
          unfold takeLetters at hs
          split at hs
          · cases hs
          · split at hs
            · cases hs
            · rename_i htaken
              exact ih (take_option_given hname h htaken) hs

/-- Taking a path keeps the options that were taken. -/
theorem take_path_given {path : Path} (hname : name ≠ .differ) (h : name ∈ r.given)
    (hs : r.takePath path = .ok s) : name ∈ s.given := by
  unfold takePath at hs
  split at hs
  · cases hs
    exact h
  · split at hs
    · cases hs
    · rename_i hsettled
      cases hs
      have hgiven := settled_given hname h hsettled
      exact hgiven

/-- Taking any argument before the separator keeps the options that were taken. -/
theorem take_given {argument : Argument} (hname : name ≠ .differ) (h : name ∈ r.given)
    (hs : r.take argument = .ok s) : name ∈ s.given := by
  cases argument with
  | separator =>
      cases hs
      exact h
  | long word value => exact take_long_given hname h hs
  | letters letters => exact take_letters_given hname h hs
  | plain word =>
      simp only [take, takePlain] at hs
      split at hs
      · cases hs
        exact h
      · exact take_path_given hname h hs

/-- At the end of the arguments the options of the run are those that were taken. -/
theorem finish_dry_run {o : Options} (h : .dryRun ∈ r.given) (hrun : r.finish = .run o) :
    o.dryRun = true := by
  unfold finish at hrun
  split at hrun
  · cases hrun
  · rename_i hsettled
    split at hrun
    · cases hrun
    · cases hrun
      exact decide_eq_true (settled_given (by decide) h hsettled)

/-- Taking a path never settles what is asked for. -/
theorem take_path_ne_run {path : Path} {o : Options} : r.takePath path ≠ .error (.run o) := by
  unfold takePath
  split
  · simp
  · split <;> simp

/-- After the separator the options that were taken stay taken. -/
theorem run_paths_dry_run {arguments : List Bytes} {o : Options} (h : .dryRun ∈ r.given)
    (hrun : r.runPaths arguments = .run o) : o.dryRun = true := by
  induction arguments generalizing r with
  | nil => exact finish_dry_run h hrun
  | cons argument rest ih =>
      unfold runPaths at hrun
      split at hrun
      · rename_i htaken
        subst hrun
        exact absurd htaken take_path_ne_run
      · rename_i htaken
        exact ih (take_path_given (by decide) h htaken) hrun

/-- Taking an option without a value never settles that the program runs. -/
theorem take_flag_ne_run {flag : OptionName} {o : Options} :
    r.takeFlag flag ≠ .error (.run o) := by
  unfold takeFlag
  split
  · simp
  · split <;> simp

/-- Taking an option never settles that the program runs: options end the reading with an answer
of their own or a fault. -/
theorem take_option_ne_run {detailed : Bool} {option : OptionName} {o : Options} :
    r.takeOption detailed option ≠ .error (.run o) := by
  cases option with
  | dryRun => exact take_flag_ne_run
  | verbose => exact take_flag_ne_run
  | help =>
      simp only [takeOption, finishWith]
      split <;> simp
  | version =>
      simp only [takeOption, finishWith]
      split <;> simp
  | differ =>
      simp only [takeOption]
      split <;> simp

/-- Taking options by their letters never settles that the program runs. -/
theorem take_letters_ne_run {letters : List Utf8.Chunk} {o : Options} :
    r.takeLetters letters ≠ .error (.run o) := by
  induction letters generalizing r with
  | nil => simp [takeLetters]
  | cons chunk rest ih =>
      cases chunk with
      | stray bytes => simp [takeLetters]
      | char c =>
          unfold takeLetters
          split
          · simp
          · split
            · rename_i htaken
              intro h
              cases h
              exact take_option_ne_run htaken
            · exact ih

/-- Only the end of the arguments settles that the program runs. -/
theorem take_ne_run {argument : Argument} {o : Options} : r.take argument ≠ .error (.run o) := by
  cases argument with
  | separator => simp [take]
  | long word value =>
      simp only [take, takeLong]
      split
      · simp
      · exact take_option_ne_run
      · split
        · simp
        · split <;> simp
      · simp
  | letters letters => exact take_letters_ne_run
  | plain word =>
      simp only [take, takePlain]
      split
      · simp
      · exact take_path_ne_run

/-- Once changes are to be shown only, no further argument makes the run change a file. -/
theorem run_dry_run_of_given {arguments : List Bytes} {o : Options} (h : .dryRun ∈ r.given)
    (hrun : r.run arguments = .run o) : o.dryRun = true := by
  induction arguments generalizing r with
  | nil => exact finish_dry_run h hrun
  | cons argument rest ih =>
      unfold run at hrun
      split at hrun
      · exact run_paths_dry_run h hrun
      · split at hrun
        · rename_i htaken
          subst hrun
          exact absurd htaken take_ne_run
        · rename_i htaken
          exact ih (take_given (by decide) h htaken) hrun

/-- The argument that asks for changes to be shown only is taken whatever was taken before it. -/
theorem take_dry_run_flag_given (hs : r.take (Argument.ofBytes dryRunFlag) = .ok s) :
    .dryRun ∈ s.given := by
  rw [of_bytes_dry_run_flag] at hs
  have hword : OptionName.ofWord? (Utf8.encode OptionName.dryRun.word) = some .dryRun := by decide
  simp only [take, takeLong, hword, takeOption, takeFlag] at hs
  split at hs
  · cases hs
  · split at hs
    · cases hs
    · cases hs
      simp

/-- Whatever was taken before, the arguments that come next make the run change no file if one of
them, before the separator, asks for changes to be shown only. -/
theorem run_dry_run_of_asked {before after : List Bytes} {o : Options}
    (hbefore : separator ∉ before) (hrun : r.run (before ++ dryRunFlag :: after) = .run o) :
    o.dryRun = true := by
  induction before generalizing r with
  | nil =>
      rw [List.nil_append] at hrun
      unfold run at hrun
      split at hrun
      · rename_i hform
        rw [of_bytes_dry_run_flag] at hform
        cases hform
      · split at hrun
        · rename_i htaken
          subst hrun
          exact absurd htaken take_ne_run
        · rename_i htaken
          exact run_dry_run_of_given (take_dry_run_flag_given htaken) hrun
  | cons argument rest ih =>
      rw [List.cons_append] at hrun
      unfold run at hrun
      split at hrun
      · rename_i hform
        exact absurd (List.mem_cons.2 (.inl (eq_separator_of_form hform).symm)) hbefore
      · split at hrun
        · rename_i htaken
          subst hrun
          exact absurd htaken take_ne_run
        · exact ih (fun h => hbefore (List.mem_cons_of_mem _ h)) hrun

end Reader

/-- If one of the arguments before the separator asks for changes to be shown only and the program
runs, then it only shows them. -/
theorem read_dry_run {arguments : List Bytes} {o : Options} (h : AsksDryRun arguments)
    (hread : read arguments = .run o) : o.dryRun = true := by
  obtain ⟨before, after, rfl, hbefore⟩ := h
  exact Reader.run_dry_run_of_asked hbefore hread

end QueryTidy.Arguments
