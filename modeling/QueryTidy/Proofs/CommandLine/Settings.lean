import QueryTidy.Proofs.CommandLine.Given

/-!
# Settings before the separator

What is read from arguments that give each setting of a run at most once, in any order and
spelling, and then the separator and paths (`read_settings`). The reader is `Reader.Ready` between
two settings: all that is pending can be examined without a fault.
-/

namespace QueryTidy

/-- A setting of a run, as it is given in arguments. The word of a choice is an argument of its own
or attached to the option. -/
inductive Setting where
  | dryRun
  | choice (c : ComparerChoice) (attached : Bool)
  deriving DecidableEq, Repr

namespace Setting

/-- The option that gives the setting. -/
def name : Setting → OptionName
  | .dryRun => .dryRun
  | .choice _ _ => .differ

/-- The arguments that give the setting. -/
def words : Setting → List Bytes
  | .dryRun => [Arguments.dryRunFlag]
  | .choice c false => [Utf8.encode "--differ".toList, Utf8.encode c.name]
  | .choice c true => [Utf8.encode ("--differ=".toList ++ c.name)]

/-- The choice of a tool, if the setting is one. -/
def choice? : Setting → Option ComparerChoice
  | .dryRun => none
  | .choice c _ => some c

/-- The options of a run with the settings and paths. -/
def options (settings : List Setting) (paths : List Path) : Options :=
  ⟨decide (.dryRun ∈ settings.map name), (settings.findSome? choice?).getD ComparerChoice.default,
    false, paths⟩

end Setting

namespace Arguments

namespace Reader

variable {r : Reader} {given : List OptionName} {choice : ComparerChoice} {paths : List Path}

/-- No paths were taken, and what is pending can be examined, with the given options and choice
after it. -/
structure Ready (r : Reader) (given : List OptionName) (choice : ComparerChoice) : Prop where
  settled : r.settled = .ok ⟨given, choice, [], .nothing⟩
  noPaths : ∀ paths, r.pending ≠ .paths paths

/-- Nothing is pending at the start. -/
theorem start_ready : start.Ready [] ComparerChoice.default :=
  ⟨rfl, fun _ h => nomatch h⟩

/-- The first choice of a tool is taken. -/
theorem take_choice_first (hnew : OptionName.differ ∉ given) (c : ComparerChoice)
    (pending : Pending) :
    takeChoice ⟨given, choice, paths, pending⟩ (Utf8.encode c.name) =
      (⟨given ++ [.differ], c, paths, .nothing⟩, none) := by
  have hword : Utf8.encode c.name ≠ [] := by
    cases c <;> decide
  have hname : (Utf8.decode (Utf8.encode c.name)).toOption.bind (ComparerChoice.ofName? false) =
      some c := by
    cases c <;> decide
  simp only [takeChoice, hnew, hword, hname, ↓reduceIte]

/-- A setting that was not given is taken, whatever is pending without a fault. -/
theorem take_setting (h : r.settled = .ok ⟨given, choice, paths, .nothing⟩) (setting : Setting)
    (hnew : setting.name ∉ given) :
    ∃ r' : Reader, (∀ rest, r.run (setting.words ++ rest) = r'.run rest) ∧
      r'.settled = .ok ⟨given ++ [setting.name], setting.choice?.getD choice, paths, .nothing⟩ ∧
      ∀ pending, r'.pending ≠ .paths pending := by
  cases setting with
  | dryRun =>
      have hform := of_bytes_dry_run_flag
      have hword : OptionName.ofWord? (Utf8.encode OptionName.dryRun.word) = some .dryRun := by
        decide
      have htaken : r.take (Argument.ofBytes dryRunFlag) =
          .ok ⟨given ++ [.dryRun], choice, paths, .nothing⟩ := by
        rw [hform]
        have hnot : OptionName.dryRun ∉ given := hnew
        simp only [take, takeLong, hword, takeOption, takeFlag, h, hnot, ↓reduceIte]
      refine ⟨⟨given ++ [.dryRun], choice, paths, .nothing⟩, fun rest => ?_, rfl,
        fun _ => Pending.noConfusion⟩
      rw [Setting.words, List.singleton_append, run]
      rw [hform] at htaken ⊢
      simp only [htaken]
  | choice c attached =>
      have hdiffer : OptionName.ofWord? (Utf8.encode "differ".toList) = some .differ := by decide
      cases attached with
      | true =>
          have hform : Argument.ofBytes (Utf8.encode ("--differ=".toList ++ c.name)) =
              .long (Utf8.encode "differ".toList) (some (Utf8.encode c.name)) := by
            cases c <;> decide
          refine ⟨⟨given ++ [.differ], c, paths, .nothing⟩, fun rest => ?_, rfl,
            fun _ => Pending.noConfusion⟩
          rw [Setting.words, List.singleton_append, run, hform]
          simp only [take, takeLong, hdiffer, h, take_choice_first hnew]
      | false =>
          have hform : Argument.ofBytes (Utf8.encode "--differ".toList) =
              .long (Utf8.encode "differ".toList) none := by
            decide
          have hplain : Argument.ofBytes (Utf8.encode c.name) = .plain (Utf8.encode c.name) := by
            cases c <;> decide
          refine ⟨⟨given, choice, paths, .choice (some (Utf8.encode c.name))⟩, fun rest => ?_, ?_,
            fun _ => Pending.noConfusion⟩
          · rw [Setting.words, List.cons_append, List.singleton_append, run, hform]
            simp only [take, takeLong, hdiffer, takeOption, h]
            rw [run, hplain]
            simp only [take, takePlain]
          · simp only [Reader.settled, settle, take_choice_first hnew]
            rfl

/-- A setting that was not given is taken between settings. -/
theorem Ready.take_setting (h : r.Ready given choice) (setting : Setting)
    (hnew : setting.name ∉ given) :
    ∃ r' : Reader, (∀ rest, r.run (setting.words ++ rest) = r'.run rest) ∧
      r'.Ready (given ++ [setting.name]) (setting.choice?.getD choice) := by
  obtain ⟨r', hrun, hsettled, hpending⟩ := Reader.take_setting h.settled setting hnew
  exact ⟨r', hrun, hsettled, hpending⟩

/-- Settings without an option for a choice make no choice. -/
theorem no_choice {settings : List Setting} (h : OptionName.differ ∉ settings.map Setting.name) :
    settings.findSome? Setting.choice? = none := by
  refine List.findSome?_eq_none_iff.2 fun setting hsetting => ?_
  cases setting with
  | dryRun => rfl
  | choice c attached => exact absurd (List.mem_map_of_mem hsetting) h

/-- Settings that were not given, each at most once, are taken. -/
theorem Ready.take_settings (h : r.Ready given choice) (settings : List Setting)
    (hnew : (given ++ settings.map Setting.name).Nodup) :
    ∃ r' : Reader, (∀ rest, r.run (settings.flatMap Setting.words ++ rest) = r'.run rest) ∧
      r'.Ready (given ++ settings.map Setting.name)
        ((settings.findSome? Setting.choice?).getD choice) := by
  induction settings generalizing r given choice with
  | nil => exact ⟨r, fun _ => rfl, by simpa using h⟩
  | cons setting rest ih =>
      have hsplit : given ++ (setting :: rest).map Setting.name =
          (given ++ [setting.name]) ++ rest.map Setting.name := by
        simp
      rw [hsplit] at hnew ⊢
      obtain ⟨hfront, -, hrest⟩ := List.nodup_append.1 hnew
      obtain ⟨-, -, hsetting⟩ := List.nodup_append.1 hfront
      obtain ⟨r', hrun, hready⟩ := h.take_setting setting fun hmem =>
        hsetting _ hmem _ (List.mem_singleton.2 rfl) rfl
      obtain ⟨r'', hrun', hready'⟩ := ih hready hnew
      refine ⟨r'', fun more => ?_, ?_⟩
      · rw [List.flatMap_cons, List.append_assoc, hrun, hrun']
      · cases setting with
        | dryRun => exact hready'
        | choice c attached =>
            -- A choice was made, and each setting is given at most once: there is no later one.
            have hnone : rest.findSome? Setting.choice? = none := no_choice fun hmem =>
              hrest _ (List.mem_append_right _ (List.mem_singleton.2 rfl)) _ hmem rfl
            rw [hnone] at hready'
            exact hready'

/-- Paths after the separator are taken as they are. -/
theorem run_paths_more (taken paths : List Path) :
    runPaths ⟨given, choice, [], .paths taken⟩ paths =
      finish ⟨given, choice, [], .paths (taken ++ paths)⟩ := by
  induction paths generalizing taken with
  | nil => rw [List.append_nil, runPaths]
  | cons path rest ih =>
      rw [runPaths]
      simp only [takePath]
      rw [ih, List.append_assoc, List.singleton_append]

/-- After the settings come the separator and paths. -/
theorem Ready.run_paths (h : r.Ready given choice) (hpaths : paths ≠ []) (hempty : [] ∉ paths) :
    r.run (separator :: paths) =
      .run ⟨decide (OptionName.dryRun ∈ given), choice, decide (OptionName.verbose ∈ given),
        paths⟩ := by
  have hform : Argument.ofBytes separator = .separator := by decide
  obtain ⟨path, rest, rfl⟩ := List.exists_cons_of_ne_nil hpaths
  have hfirst : r.takePath path = .ok ⟨given, choice, [], .paths [path]⟩ := by
    unfold takePath
    split
    · exact absurd ‹_› (h.noPaths _)
    · simp only [h.settled]
  rw [run, hform]
  simp only
  rw [runPaths, hfirst]
  simp only [run_paths_more, List.singleton_append, finish, Reader.settled, settle, hempty,
    ↓reduceIte, List.nil_append, hpaths]

end Reader

/-- Arguments that give each setting at most once and then, after the separator, at least one path
and no empty one ask for a run with the settings over the paths. -/
theorem read_settings {settings : List Setting} {paths : List Path}
    (hsettings : (settings.map Setting.name).Nodup) (hpaths : paths ≠ []) (hempty : [] ∉ paths) :
    read (settings.flatMap Setting.words ++ separator :: paths) =
      .run (Setting.options settings paths) := by
  obtain ⟨r, hrun, hready⟩ := Reader.start_ready.take_settings settings hsettings
  have hverbose : OptionName.verbose ∉ settings.map Setting.name := by
    intro h
    obtain ⟨setting, -, hname⟩ := List.mem_map.1 h
    cases setting <;> cases hname
  rw [read, hrun, hready.run_paths hpaths hempty, List.nil_append, decide_eq_false hverbose]
  rfl

end Arguments

end QueryTidy
