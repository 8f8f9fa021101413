import QueryTidy.Proofs.CommandLine.Settings
import QueryTidy.Proofs.CommandLine.Verbose
import QueryTidy.Program
import Mathlib.Data.List.Nodup

/-!
# Options among the paths

What is read from arguments in which options and paths mix (`Arguments.read_parts`), and from
options that are followed by the separator and paths (`Arguments.read_separated`). The invariant of
the reader is an equation: once what is pending is examined, it has the options, the choice and the
paths that were given so far. Paths that are pending in front of an option are examined when the
option is taken, and the word of a choice is pending until something follows it, so neither is ever
taken for the other. Hence a run does not depend on where its options stand
(`Program.options_stand_anywhere`).
-/

namespace QueryTidy

/-- An option of a run, as it is given in arguments: a setting, or the option for more messages by
its letter or its name. -/
inductive GivenOption where
  | setting (s : Setting)
  | verbose (long : Bool)
  deriving DecidableEq, Repr

namespace GivenOption

/-- The name of the option. -/
def name : GivenOption → OptionName
  | .setting s => s.name
  | .verbose _ => .verbose

/-- The arguments that give the option. -/
def words : GivenOption → List Bytes
  | .setting s => s.words
  | .verbose false => [Arguments.verboseFlag]
  | .verbose true => [Utf8.encode "--verbose".toList]

/-- The choice of a tool, if the option makes one. -/
def choice? : GivenOption → Option ComparerChoice
  | .setting s => s.choice?
  | .verbose _ => none

/-- What a run with the options over the paths is asked for. -/
def options (front : List GivenOption) (paths : List Path) : Options :=
  ⟨decide (.dryRun ∈ front.map name), (front.findSome? choice?).getD ComparerChoice.default,
    decide (.verbose ∈ front.map name), paths⟩

/-- The options that make a choice are those with the option for a choice. -/
theorem choice_is_some_iff (o : GivenOption) : o.choice?.isSome = true ↔ o.name = .differ := by
  rcases o with (_ | ⟨c, attached⟩) | long
  · exact ⟨nofun, nofun⟩
  · exact ⟨fun _ => rfl, fun _ => rfl⟩
  · exact ⟨nofun, nofun⟩

/-- Options without one for a choice make none. -/
theorem no_choice_of_names {front : List GivenOption} (h : OptionName.differ ∉ front.map name) :
    front.findSome? choice? = none := by
  refine List.findSome?_eq_none_iff.mpr fun o ho => ?_
  refine Option.not_isSome_iff_eq_none.mp fun hsome => h ?_
  exact List.mem_map.mpr ⟨o, ho, o.choice_is_some_iff.mp hsome⟩

/-- In which order options are given, each at most once, makes no difference. -/
theorem options_perm {front other : List GivenOption} (hperm : front.Perm other)
    (hnodup : (other.map name).Nodup) (paths : List Path) :
    options front paths = options other paths := by
  have hnames : ∀ n : OptionName, n ∈ front.map name ↔ n ∈ other.map name := fun n =>
    (hperm.map name).mem_iff
  -- Of the options at most one makes a choice.
  have hcount : (other.filterMap choice?).length ≤ 1 := by
    have hone := List.nodup_iff_count_le_one.mp hnodup .differ
    rw [List.count, List.countP_map] at hone
    rw [List.length_filterMap_eq_countP]
    refine Nat.le_trans (List.countP_mono_left fun o _ hsome => ?_) hone
    simpa using o.choice_is_some_iff.mp hsome
  have hchoices : (front.filterMap choice?).Perm (other.filterMap choice?) :=
    hperm.filterMap choice?
  have hsame : front.filterMap choice? = other.filterMap choice? := by
    match hother : other.filterMap choice?, hcount with
    | [], _ =>
        rw [hother] at hchoices
        exact hchoices.eq_nil
    | [c], _ =>
        rw [hother] at hchoices
        exact List.perm_singleton.mp hchoices
  have hchoice : front.findSome? choice? = other.findSome? choice? := by
    rw [← List.head?_filterMap, ← List.head?_filterMap, hsame]
  simp only [options, hnames, hchoice]

end GivenOption

/-- A part of a command line: an option with its value, or a path. -/
inductive CommandPart where
  | option (o : GivenOption)
  | path (p : Path)
  deriving DecidableEq, Repr

namespace CommandPart

/-- The arguments of the part. -/
def words : CommandPart → List Bytes
  | .option o => o.words
  | .path p => [p]

/-- The option, if the part is one. -/
def option? : CommandPart → Option GivenOption
  | .option o => some o
  | .path _ => none

/-- The path, if the part is one. -/
def path? : CommandPart → Option Path
  | .option _ => none
  | .path p => some p

/-- Options as parts. -/
theorem of_options (front : List GivenOption) :
    (front.map option).filterMap option? = front ∧ (front.map option).filterMap path? = [] ∧
      (front.map option).flatMap words = front.flatMap GivenOption.words := by
  refine ⟨?_, ?_, ?_⟩
  · rw [List.filterMap_map]
    exact List.filterMap_some
  · rw [List.filterMap_map]
    exact List.filterMap_eq_nil_iff.mpr fun _ _ => rfl
  · rw [List.flatMap_map]
    rfl

/-- Paths as parts. -/
theorem of_paths (paths : List Path) :
    (paths.map path).filterMap option? = [] ∧ (paths.map path).filterMap path? = paths ∧
      (paths.map path).flatMap words = paths := by
  refine ⟨?_, ?_, ?_⟩
  · rw [List.filterMap_map]
    exact List.filterMap_eq_nil_iff.mpr fun _ _ => rfl
  · rw [List.filterMap_map]
    exact List.filterMap_some
  · rw [List.flatMap_map]
    exact List.flatMap_singleton' paths

end CommandPart

/-- The path can stand among options: it is not empty and does not begin with a minus sign. -/
def Path.IsPlain (p : Path) : Prop :=
  p ≠ [] ∧ p.head? ≠ some Argument.minus

/-- Whether a path can stand among options is told by its first byte. -/
instance (p : Path) : Decidable p.IsPlain :=
  inferInstanceAs (Decidable (_ ∧ _))

/-- A path that can stand among options has the form of no option. -/
theorem Path.IsPlain.of_bytes {p : Path} (h : p.IsPlain) : Argument.ofBytes p = .plain p := by
  obtain ⟨hne, hhead⟩ := h
  cases p with
  | nil => exact absurd rfl hne
  | cons b rest =>
      have hb : Argument.minus ≠ b := fun heq => hhead (congrArg some heq.symm)
      simp only [Argument.ofBytes, Text.dropStart?, hb, ↓reduceIte]

namespace Arguments

namespace Reader

variable {r : Reader} {given : List OptionName} {choice : ComparerChoice} {taken : List Path}

/-- At the start nothing is given and nothing is pending. -/
theorem start_settled : start.settled = .ok ⟨[], ComparerChoice.default, [], .nothing⟩ :=
  rfl

/-- An option that was not given is taken, whatever is pending without a fault. -/
theorem take_given_option (h : r.settled = .ok ⟨given, choice, taken, .nothing⟩) (o : GivenOption)
    (hnew : o.name ∉ given) :
    ∃ r' : Reader, (∀ rest, r.run (o.words ++ rest) = r'.run rest) ∧
      r'.settled = .ok ⟨given ++ [o.name], o.choice?.getD choice, taken, .nothing⟩ := by
  cases o with
  | setting s =>
      obtain ⟨r', hrun, hsettled, -⟩ := take_setting h s hnew
      exact ⟨r', hrun, hsettled⟩
  | verbose long =>
      have hnot : OptionName.verbose ∉ given := hnew
      refine ⟨⟨given ++ [.verbose], choice, taken, .nothing⟩, fun rest => ?_, rfl⟩
      cases long with
      | false =>
          have hform : Argument.ofBytes verboseFlag = .letters (Utf8.encode ['v']) := by decide
          have hchunks : Utf8.chunks (Utf8.encode ['v']) = [.char 'v'] := by decide
          have hletter : OptionName.ofLetter? 'v' = some .verbose := by decide
          rw [GivenOption.words, List.singleton_append, run_cons_of_ne (by decide), hform]
          simp only [take, hchunks, takeLetters, hletter, takeOption, takeFlag, h, hnot, ↓reduceIte]
      | true =>
          have hform : Argument.ofBytes (Utf8.encode "--verbose".toList) =
              .long (Utf8.encode OptionName.verbose.word) none := by
            decide
          have hword : OptionName.ofWord? (Utf8.encode OptionName.verbose.word) =
              some .verbose := by
            decide
          rw [GivenOption.words, List.singleton_append, run_cons_of_ne (by decide), hform]
          simp only [take, takeLong, hword, takeOption, takeFlag, h, hnot, ↓reduceIte]

/-- A path that can stand among options is taken, whatever is pending without a fault. -/
theorem take_plain_path (h : r.settled = .ok ⟨given, choice, taken, .nothing⟩) {p : Path}
    (hp : p.IsPlain) :
    ∃ r' : Reader, (∀ rest, r.run (p :: rest) = r'.run rest) ∧
      r'.settled = .ok ⟨given, choice, taken ++ [p], .nothing⟩ := by
  obtain ⟨r', htaken, -, hsettled⟩ := take_path_settled h p
  refine ⟨r', fun rest => ?_, hsettled hp.1⟩
  have hplain : r.takePlain p = r.takePath p := by
    unfold takePlain
    split
    · -- A reader that waits for the word of a choice has a fault.
      rw [settled_of_choosing ‹_›] at h
      cases h
    · rfl
  have hseparator : p ≠ separator := by
    rintro rfl
    exact hp.2 (by decide)
  rw [run_cons_of_ne hseparator, hp.of_bytes]
  simp only [take, hplain, htaken]

/-- The parts of a command line are taken in any order. -/
theorem take_parts (h : r.settled = .ok ⟨given, choice, taken, .nothing⟩) (parts : List CommandPart)
    (hnew : (given ++ (parts.filterMap CommandPart.option?).map GivenOption.name).Nodup)
    (hpaths : ∀ p ∈ parts.filterMap CommandPart.path?, p.IsPlain) :
    ∃ r' : Reader, (∀ rest, r.run (parts.flatMap CommandPart.words ++ rest) = r'.run rest) ∧
      r'.settled = .ok
        ⟨given ++ (parts.filterMap CommandPart.option?).map GivenOption.name,
          ((parts.filterMap CommandPart.option?).findSome? GivenOption.choice?).getD choice,
          taken ++ parts.filterMap CommandPart.path?, .nothing⟩ := by
  induction parts generalizing r given choice taken with
  | nil => exact ⟨r, fun _ => rfl, by simpa using h⟩
  | cons part parts ih =>
      cases part with
      | path p =>
          have hcons : (CommandPart.path p :: parts).filterMap CommandPart.path? =
              p :: parts.filterMap CommandPart.path? := rfl
          rw [hcons] at hpaths ⊢
          obtain ⟨r', hrun, hsettled⟩ := take_plain_path h (hpaths p List.mem_cons_self)
          obtain ⟨r'', hrun', hsettled'⟩ :=
            ih hsettled hnew fun q hq => hpaths q (List.mem_cons_of_mem _ hq)
          refine ⟨r'', fun rest => ?_, ?_⟩
          · rw [List.flatMap_cons, CommandPart.words, List.append_assoc, List.singleton_append,
              hrun, hrun']
          · rw [List.append_assoc, List.singleton_append] at hsettled'
            exact hsettled'
      | option o =>
          have hcons : (CommandPart.option o :: parts).filterMap CommandPart.option? =
              o :: parts.filterMap CommandPart.option? := rfl
          have hsplit : given ++ (o :: parts.filterMap CommandPart.option?).map GivenOption.name =
              given ++ [o.name] ++ (parts.filterMap CommandPart.option?).map GivenOption.name := by
            simp
          rw [hcons, hsplit] at hnew ⊢
          obtain ⟨hfront, -, hrest⟩ := List.nodup_append.mp hnew
          obtain ⟨-, -, ho⟩ := List.nodup_append.mp hfront
          obtain ⟨r', hrun, hsettled⟩ := take_given_option h o fun hmem =>
            ho _ hmem _ (List.mem_singleton.mpr rfl) rfl
          obtain ⟨r'', hrun', hsettled'⟩ := ih hsettled hnew hpaths
          refine ⟨r'', fun rest => ?_, ?_⟩
          · rw [List.flatMap_cons, CommandPart.words, List.append_assoc, hrun, hrun']
          · rw [hsettled', List.findSome?_cons]
            cases hchoice : o.choice? with
            | none => rfl
            | some c =>
                -- A choice was made, and each option is given at most once: there is no later one.
                have hname := o.choice_is_some_iff.mp (by rw [hchoice]; rfl)
                have hlater : OptionName.differ ∉
                    (parts.filterMap CommandPart.option?).map GivenOption.name := fun hmem =>
                  hrest _ (List.mem_append_right _ (List.mem_singleton.mpr hname.symm)) _ hmem rfl
                rw [GivenOption.no_choice_of_names hlater]
                rfl

/-- Paths after the separator are taken as they are, if none is empty. -/
theorem run_paths_settled (h : r.settled = .ok ⟨given, choice, taken, .nothing⟩) {paths : List Path}
    (hempty : [] ∉ paths) :
    ∃ r' : Reader, r.runPaths paths = r'.finish ∧
      r'.settled = .ok ⟨given, choice, taken ++ paths, .nothing⟩ := by
  induction paths generalizing r taken with
  | nil => exact ⟨r, rfl, by simpa using h⟩
  | cons p rest ih =>
      obtain ⟨hp, hrest⟩ := not_or.mp fun hmem => hempty (List.mem_cons.mpr hmem)
      obtain ⟨t, htaken, -, hsettled⟩ := take_path_settled h p
      obtain ⟨r', hrun, hsettled'⟩ := ih (hsettled (Ne.symm hp)) hrest
      refine ⟨r', ?_, ?_⟩
      · simp only [runPaths, htaken, hrun]
      · rw [hsettled', List.append_assoc, List.singleton_append]

/-- A reader without a fault that has taken paths asks for a run over them. -/
theorem finish_settled (h : r.settled = .ok ⟨given, choice, taken, .nothing⟩) (hne : taken ≠ []) :
    r.finish = .run ⟨decide (OptionName.dryRun ∈ given), choice,
      decide (OptionName.verbose ∈ given), taken⟩ := by
  simp only [finish, h, hne, ↓reduceIte]

end Reader

variable {front : List GivenOption} {paths : List Path}

/-- Arguments in which options, each at most once, and paths mix ask for a run with the options over
the paths. -/
theorem read_parts {parts : List CommandPart}
    (hoptions : ((parts.filterMap CommandPart.option?).map GivenOption.name).Nodup)
    (hne : parts.filterMap CommandPart.path? ≠ [])
    (hpaths : ∀ p ∈ parts.filterMap CommandPart.path?, p.IsPlain) :
    read (parts.flatMap CommandPart.words) =
      .run (GivenOption.options (parts.filterMap CommandPart.option?)
        (parts.filterMap CommandPart.path?)) := by
  obtain ⟨r, hrun, hsettled⟩ := Reader.take_parts Reader.start_settled parts hoptions hpaths
  have hread := hrun []
  rw [List.append_nil] at hread
  rw [read, hread, Reader.run, Reader.finish_settled hsettled (by simpa using hne)]
  rfl

/-- Options, each at most once, in front of paths ask for a run with the options over the paths. -/
theorem read_options_first (hoptions : (front.map GivenOption.name).Nodup) (hne : paths ≠ [])
    (hpaths : ∀ p ∈ paths, p.IsPlain) :
    read (front.flatMap GivenOption.words ++ paths) = .run (GivenOption.options front paths) := by
  obtain ⟨hoption, hpath, hwords⟩ := CommandPart.of_options front
  obtain ⟨hoption', hpath', hwords'⟩ := CommandPart.of_paths paths
  have hfront : (front.map CommandPart.option ++ paths.map CommandPart.path).filterMap
      CommandPart.option? = front := by
    rw [List.filterMap_append, hoption, hoption', List.append_nil]
  have hback : (front.map CommandPart.option ++ paths.map CommandPart.path).filterMap
      CommandPart.path? = paths := by
    rw [List.filterMap_append, hpath, hpath', List.nil_append]
  have hread := read_parts (by rwa [hfront]) (by rwa [hback]) (by rwa [hback])
  rwa [hfront, hback, List.flatMap_append, hwords, hwords'] at hread

/-- Options, each at most once, and paths after the separator ask for a run with the options over
the paths, whatever they begin with. -/
theorem read_separated (hoptions : (front.map GivenOption.name).Nodup) (hne : paths ≠ [])
    (hempty : [] ∉ paths) :
    read (front.flatMap GivenOption.words ++ separator :: paths) =
      .run (GivenOption.options front paths) := by
  obtain ⟨hoption, hpath, hwords⟩ := CommandPart.of_options front
  obtain ⟨r, hrun, hsettled⟩ :=
    Reader.take_parts Reader.start_settled (front.map CommandPart.option)
    (by rwa [hoption]) (by rw [hpath]; exact fun _ hp => nomatch hp)
  rw [hoption, hpath, List.nil_append, List.nil_append] at hsettled
  obtain ⟨r', hrun', hsettled'⟩ := Reader.run_paths_settled hsettled hempty
  rw [read, ← hwords, hrun, Reader.run_separator, hrun', Reader.finish_settled hsettled' hne]
  rfl

end Arguments

namespace Program

/-- What a run does follows from what its arguments ask for. -/
theorem run_of_read {s : Start} {o : Options} (h : Arguments.read s.arguments = .run o)
    (storage : Storage) :
    let effect := (work s.host s.terminal o).run s.tree storage
    run s storage =
      ⟨ending effect.result, effect.output, logText o.verbose s.filter effect.logs,
        effect.tree⟩ := by
  simp only [run, h]

/-- Options may stand anywhere among the paths, each at most once, if no path is empty or begins
with a minus sign: the run is the same as with the options in front, in any order. After the
separator come any paths that are not empty: the run has the options in front of it and goes over
exactly these paths. -/
theorem options_stand_anywhere (filter : Option Bytes) (t : Tree) (host : Host) (terminal : Bool)
    (storage : Storage) :
    (∀ parts : List CommandPart,
      ((parts.filterMap CommandPart.option?).map GivenOption.name).Nodup →
      parts.filterMap CommandPart.path? ≠ [] →
      (∀ p ∈ parts.filterMap CommandPart.path?, p.IsPlain) →
      ∀ front : List GivenOption, front.Perm (parts.filterMap CommandPart.option?) →
        run ⟨parts.flatMap CommandPart.words, filter, t, host, terminal⟩ storage =
          run ⟨front.flatMap GivenOption.words ++ parts.filterMap CommandPart.path?, filter, t,
            host, terminal⟩ storage) ∧
    ∀ (front : List GivenOption) (paths : List Path), (front.map GivenOption.name).Nodup →
      paths ≠ [] → [] ∉ paths →
      let o := GivenOption.options front paths
      let effect := (work host terminal o).run t storage
      o.paths = paths ∧
        run ⟨front.flatMap GivenOption.words ++ Arguments.separator :: paths, filter, t, host,
            terminal⟩ storage =
          ⟨ending effect.result, effect.output, logText o.verbose filter effect.logs,
            effect.tree⟩ := by
  constructor
  · intro parts hoptions hne hpaths front hperm
    have hmixed := Arguments.read_parts hoptions hne hpaths
    have hfirst :=
      Arguments.read_options_first ((hperm.map GivenOption.name).nodup_iff.mpr hoptions)
      hne hpaths
    rw [GivenOption.options_perm hperm hoptions] at hfirst
    rw [run_of_read (s := ⟨parts.flatMap CommandPart.words, filter, t, host, terminal⟩) hmixed,
      run_of_read (s := ⟨_ ++ _, filter, t, host, terminal⟩) hfirst]
  · intro front paths hoptions hne hempty o effect
    refine ⟨rfl, ?_⟩
    exact run_of_read (s := ⟨_ ++ Arguments.separator :: paths, filter, t, host, terminal⟩)
      (Arguments.read_separated hoptions hne hempty) storage

/-- An option that asks for changes to be shown only governs a path in front of it, and a file with
the name of an option is rewritten if it stands after the separator. -/
theorem late_option_governs_early_path :
    let q := Utf8.encode ['q']
    let flag := Arguments.verboseFlag
    let t : Tree := ⟨[([q], .file (Utf8.encode "x  +  y".toList)),
      ([flag], .file (Utf8.encode "x  +  y".toList))]⟩
    let host : Host := ⟨⟨none, none⟩, none⟩
    let choice := GivenOption.setting (.choice .diff false)
    let dryRun := GivenOption.setting .dryRun
    let parts : List CommandPart := [.path q, .option choice, .path q, .option dryRun]
    let mixed := run ⟨parts.flatMap CommandPart.words, none, t, host, false⟩
    mixed = run ⟨[dryRun, choice].flatMap GivenOption.words ++ [q, q], none, t, host, false⟩ ∧
      mixed.tree = t ∧
      (run ⟨[GivenOption.verbose true].flatMap GivenOption.words ++ Arguments.separator :: [flag],
        none, t, host, false⟩).tree.read flag = .ok (Utf8.encode "x + y\n".toList) := by
  intro q flag t host choice dryRun parts mixed
  refine ⟨?_, by decide +kernel, ?_⟩
  · exact (options_stand_anywhere none t host false .roomy).1 parts (by decide) (by decide)
      (by decide)
      [dryRun, choice] (List.Perm.swap choice dryRun [])
  · rw [((options_stand_anywhere none t host false .roomy).2 [.verbose true] [flag] (by decide)
      (by decide) (by decide)).2]
    decide +kernel

end Program

end QueryTidy
