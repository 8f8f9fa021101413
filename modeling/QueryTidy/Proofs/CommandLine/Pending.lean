import QueryTidy.Proofs.CommandLine.Given

/-!
# What is pending

What a reader answers to an argument depends on what was taken, once that is examined
(`Reader.settled`). A reader with a fault refuses every option (`Reader.take_option_unsettled`). If
the fault is not a word of a choice that is missing, no argument mends it: the reader is
`Reader.Stuck`, and whatever comes, it ends with a refusal (`Reader.Stuck.run`).
-/

namespace QueryTidy

/-! ## Forms and names -/

/-- What was found stays, and what has begun is found in the end. -/
theorem Utf8.chunks_from_ne_nil {found : List Chunk} {part : Bytes} {pending : Option Pending}
    {bytes : Bytes} (h : found ≠ [] ∨ pending ≠ none) :
    chunksFrom found part pending bytes ≠ [] := by
  -- Each case ends with what was found, or goes on with something found or begun.
  fun_induction chunksFrom found part pending bytes with
  | _ => simp_all

/-- Bytes without a stretch are none. -/
theorem Utf8.eq_nil_of_chunks {bytes : Bytes} (h : Utf8.chunks bytes = []) : bytes = [] := by
  cases bytes with
  | nil => rfl
  | cons byte rest =>
      unfold chunks chunksFrom at h
      split at h
      · exact absurd h (chunks_from_ne_nil (.inl (List.cons_ne_nil _ _)))
      · exact absurd h (chunks_from_ne_nil (.inr (Option.some_ne_none _)))
      · exact absurd h (chunks_from_ne_nil (.inl (List.cons_ne_nil _ _)))

/-- A long option without a value is its name after two minus signs. -/
theorem Argument.eq_of_long {bytes word : Bytes} (h : Argument.ofBytes bytes = .long word none) :
    bytes = [Argument.minus, Argument.minus] ++ word := by
  unfold Argument.ofBytes at h
  split at h
  · cases h
  · rename_i rest hne hdrop
    obtain ⟨hword, hvalue⟩ := Argument.long.inj h
    have hrest : rest.takeWhile (· ≠ Argument.equals) = rest := by
      split at hvalue
      · assumption
      · cases hvalue
    rw [(Text.dropStart?_eq_some_iff _ _ _).1 hdrop, ← hword, hrest]
  · split at h <;> cases h

/-- An argument with letters has at least one. -/
theorem Argument.letters_ne_nil {bytes letters : Bytes}
    (h : Argument.ofBytes bytes = .letters letters) : letters ≠ [] := by
  unfold Argument.ofBytes at h
  split at h
  · cases h
  · cases h
  · split at h
    · cases h
    · cases h
      assumption
    · cases h

namespace OptionName

/-- An option is found by its own long name. -/
theorem word_of_found {word : Bytes} {name : OptionName} (h : ofWord? word = some name) :
    Utf8.encode name.word = word := by
  simpa using List.find?_some h

/-- Of the options with a letter, all but the one for more messages end the reading. -/
theorem ends_of_letter {c : Char} {name : OptionName} (h : ofLetter? c = some name) (hc : c ≠ 'v') :
    name = .help ∨ name = .version := by
  have hletter : name.letter? = some c := by simpa using List.find?_some h
  cases name with
  | dryRun => cases hletter
  | differ => cases hletter
  | verbose =>
      cases hletter
      exact absurd rfl hc
  | help => exact .inl rfl
  | version => exact .inr rfl

end OptionName

namespace Arguments.Reader

variable {r s r' : Reader} {e : ArgumentError}

/-- Only paths are taken after the separator. -/
theorem run_separator (r : Reader) (rest : List Bytes) :
    r.run (separator :: rest) = r.runPaths rest := by
  have hform : Argument.ofBytes separator = .separator := by decide
  unfold Reader.run
  rw [hform]

/-- Any other argument is taken in its form. -/
theorem run_cons_of_ne {argument : Bytes} (h : argument ≠ separator) (r : Reader)
    (rest : List Bytes) :
    r.run (argument :: rest) =
      match r.take (Argument.ofBytes argument) with
      | .error request => request
      | .ok r => r.run rest := by
  rw [Reader.run]
  split
  · exact absurd (eq_separator_of_form ‹_›) h
  · rfl

/-! ## Examining -/

/-- After taking the word of a choice nothing is pending. -/
theorem take_choice_pending (r : Reader) (word : Bytes) :
    (r.takeChoice word).1.pending = .nothing := by
  unfold takeChoice
  split
  · rfl
  · split
    · rfl
    · split <;> rfl

/-- After examining it nothing is pending. -/
theorem settled_pending (h : r.settled = .ok s) : s.pending = .nothing := by
  have hpending : r.settle.1.pending = .nothing := by
    unfold settle
    split
    · assumption
    · rfl
    · exact take_choice_pending r _
    · rfl
  unfold settled at h
  split at h
  · rename_i hsettle
    cases h
    rwa [hsettle] at hpending
  · cases h

/-- A reader with nothing pending has nothing to examine. -/
theorem settled_of_nothing (h : r.pending = .nothing) : r.settled = .ok r := by
  unfold settled settle
  rw [h]

/-- The word of a choice is missing until it is taken. -/
theorem settled_of_choosing (h : r.pending = .choice none) : r.settled = .error .missingChoice := by
  unfold settled settle
  rw [h]

/-- No option is taken by a reader with a fault. -/
theorem take_option_unsettled (h : r.settled = .error e) (detailed : Bool) (name : OptionName) :
    r.takeOption detailed name = .error (.refused e) := by
  cases name <;> simp only [takeOption, takeFlag, finishWith, h]

/-- A reader with a fault refuses long options. -/
theorem take_long_unsettled (h : r.settled = .error e) (word : Bytes) (value : Option Bytes) :
    ∃ e', r.takeLong word value = .error (.refused e') := by
  unfold takeLong
  split
  · exact ⟨_, rfl⟩
  · exact ⟨e, take_option_unsettled h true _⟩
  · exact ⟨e, by simp only [h]⟩
  · exact ⟨_, rfl⟩

/-- A reader with a fault refuses letters. -/
theorem take_letters_unsettled (h : r.settled = .error e) (letters : List Utf8.Chunk) :
    letters = [] ∨ ∃ e', r.takeLetters letters = .error (.refused e') := by
  cases letters with
  | nil => exact .inl rfl
  | cons chunk rest =>
      refine .inr ?_
      cases chunk with
      | stray bytes => exact ⟨_, rfl⟩
      | char c =>
          unfold takeLetters
          split
          · exact ⟨_, rfl⟩
          · exact ⟨e, by simp only [take_option_unsettled h]⟩

/-! ## Readers with a fault -/

/-- What is pending has a fault, and it is not the word of a choice that is missing. -/
def Stuck (r : Reader) : Prop :=
  (∃ e, r.settled = .error e) ∧ r.pending ≠ .choice none

/-- A reader that is stuck refuses a path or stays stuck. -/
theorem Stuck.take_path (h : r.Stuck) (path : Path) :
    (∃ e, r.takePath path = .error (.refused e)) ∨ ∃ r', r.takePath path = .ok r' ∧ r'.Stuck := by
  obtain ⟨⟨e, hsettled⟩, -⟩ := h
  unfold takePath
  split
  · rename_i paths hpending
    refine .inr ⟨_, rfl, ?_, fun h => nomatch h⟩
    -- The empty path that is at fault is still among the paths.
    have hempty : [] ∈ paths := by
      rcases Classical.em ([] ∈ paths) with hempty | hempty
      · exact hempty
      · simp [settled, settle, hpending, hempty] at hsettled
    exact ⟨.emptyPath, by simp [settled, settle, hempty]⟩
  · exact .inl ⟨e, by simp only [hsettled]⟩

/-- A reader that is stuck refuses an argument or stays stuck. -/
theorem Stuck.take (h : r.Stuck) (form : Argument) :
    (∃ e, r.take form = .error (.refused e)) ∨ ∃ r', r.take form = .ok r' ∧ r'.Stuck := by
  obtain ⟨e, hsettled⟩ := h.1
  cases form with
  | separator => exact .inr ⟨r, rfl, h⟩
  | long word value => exact .inl (take_long_unsettled hsettled word value)
  | letters letters =>
      rcases take_letters_unsettled hsettled (Utf8.chunks letters) with hnil | hrefused
      · exact .inr ⟨r, by simp only [Reader.take, hnil, takeLetters], h⟩
      · exact .inl hrefused
  | plain word =>
      have hplain : r.take (.plain word) = r.takePath word := by
        simp only [Reader.take, takePlain]
        split
        · exact absurd ‹_› h.2
        · rfl
      rw [hplain]
      exact h.take_path word

/-- A reader that is stuck ends with a refusal. -/
theorem Stuck.finish (h : r.Stuck) : ∃ e, r.finish = .refused e := by
  obtain ⟨⟨e, hsettled⟩, -⟩ := h
  exact ⟨e, by simp only [Reader.finish, hsettled]⟩

/-- A reader that is stuck ends with a refusal after the separator, too. -/
theorem Stuck.run_paths (h : r.Stuck) (arguments : List Bytes) :
    ∃ e, r.runPaths arguments = .refused e := by
  induction arguments generalizing r with
  | nil => exact h.finish
  | cons argument rest ih =>
      unfold runPaths
      rcases h.take_path argument with ⟨e, he⟩ | ⟨r', hr', hstuck⟩
      · exact ⟨e, by rw [he]⟩
      · rw [hr']
        exact ih hstuck

/-- A reader that is stuck ends with a refusal, whatever arguments come. -/
theorem Stuck.run (h : r.Stuck) (arguments : List Bytes) : ∃ e, r.run arguments = .refused e := by
  induction arguments generalizing r with
  | nil => exact h.finish
  | cons argument rest ih =>
      unfold Reader.run
      split
      · exact h.run_paths rest
      · rcases h.take (Argument.ofBytes argument) with ⟨e, he⟩ | ⟨r', hr', hstuck⟩
        · exact ⟨e, by rw [he]⟩
        · rw [hr']
          exact ih hstuck

/-- A reader without a fault takes a path; an empty one is a fault that stays. -/
theorem take_path_settled (h : r.settled = .ok r') (path : Path) :
    ∃ t, r.takePath path = .ok t ∧ (path = [] → t.Stuck) ∧
      (path ≠ [] → t.settled = .ok ⟨r'.given, r'.choice, r'.paths ++ [path], .nothing⟩) := by
  unfold takePath
  split
  · rename_i paths hpending
    have hempty : [] ∉ paths := by
      intro hempty
      simp [settled, settle, hpending, hempty] at h
    obtain rfl : ⟨r.given, r.choice, r.paths ++ paths, .nothing⟩ = r' := by
      simpa [settled, settle, hpending, hempty] using h
    refine ⟨_, rfl, fun hpath => ⟨⟨.emptyPath, ?_⟩, fun h => nomatch h⟩, fun hpath => ?_⟩
    · simp [settled, settle, hpath]
    · simp [settled, settle, hempty, Ne.symm hpath]
  · refine ⟨⟨r'.given, r'.choice, r'.paths, .paths [path]⟩, by simp only [h],
      fun hpath => ⟨⟨.emptyPath, ?_⟩, fun h => nomatch h⟩, fun hpath => ?_⟩
    · simp [settled, settle, hpath]
    · simp [settled, settle, Ne.symm hpath]

end Arguments.Reader

end QueryTidy
