import QueryTidy.Proofs.CommandLine.Pending

/-!
# One more option

What is asked for does not depend on the option for more messages, but for the messages. Two readers
of which the second has taken this option besides what the first has taken (`Reader.Louder`) answer
every argument alike as long as nothing is wrong with the arguments (`Reader.Follows.take`). A
reader with a fault that no argument can mend (`Reader.Stuck`) ends with a refusal, so the faults
need not be compared. Hence the option may be put in front of any argument before the separator that
is not the word of a choice (`read_insert`). What an argument without it makes of a reader is said
once (`Reader.Taken`).
-/

namespace QueryTidy

/-- What is asked for, with more messages if it is a run. -/
def Request.louder : Request → Request
  | .run o => .run { o with verbose := true }
  | request => request

namespace Arguments

/-- The argument that asks for more messages by its letter. -/
def verboseFlag : Bytes := Utf8.encode "-v".toList

/-- The argument after which the word of a choice may follow. -/
def differFlag : Bytes := Utf8.encode "--differ".toList

/-- The form of an argument that asks for more messages: the option by its name, or its letter among
others. -/
def asksVerbose : Argument → Bool
  | .long word none => word = Utf8.encode OptionName.verbose.word
  | .letters letters => Utf8.Chunk.char 'v' ∈ Utf8.chunks letters
  | _ => false

namespace Reader

variable {r s r' s' : Reader} {form : Argument} {e : ArgumentError}

/-! ## Two readers -/

/-- The second reader has taken what the first has taken and the option for more messages. -/
structure Louder (r s : Reader) : Prop where
  given : ∀ name, name ∈ s.given ↔ name = .verbose ∨ name ∈ r.given
  choice : s.choice = r.choice
  paths : s.paths = r.paths

/-- The second reader has taken what the first has taken and the option for more messages, once what
is pending is examined; or both have yet to take the word of a choice. -/
inductive Follows (r s : Reader) : Prop where
  | settled {r' s' : Reader} : r.settled = .ok r' → s.settled = .ok s' → Louder r' s' →
      Follows r s
  | choosing : r.pending = .choice none → s.pending = .choice none → Louder r s → Follows r s

/-- What two readers that follow each other make of an argument: both go on, or both end with the
same answer; or the first is bound to end with a refusal. -/
inductive Answers : Except Request Reader → Except Request Reader → Prop where
  | goOn {r s : Reader} : Follows r s → Answers (.ok r) (.ok s)
  | ended {request : Request} : request.louder = request →
      Answers (.error request) (.error request)
  | refused (e : ArgumentError) (answer : Except Request Reader) :
      Answers (.error (.refused e)) answer
  | stuck {r : Reader} (answer : Except Request Reader) : r.Stuck → Answers (.ok r) answer

/-- Readers without anything pending follow each other. -/
theorem Louder.follows (h : Louder r s) (hr : r.pending = .nothing) (hs : s.pending = .nothing) :
    Follows r s :=
  .settled (settled_of_nothing hr) (settled_of_nothing hs) h

/-- One more option is taken by both readers. -/
theorem Louder.given_append (h : Louder r s) (option : OptionName) (name : OptionName) :
    name ∈ s.given ++ [option] ↔ name = .verbose ∨ name ∈ r.given ++ [option] := by
  rw [List.mem_append, List.mem_append, h.given, or_assoc]

/-- Both readers take the word of a choice, unless the first refuses it. -/
theorem Louder.take_choice (h : Louder r s) (word : Bytes) :
    (∃ r' e, r.takeChoice word = (r', some e)) ∨
      ∃ r' s', r.takeChoice word = (r', none) ∧ s.takeChoice word = (s', none) ∧
        Louder r' s' ∧ Follows r' s' := by
  have hgiven : OptionName.differ ∈ s.given ↔ OptionName.differ ∈ r.given := by simp [h.given]
  unfold takeChoice
  simp only [hgiven]
  split
  · exact .inl ⟨_, _, rfl⟩
  · split
    · exact .inl ⟨_, _, rfl⟩
    · split
      · have hlouder : ∀ choice, Louder ⟨r.given ++ [.differ], choice, r.paths, .nothing⟩
            ⟨s.given ++ [.differ], choice, s.paths, .nothing⟩ := fun choice =>
          ⟨h.given_append .differ, rfl, h.paths⟩
        exact .inr ⟨_, _, rfl, rfl, hlouder _, (hlouder _).follows rfl rfl⟩
      · exact .inl ⟨_, _, rfl⟩

/-- Both readers take an option, unless it was taken before. -/
theorem Louder.take_flag (h : Louder r' s') (hr : r.settled = .ok r') (hs : s.settled = .ok s')
    {name : OptionName} (hname : name ≠ .verbose) :
    Answers (r.takeFlag name) (s.takeFlag name) := by
  have hgiven : name ∈ s'.given ↔ name ∈ r'.given := by simp [h.given, hname]
  unfold takeFlag
  simp only [hr, hs, hgiven]
  split
  · exact .refused _ _
  · have hpending := settled_pending hr
    have hpending' := settled_pending hs
    exact .goOn (Louder.follows ⟨h.given_append name, h.choice, h.paths⟩ hpending hpending')

/-- Both readers take any option but that for more messages. -/
theorem Louder.take_option (h : Louder r' s') (hr : r.settled = .ok r') (hs : s.settled = .ok s')
    (detailed : Bool) {name : OptionName} (hname : name ≠ .verbose) :
    Answers (r.takeOption detailed name) (s.takeOption detailed name) := by
  cases name with
  | dryRun => exact h.take_flag hr hs hname
  | verbose => exact absurd rfl hname
  | help =>
      simp only [takeOption, finishWith, hr, hs]
      exact .ended rfl
  | version =>
      simp only [takeOption, finishWith, hr, hs]
      exact .ended rfl
  | differ =>
      simp only [takeOption, hr, hs]
      exact .goOn (.choosing rfl rfl ⟨h.given, h.choice, h.paths⟩)

/-- Both readers take an option by its long name. -/
theorem Louder.take_long (h : Louder r' s') (hr : r.settled = .ok r') (hs : s.settled = .ok s')
    {word : Bytes} {value : Option Bytes} (hquiet : asksVerbose (.long word value) = false) :
    Answers (r.takeLong word value) (s.takeLong word value) := by
  unfold takeLong
  split
  · exact .refused _ _
  · rename_i name hword
    refine h.take_option hr hs true ?_
    rintro rfl
    simp [asksVerbose, OptionName.word_of_found hword] at hquiet
  · rename_i choice hword
    simp only [hr, hs]
    rcases h.take_choice choice with ⟨r'', e, hchoice⟩ | ⟨r'', s'', hchoice, hchoice', -, hfollows⟩
    · simp only [hchoice]
      exact .refused _ _
    · simp only [hchoice, hchoice']
      exact .goOn hfollows
  · exact .refused _ _

/-- Both readers take letters. Those other than the one for more messages end the reading. -/
theorem Louder.take_letters (h : Louder r' s') (hr : r.settled = .ok r') (hs : s.settled = .ok s')
    {letters : List Utf8.Chunk} (hquiet : Utf8.Chunk.char 'v' ∉ letters) :
    Answers (r.takeLetters letters) (s.takeLetters letters) := by
  cases letters with
  | nil => exact .goOn (.settled hr hs h)
  | cons chunk rest =>
      cases chunk with
      | stray bytes => exact .refused _ _
      | char c =>
          have hc : c ≠ 'v' := by
            rintro rfl
            exact hquiet List.mem_cons_self
          unfold takeLetters
          cases hletter : OptionName.ofLetter? c with
          | none => exact .refused _ _
          | some name =>
              rcases OptionName.ends_of_letter hletter hc with rfl | rfl
              · simp only [takeOption, finishWith, hr, hs]
                exact .ended rfl
              · simp only [takeOption, finishWith, hr, hs]
                exact .ended rfl

/-- Both readers take a path. -/
theorem Louder.take_path (h : Louder r' s') (hr : r.settled = .ok r') (hs : s.settled = .ok s')
    (path : Path) : Answers (r.takePath path) (s.takePath path) := by
  obtain ⟨t, ht, hstuck, hsettled⟩ := take_path_settled hr path
  obtain ⟨u, hu, -, hsettled'⟩ := take_path_settled hs path
  rw [ht, hu]
  by_cases hpath : path = []
  · exact .stuck _ (hstuck hpath)
  · exact .goOn (.settled (hsettled hpath) (hsettled' hpath)
      ⟨h.given, h.choice, by simp only [h.paths]⟩)

/-- Both readers take any argument that does not ask for more messages. -/
theorem Louder.take (h : Louder r' s') (hr : r.settled = .ok r') (hs : s.settled = .ok s')
    (hquiet : asksVerbose form = false) : Answers (r.take form) (s.take form) := by
  cases form with
  | separator => exact .goOn (.settled hr hs h)
  | long word value => exact h.take_long hr hs hquiet
  | letters letters => exact h.take_letters hr hs (by simpa [asksVerbose] using hquiet)
  | plain word =>
      have hplain : ∀ {t t' : Reader}, t.settled = .ok t' →
          t.take (.plain word) = t.takePath word := by
        intro t t' ht
        simp only [Reader.take, takePlain]
        split
        · rw [settled_of_choosing ‹_›] at ht
          cases ht
        · rfl
      rw [hplain hr, hplain hs]
      exact h.take_path hr hs word

/-- Both readers take the word of a choice after its option; it is examined later, with the same
outcome as at once. -/
theorem Louder.take_word (h : Louder r s) (word : Bytes) :
    Answers (.ok ⟨r.given, r.choice, r.paths, .choice (some word)⟩)
      (.ok ⟨s.given, s.choice, s.paths, .choice (some word)⟩) := by
  have hlater : ∀ t : Reader, settle ⟨t.given, t.choice, t.paths, .choice (some word)⟩ =
      t.takeChoice word := fun t => rfl
  have hsettled : ∀ {t t' : Reader}, t.takeChoice word = (t', none) →
      Reader.settled ⟨t.given, t.choice, t.paths, .choice (some word)⟩ = .ok t' := by
    intro t t' ht
    unfold Reader.settled
    rw [hlater, ht]
  rcases h.take_choice word with ⟨r', e, hchoice⟩ | ⟨r', s', hchoice, hchoice', h', -⟩
  · refine .stuck _ ⟨⟨e, ?_⟩, by simp⟩
    unfold Reader.settled
    rw [hlater, hchoice]
  · exact .goOn (.settled (hsettled hchoice) (hsettled hchoice') h')

/-- Where the word of a choice may follow, both readers take it, and the first refuses options. -/
theorem Louder.take_choosing (h : Louder r s) (hr : r.pending = .choice none)
    (hs : s.pending = .choice none) (form : Argument) : Answers (r.take form) (s.take form) := by
  have hfault := settled_of_choosing hr
  cases form with
  | separator => exact .goOn (.choosing hr hs h)
  | long word value =>
      obtain ⟨e, he⟩ := take_long_unsettled hfault word value
      rw [Reader.take, he]
      exact .refused _ _
  | letters letters =>
      rcases take_letters_unsettled hfault (Utf8.chunks letters) with hnil | ⟨e, he⟩
      · simp only [Reader.take, hnil, takeLetters]
        exact .goOn (.choosing hr hs h)
      · rw [Reader.take, he]
        exact .refused _ _
  | plain word =>
      simp only [Reader.take, takePlain, hr, hs]
      exact h.take_word word

/-- Readers that follow each other take any argument that does not ask for more messages. -/
theorem Follows.take (h : Follows r s) (hquiet : asksVerbose form = false) :
    Answers (r.take form) (s.take form) := by
  cases h with
  | settled hr hs hlouder => exact hlouder.take hr hs hquiet
  | choosing hr hs hlouder => exact hlouder.take_choosing hr hs form

/-- Readers that make of an argument what they do ask for the same in the end, but for the messages,
if those that go on do. -/
theorem Answers.same {answer answer' : Except Request Reader} (h : Answers answer answer')
    (rest : Reader → Request)
    (hrest : ∀ r s, Follows r s → (∀ e, rest r ≠ .refused e) → rest s = (rest r).louder)
    (hstuck : ∀ r : Reader, r.Stuck → ∃ e, rest r = .refused e)
    (haccepted : ∀ e, (match answer with
      | .error request => request
      | .ok r => rest r) ≠ .refused e) :
    (match answer' with
      | .error request => request
      | .ok s => rest s) =
    (match answer with
      | .error request => request
      | .ok r => rest r).louder := by
  cases h with
  | goOn hfollows => exact hrest _ _ hfollows haccepted
  | ended hsame => exact hsame.symm
  | refused e => exact absurd rfl (haccepted e)
  | stuck _ hfault =>
      obtain ⟨e, he⟩ := hstuck _ hfault
      exact absurd he (haccepted e)

/-- At the end of the arguments both readers ask for the same, but for the messages. -/
theorem Follows.finish (h : Follows r s) (haccepted : ∀ e, r.finish ≠ .refused e) :
    s.finish = r.finish.louder := by
  cases h with
  | settled hr hs hlouder =>
      have hverbose : OptionName.verbose ∈ _ := (hlouder.given .verbose).2 (.inl rfl)
      have hdryRun := hlouder.given .dryRun
      simp only [reduceCtorEq, false_or] at hdryRun
      unfold Reader.finish at haccepted ⊢
      simp only [hr] at haccepted
      simp only [hr, hs, hlouder.paths, hlouder.choice, hdryRun, hverbose]
      split
      · exact absurd (by rw [if_pos ‹_›]) (haccepted _)
      · rfl
  | choosing hr hs hlouder =>
      exact absurd (by simp only [Reader.finish, settled_of_choosing hr]) (haccepted .missingChoice)

/-- After the separator both readers ask for the same, but for the messages. -/
theorem Follows.run_paths (h : Follows r s) {arguments : List Bytes}
    (haccepted : ∀ e, r.runPaths arguments ≠ .refused e) :
    s.runPaths arguments = (r.runPaths arguments).louder := by
  induction arguments generalizing r s with
  | nil => exact h.finish haccepted
  | cons path rest ih =>
      unfold runPaths at haccepted ⊢
      have hanswers : Answers (r.takePath path) (s.takePath path) := by
        cases h with
        | settled hr hs hlouder => exact hlouder.take_path hr hs path
        | choosing hr hs hlouder =>
            have hrefused : r.takePath path = .error (.refused .missingChoice) := by
              simp only [takePath, hr, settled_of_choosing hr]
            rw [hrefused]
            exact .refused _ _
      exact hanswers.same (fun r => r.runPaths rest) (fun _ _ hfollows => ih hfollows)
        (fun _ hstuck => hstuck.run_paths rest) haccepted

/-- Both readers ask for the same, but for the messages, if no argument before the separator asks
for more of them. -/
theorem Follows.run (h : Follows r s) {arguments : List Bytes}
    (hquiet : ∀ argument ∈ arguments.takeWhile (· ≠ separator),
      asksVerbose (Argument.ofBytes argument) = false)
    (haccepted : ∀ e, r.run arguments ≠ .refused e) :
    s.run arguments = (r.run arguments).louder := by
  induction arguments generalizing r s with
  | nil => exact h.finish haccepted
  | cons argument rest ih =>
      by_cases hseparator : argument = separator
      · subst hseparator
        rw [run_separator] at haccepted ⊢
        rw [run_separator]
        exact h.run_paths haccepted
      · rw [List.takeWhile_cons_of_pos (by simpa using hseparator)] at hquiet
        obtain ⟨hargument, hrest⟩ := List.forall_mem_cons.1 hquiet
        rw [run_cons_of_ne hseparator] at haccepted ⊢
        rw [run_cons_of_ne hseparator]
        exact (h.take hargument).same (fun r => r.run rest) (fun _ _ hfollows => ih hfollows hrest)
          (fun _ hstuck => hstuck.run rest) haccepted

/-! ## The place of the option -/

/-- Taking the word of a choice adds no other option. -/
theorem given_of_take_choice {name : OptionName} (hname : name ≠ .differ) {word : Bytes}
    (h : name ∈ (r.takeChoice word).1.given) : name ∈ r.given := by
  have happend : name ∈ r.given ++ [OptionName.differ] → name ∈ r.given := by
    simp [hname]
  unfold takeChoice at h
  split at h
  · exact List.mem_of_mem_erase h
  · split at h
    · exact happend h
    · split at h <;> exact happend h

/-- Examining what is pending adds no option but a choice. -/
theorem given_of_settled {name : OptionName} (hname : name ≠ .differ) (hs : r.settled = .ok s)
    (h : name ∈ s.given) : name ∈ r.given := by
  have hgiven : name ∈ r.settle.1.given → name ∈ r.given := by
    unfold settle
    split
    · exact id
    · exact id
    · exact given_of_take_choice hname
    · exact id
  unfold settled at hs
  split at hs
  · rename_i hsettle
    cases hs
    rw [hsettle] at hgiven
    exact hgiven h
  · cases hs

/-- After taking an option without a value nothing is pending, and the options that were taken are
that one and those that were taken before. -/
theorem of_take_flag {flag : OptionName} (hs : r.takeFlag flag = .ok s) :
    s.pending = .nothing ∧
      ∀ name, name ≠ .differ → name ∈ s.given → name ∈ r.given ∨ name = flag := by
  unfold takeFlag at hs
  split at hs
  · cases hs
  · rename_i hsettled
    split at hs
    · cases hs
    · have hpending := settled_pending hsettled
      cases hs
      refine ⟨hpending, fun name hname h => ?_⟩
      rcases List.mem_append.1 h with h | h
      · exact .inl (given_of_settled hname hsettled h)
      · exact .inr (List.mem_singleton.1 h)

/-- Letters other than the one for more messages do not let the reading go on. -/
theorem eq_nil_of_take_letters {letters : List Utf8.Chunk}
    (hquiet : Utf8.Chunk.char 'v' ∉ letters) (hs : r.takeLetters letters = .ok s) :
    letters = [] := by
  cases letters with
  | nil => rfl
  | cons chunk rest =>
      cases chunk with
      | stray bytes => cases hs
      | char c =>
          have hc : c ≠ 'v' := by
            rintro rfl
            exact hquiet List.mem_cons_self
          unfold takeLetters at hs
          cases hletter : OptionName.ofLetter? c with
          | none => simp [hletter] at hs
          | some name =>
              simp only [hletter] at hs
              split at hs
              · cases hs
              · rename_i htaken
                rcases OptionName.ends_of_letter hletter hc with rfl | rfl
                · exact absurd htaken (finish_with_ne_ok _)
                · exact absurd htaken (finish_with_ne_ok _)

/-- What a reader that goes on after an argument has become, if the argument does not ask for more
messages. -/
inductive Taken (r : Reader) : Argument → Reader → Prop where
  | separator : Taken r .separator r
  | letters {letters : Bytes} : Utf8.chunks letters = [] → Taken r (.letters letters) r
  | word {word : Bytes} : r.pending = .choice none →
      Taken r (.plain word) ⟨r.given, r.choice, r.paths, .choice (some word)⟩
  | morePaths {path : Path} {paths : List Path} : r.pending = .paths paths →
      Taken r (.plain path) ⟨r.given, r.choice, r.paths, .paths (paths ++ [path])⟩
  | firstPath {r' : Reader} {path : Path} : r.settled = .ok r' →
      Taken r (.plain path) ⟨r'.given, r'.choice, r'.paths, .paths [path]⟩
  | dryRun {word : Bytes} {s : Reader} : r.takeFlag .dryRun = .ok s → Taken r (.long word none) s
  | differ {word : Bytes} {r' : Reader} : OptionName.ofWord? word = some .differ →
      r.settled = .ok r' →
        Taken r (.long word none) ⟨r'.given, r'.choice, r'.paths, .choice none⟩
  | choice {word value : Bytes} {r' s : Reader} : r.settled = .ok r' →
      r'.takeChoice value = (s, none) → Taken r (.long word (some value)) s

/-- A long option is taken in one of these ways. -/
theorem taken_of_take_long {word : Bytes} {value : Option Bytes}
    (hquiet : asksVerbose (.long word value) = false) (hs : r.takeLong word value = .ok s) :
    Taken r (.long word value) s := by
  unfold takeLong at hs
  split at hs
  · cases hs
  · rename_i name hword
    cases name with
    | dryRun => exact .dryRun hs
    | verbose => simp [asksVerbose, OptionName.word_of_found hword] at hquiet
    | help => exact absurd hs (finish_with_ne_ok _)
    | version => exact absurd hs (finish_with_ne_ok _)
    | differ =>
        simp only [takeOption] at hs
        split at hs
        · cases hs
        · rename_i hsettled
          cases hs
          exact .differ hword hsettled
  · split at hs
    · cases hs
    · rename_i hsettled
      split at hs
      · rename_i hchoice
        cases hs
        exact .choice hsettled hchoice
      · cases hs
  · cases hs

/-- An argument that does not ask for more messages is taken in one of these ways. -/
theorem taken_of_take (hquiet : asksVerbose form = false) (hs : r.take form = .ok s) :
    Taken r form s := by
  cases form with
  | separator =>
      cases hs
      exact .separator
  | plain word =>
      simp only [Reader.take, takePlain] at hs
      split at hs
      · rename_i hpending
        cases hs
        exact .word hpending
      · unfold takePath at hs
        split at hs
        · rename_i hpending
          cases hs
          exact .morePaths hpending
        · split at hs
          · cases hs
          · rename_i hsettled
            cases hs
            exact .firstPath hsettled
  | letters letters =>
      have hnil : Utf8.chunks letters = [] :=
        eq_nil_of_take_letters (by simpa [asksVerbose] using hquiet) hs
      simp only [Reader.take, hnil, takeLetters, Except.ok.injEq] at hs
      cases hs
      exact .letters hnil
  | long word value => exact taken_of_take_long hquiet hs

/-- The option for more messages is taken only with an argument that asks for them. -/
theorem Taken.verbose (h : Taken r form s) (hverbose : .verbose ∈ s.given) :
    .verbose ∈ r.given := by
  cases h with
  | separator => exact hverbose
  | letters => exact hverbose
  | word => exact hverbose
  | morePaths => exact hverbose
  | firstPath hsettled => exact given_of_settled (by decide) hsettled hverbose
  | differ _ hsettled => exact given_of_settled (by decide) hsettled hverbose
  | dryRun hflag => exact ((of_take_flag hflag).2 .verbose (by decide) hverbose).resolve_right nofun
  | @choice _ value r' _ hsettled hchoice =>
      have hgiven : .verbose ∈ (r'.takeChoice value).1.given := by rwa [hchoice]
      exact given_of_settled (by decide) hsettled (given_of_take_choice (by decide) hgiven)

/-- The word of a choice is waited for only after the option for it. -/
theorem differ_of_choosing {argument : Bytes} (hseparator : argument ≠ separator)
    (h : Taken r (Argument.ofBytes argument) s) (hpending : s.pending = .choice none) :
    argument = differFlag := by
  generalize hform : Argument.ofBytes argument = form at h
  cases h with
  | separator => exact absurd (eq_separator_of_form hform) hseparator
  | letters hnil => exact absurd (Utf8.eq_nil_of_chunks hnil) (Argument.letters_ne_nil hform)
  | word => cases hpending
  | morePaths => cases hpending
  | firstPath => cases hpending
  | dryRun hflag =>
      rw [(of_take_flag hflag).1] at hpending
      cases hpending
  | differ hword =>
      rw [Argument.eq_of_long hform, ← OptionName.word_of_found hword]
      decide
  | @choice _ value r' _ _ hchoice =>
      have hnothing := take_choice_pending r' value
      rw [hchoice, hpending] at hnothing
      cases hnothing

/-- A reader that has not taken the option for more messages takes it, unless what is pending has a
fault. -/
theorem take_verbose_flag (h : OptionName.verbose ∉ r.given)
    (hchoosing : r.pending ≠ .choice none) :
    r.Stuck ∨ ∃ s, r.take (Argument.ofBytes verboseFlag) = .ok s ∧ Follows r s := by
  have hform : Argument.ofBytes verboseFlag = .letters (Utf8.encode ['v']) := by decide
  have hchunks : Utf8.chunks (Utf8.encode ['v']) = [.char 'v'] := by decide
  have hletter : OptionName.ofLetter? 'v' = some .verbose := by decide
  cases hsettled : r.settled with
  | error e => exact .inl ⟨⟨e, hsettled⟩, hchoosing⟩
  | ok r' =>
      have hnew : OptionName.verbose ∉ r'.given := fun hmem =>
        h (given_of_settled (by decide) hsettled hmem)
      refine .inr ⟨⟨r'.given ++ [.verbose], r'.choice, r'.paths, r'.pending⟩, ?_, ?_⟩
      · simp only [hform, Reader.take, hchunks, takeLetters, hletter, takeOption, takeFlag,
          hsettled, hnew, ↓reduceIte]
      · have hpending := settled_pending hsettled
        refine .settled hsettled (settled_of_nothing hpending) ⟨fun name => ?_, rfl, rfl⟩
        rw [List.mem_append, List.mem_singleton, or_comm]

/-- The option for more messages may come at any place at which no word of a choice is waited
for. -/
theorem run_insert {before after : List Bytes} (hgiven : OptionName.verbose ∉ r.given)
    (hchoosing : before = [] → r.pending ≠ .choice none)
    (hquiet : ∀ argument ∈ (before ++ after).takeWhile (· ≠ separator),
      asksVerbose (Argument.ofBytes argument) = false)
    (hseparator : separator ∉ before) (hdiffer : before.getLast? ≠ some differFlag)
    (haccepted : ∀ e, r.run (before ++ after) ≠ .refused e) :
    r.run (before ++ verboseFlag :: after) = (r.run (before ++ after)).louder := by
  induction before generalizing r with
  | nil =>
      rw [List.nil_append] at hquiet haccepted ⊢
      rw [List.nil_append, run_cons_of_ne (by decide)]
      rcases take_verbose_flag hgiven (hchoosing rfl) with hstuck | ⟨s, hs, hfollows⟩
      · obtain ⟨e, he⟩ := hstuck.run after
        exact absurd he (haccepted e)
      · rw [hs]
        exact hfollows.run hquiet haccepted
  | cons argument rest ih =>
      obtain ⟨hne, hrest⟩ := not_or.1 (fun h => hseparator (List.mem_cons.2 h))
      rw [List.cons_append, List.takeWhile_cons_of_pos (by simpa using Ne.symm hne)] at hquiet
      obtain ⟨hargument, hquiet⟩ := List.forall_mem_cons.1 hquiet
      rw [List.cons_append, run_cons_of_ne (Ne.symm hne)] at haccepted ⊢
      rw [List.cons_append, run_cons_of_ne (Ne.symm hne)]
      cases htaken : r.take (Argument.ofBytes argument) with
      | error request =>
          cases request with
          | run o => exact absurd htaken take_ne_run
          | _ => rfl
      | ok s =>
          rw [htaken] at haccepted
          have hstep := taken_of_take hargument htaken
          refine ih (fun h => hgiven (hstep.verbose h)) (fun hnil hpending => ?_) hquiet hrest
            (fun hlast => ?_) haccepted
          · rw [hnil, List.getLast?_singleton] at hdiffer
            exact hdiffer (congrArg some (differ_of_choosing (Ne.symm hne) hstep hpending))
          · rw [List.getLast?_cons, hlast] at hdiffer
            exact hdiffer rfl

end Reader

/-- Accepted arguments that do not ask for more messages ask for the same with the option put among
those before the separator, but for the messages, if it does not separate the option for a choice
from its word. -/
theorem read_insert {before after : List Bytes}
    (hquiet : ∀ argument ∈ (before ++ after).takeWhile (· ≠ separator),
      asksVerbose (Argument.ofBytes argument) = false)
    (hseparator : separator ∉ before) (hdiffer : before.getLast? ≠ some differFlag)
    (haccepted : ∀ e, read (before ++ after) ≠ .refused e) :
    read (before ++ verboseFlag :: after) = (read (before ++ after)).louder :=
  Reader.run_insert (fun h => nomatch h) (fun _ h => nomatch h) hquiet hseparator hdiffer haccepted

end Arguments

end QueryTidy
