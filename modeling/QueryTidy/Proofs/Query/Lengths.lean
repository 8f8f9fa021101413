import QueryTidy.Proofs.Query.Metrics

/-!
# Lengths of time in canonical form

A duration is written as numbers of any size with units (`WrittenDuration`); it denotes the sum of
its numbers times their units. Reading counts a number only if it fits 32 bits, and canonical form
distributes the total over other units, so a number that is written may fit although none that is
shown does, and the other way round. `durations_kept` says for every place of a duration in a query
what becomes of it: it keeps its length exactly if its own numbers fit, and it is read back exactly
if the numbers fit that are shown for it.
-/

namespace QueryTidy

open Token (Cuts Ends EndsName)

/-! ## Written durations -/

/-- A duration as it is written: numbers in digits, each with a unit, that are cut as one token. -/
structure WrittenDuration where
  parts : List (Text × TimeUnit)
  digits : Duration.HaveDigits parts
  token : Token.scanNumber (Duration.writtenText parts) =
    .ok (.duration (Duration.writtenText parts), [])

namespace WrittenDuration

/-- The text of a duration. -/
def text (d : WrittenDuration) : Text :=
  Duration.writtenText d.parts

/-- The milliseconds of numbers with units. -/
def sumOf (parts : List (Text × TimeUnit)) : Nat :=
  (parts.map fun part => Text.toNat part.1 * part.2.millis).sum

/-- The milliseconds that are denoted: the sum of the numbers times their units. -/
def millis (d : WrittenDuration) : Nat :=
  sumOf d.parts

/-- Every number fits 32 bits. -/
def Fits (d : WrittenDuration) : Prop :=
  ∀ part ∈ d.parts, Text.toNat part.1 < 2 ^ 32

instance (d : WrittenDuration) : Decidable d.Fits :=
  inferInstanceAs (Decidable (∀ part ∈ d.parts, _))

/-- The text of a duration determines its milliseconds. -/
theorem millis_of_text {d d' : WrittenDuration} (h : d.text = d'.text) : d.millis = d'.millis :=
  congrArg sumOf (Duration.written_text_inj d.digits d'.digits h)

/-- A duration has a first part, and no further part is a year. -/
theorem exists_first (d : WrittenDuration) :
    ∃ part parts, d.parts = part :: parts ∧ ∀ q ∈ parts, q.2 ≠ .year := by
  obtain ⟨parts, hdigits, htoken⟩ := d
  cases parts with
  | nil => cases htoken
  | cons part parts =>
      rw [← List.append_nil (Duration.writtenText _)] at htoken
      exact ⟨part, parts, rfl, Duration.no_further_year hdigits htoken⟩

/-- The text of a duration begins with a digit. -/
theorem head_digit (d : WrittenDuration) (rest : Text) :
    (d.text ++ rest).head?.any Text.isDigit = true := by
  obtain ⟨part, parts, hparts, -⟩ := d.exists_first
  have hdigits := d.digits
  rw [hparts] at hdigits
  obtain ⟨c, tail, hcons, hc⟩ := Duration.written_text_cons hdigits
  simp [text, hparts, hcons, hc]

variable {depth : Nat} {rest : Text}

/-- A duration is cut whole, whatever follows that does not go on with a name. -/
theorem scan_number (d : WrittenDuration) (hrest : EndsName rest) :
    Token.scanNumber (d.text ++ rest) = .ok (.duration d.text, rest) := by
  obtain ⟨part, parts, hparts, hyear⟩ := d.exists_first
  have hdigits := d.digits
  unfold text
  rw [hparts] at hdigits ⊢
  exact Duration.scan_number_written hdigits hyear hrest

/-- A duration is a token. -/
theorem step_plain (d : WrittenDuration) (hrest : EndsName rest) :
    Token.step ⟨depth, .plain⟩ (d.text ++ rest) =
      .emit (.duration d.text) ⟨depth, .plain⟩ rest :=
  step_number (d.scan_number hrest) (d.head_digit rest)

/-- A duration is a token between brackets. -/
theorem step_bracket (d : WrittenDuration) {fresh colon : Bool} (hrest : EndsName rest) :
    Token.step ⟨depth, .brackets fresh colon⟩ (d.text ++ rest) =
      .emit (.duration d.text) ⟨depth, .brackets false colon⟩ rest :=
  step_bracket_number (d.scan_number hrest) (d.head_digit rest)

/-! ## What is read -/

/-- What is read of numbers is at most what they denote, and it is that exactly if all of them fit
32 bits. -/
theorem read_total_cases (parts : List (Text × TimeUnit)) :
    Duration.readTotal parts ≤ sumOf parts ∧
      (Duration.readTotal parts = sumOf parts ↔ ∀ part ∈ parts, Text.toNat part.1 < 2 ^ 32) := by
  induction parts with
  | nil => exact ⟨le_rfl, by simp [Duration.readTotal, sumOf]⟩
  | cons part parts ih =>
      obtain ⟨hle, hiff⟩ := ih
      have hread : Duration.readTotal (part :: parts) =
          Duration.partCount part.1 * part.2.millis + Duration.readTotal parts := rfl
      have hsum : sumOf (part :: parts) = Text.toNat part.1 * part.2.millis + sumOf parts := by
        simp [sumOf]
      rw [hread, hsum, List.forall_mem_cons, ← hiff]
      unfold Duration.partCount
      split
      · rename_i hfits
        exact ⟨Nat.add_le_add_left hle _, by simp [hfits]⟩
      · rename_i hlarge
        -- A number that does not fit counts for nothing, although it is not zero.
        have hpos : 0 < Text.toNat part.1 * part.2.millis :=
          Nat.mul_pos (by omega) (Duration.millis_pos _)
        refine ⟨by omega, ⟨fun h => by omega, fun h => absurd h.1 hlarge⟩⟩

/-- What is read from the text of a duration is the total of the numbers that fit. -/
theorem read_eq {d : WrittenDuration} {x : Duration} (h : Duration.ofText d.text = .ok x) :
    x = Duration.ofMillis (Duration.readTotal d.parts) ∧ 0 < Duration.readTotal d.parts := by
  unfold Duration.ofText at h
  split at h
  · cases h
  · cases h
  · rename_i n hpos hread
    cases h
    rw [← Duration.read_written_total d.digits hread]
    exact ⟨rfl, Nat.pos_of_ne_zero hpos⟩

/-- A duration is read as what it denotes only if its numbers fit. -/
theorem fits_of_read {d : WrittenDuration}
    (h : Duration.ofText d.text = .ok (Duration.ofMillis d.millis)) : d.Fits := by
  obtain ⟨heq, -⟩ := read_eq h
  have hnanos : d.millis * 1000000 = Duration.readTotal d.parts * 1000000 :=
    congrArg Duration.nanos heq
  exact (read_total_cases d.parts).2.1 (by
    show _ = d.millis
    omega)

/-! ## What is shown -/

/-- The milliseconds of a number of milliseconds. -/
theorem millis_of_millis (n : Nat) : (Duration.ofMillis n).millis = n :=
  Nat.mul_div_cancel n (by decide)

/-- The text of a positive number of milliseconds is written in digits with units. -/
theorem to_text_of_millis {n : Nat} (hn : 0 < n) : (Duration.ofMillis n).toText =
    Duration.writtenText (Duration.inDigits (Duration.partsOf TimeUnit.all n)) := by
  have hnanos : (Duration.ofMillis n).nanos ≠ 0 := Nat.mul_ne_zero hn.ne' (by decide)
  rw [Duration.to_text_eq hnanos, Duration.spell_parts_eq, Duration.parts, millis_of_millis]

/-- The parts in which a positive number of milliseconds is shown. -/
def shown (n : Nat) (hn : 0 < n) : WrittenDuration where
  parts := Duration.inDigits (Duration.partsOf TimeUnit.all n)
  digits := Duration.in_digits_have_digits _
  token := by
    have hmillis : 0 < (Duration.ofMillis n).millis := by rwa [millis_of_millis]
    have hends : EndsName [] := rfl
    have hscan := (Duration.scan_number_duration hmillis hends).1
    rwa [List.append_nil, to_text_of_millis hn] at hscan

/-- The parts that are shown denote the number of milliseconds. -/
theorem millis_shown {n : Nat} (hn : 0 < n) : (shown n hn).millis = n := by
  have hsum : ∀ parts, sumOf (Duration.inDigits parts) = Duration.totalOf parts := by
    intro parts
    induction parts with
    | nil => rfl
    | cons part parts ih =>
        rw [Duration.totalOf, ← ih]
        simp [sumOf, Duration.inDigits, Text.to_nat_of_nat]
  show sumOf (Duration.inDigits _) = n
  rw [hsum, Duration.total_parts_of Duration.all_units.2.1]

/-- The parts that are shown are read as the number of milliseconds exactly if their numbers
fit. -/
theorem read_shown_iff {n : Nat} (hn : 0 < n) :
    Duration.ofText (shown n hn).text = .ok (Duration.ofMillis n) ↔ (shown n hn).Fits := by
  constructor
  · intro h
    refine fits_of_read ?_
    rw [millis_shown hn]
    exact h
  · intro hfits
    have htotal : Duration.readTotal (shown n hn).parts = n :=
      ((read_total_cases _).2.2 hfits).trans (millis_shown hn)
    have hsub := Duration.parts_units_sublist TimeUnit.all n
    have hread : Duration.readParts TimeUnit.all (shown n hn).text = some n := by
      have h := Duration.read_spell_parts Duration.all_units.1 hsub
      rw [Duration.spell_parts_eq] at h
      exact h.trans (congrArg some htotal)
    obtain ⟨k, rfl⟩ : ∃ k, n = k + 1 := ⟨n - 1, by omega⟩
    simp only [Duration.ofText, hread]

/-- In less than `2 ^ 32` days all numbers that are shown fit. -/
theorem fits_shown {n : Nat} (hn : 0 < n) (hless : n < 2 ^ 32 * TimeUnit.day.millis) :
    (shown n hn).Fits := by
  intro part hpart
  obtain ⟨count, hcount, rfl⟩ := List.mem_map.1 hpart
  have hday : TimeUnit.day ∈ TimeUnit.all := by decide
  have hfits := Duration.parts_of_lt Duration.all_units.2.2 hless (absurd hday) count hcount
  rwa [Text.to_nat_of_nat]

/-- How a duration is rewritten: the new one denotes the same length exactly if the numbers of the
old one fit 32 bits, and is read as what it denotes exactly if its own numbers do, as in less than
`2 ^ 32` days. It is never longer. -/
structure Rewritten (d d' : WrittenDuration) : Prop where
  same_iff : d'.millis = d.millis ↔ d.Fits
  read_iff : Duration.ofText d'.text = .ok (Duration.ofMillis d'.millis) ↔ d'.Fits
  fits_of_lt : d'.millis < 2 ^ 32 * TimeUnit.day.millis → d'.Fits
  le : d'.millis ≤ d.millis

/-- The text that is shown for a duration that was read is the duration rewritten. -/
theorem exists_rewritten {d : WrittenDuration} {x : Duration}
    (h : Duration.ofText d.text = .ok x) :
    ∃ d' : WrittenDuration, Rewritten d d' ∧ d'.text = x.toText ∧
      (d'.Fits → Duration.ofText d'.text = .ok x) := by
  obtain ⟨rfl, hpos⟩ := read_eq h
  obtain ⟨hle, hiff⟩ := read_total_cases d.parts
  have hmillis := millis_shown hpos
  refine ⟨shown _ hpos, ⟨?_, ?_, ?_, ?_⟩, (to_text_of_millis hpos).symm, (read_shown_iff hpos).2⟩
  · rw [hmillis]
    exact hiff
  · rw [hmillis]
    exact read_shown_iff hpos
  · rw [hmillis]
    exact fits_shown hpos
  · rw [hmillis]
    exact hle

end WrittenDuration

/-! ## Queries with durations -/

/-- The places of durations in a query about one metric: a range, an offset back or ahead, the range
of a subquery, and its range and its step. -/
inductive DurationForm (α : Type) where
  | range (d : α)
  | offset (ahead : Bool) (d : α)
  | subquery (d : α)
  | step (d s : α)

namespace DurationForm

variable {α β γ ε : Type}

/-- The same form with other durations. -/
def map (f : α → β) : DurationForm α → DurationForm β
  | .range d => .range (f d)
  | .offset ahead d => .offset ahead (f d)
  | .subquery d => .subquery (f d)
  | .step d s => .step (f d) (f s)

/-- The form, if all of its durations are there. -/
def sequence : DurationForm (Except ε α) → Except ε (DurationForm α)
  | .range d => d.map .range
  | .offset ahead d => d.map (.offset ahead)
  | .subquery d => d.map .subquery
  | .step d s => do
      let d ← d
      s.map (.step d)

/-- All durations of a form. -/
def durations : DurationForm α → List α
  | .range d => [d]
  | .offset _ d => [d]
  | .subquery d => [d]
  | .step d s => [d, s]

/-- Two forms are the same, and their durations are related. -/
inductive Rel (r : α → β → Prop) : DurationForm α → DurationForm β → Prop where
  | range {d : α} {d' : β} : r d d' → Rel r (.range d) (.range d')
  | offset (ahead : Bool) {d : α} {d' : β} :
      r d d' → Rel r (.offset ahead d) (.offset ahead d')
  | subquery {d : α} {d' : β} : r d d' → Rel r (.subquery d) (.subquery d')
  | step {d s : α} {d' s' : β} : r d d' → r s s' → Rel r (.step d s) (.step d' s')

/-- All durations of a form are there if each is. -/
theorem sequence_eq_ok_iff {f : α → Except ε β} {form : DurationForm α} {form' : DurationForm β} :
    (form.map f).sequence = .ok form' ↔ Rel (fun d d' => f d = .ok d') form form' := by
  constructor
  · intro h
    cases form with
    | range d =>
        obtain ⟨d', hd, rfl⟩ := Query.map_ok h
        exact .range hd
    | offset ahead d =>
        obtain ⟨d', hd, rfl⟩ := Query.map_ok h
        exact .offset ahead hd
    | subquery d =>
        obtain ⟨d', hd, rfl⟩ := Query.map_ok h
        exact .subquery hd
    | step d s =>
        cases hd : f d with
        | error e =>
            simp only [map, sequence, hd] at h
            cases h
        | ok d' =>
            simp only [map, sequence, hd] at h
            obtain ⟨s', hs, rfl⟩ := Query.map_ok h
            exact .step hd hs
  · intro h
    cases h with
    | range hd => simp only [map, sequence, hd, Except.map]
    | offset ahead hd => simp only [map, sequence, hd, Except.map]
    | subquery hd => simp only [map, sequence, hd, Except.map]
    | step hd hs =>
        simp only [map, sequence, hd, hs]
        rfl

/-- A relation through which each duration passes can be split. -/
theorem Rel.split {r : α → γ → Prop} {s : α → β → Prop} {t : β → γ → Prop}
    {form : DurationForm α} {form' : DurationForm γ} (h : Rel r form form')
    (hmid : ∀ d d', r d d' → ∃ m, s d m ∧ t m d') : ∃ mid, Rel s form mid ∧ Rel t mid form' := by
  cases h with
  | range hd =>
      obtain ⟨m, hs, ht⟩ := hmid _ _ hd
      exact ⟨.range m, .range hs, .range ht⟩
  | offset ahead hd =>
      obtain ⟨m, hs, ht⟩ := hmid _ _ hd
      exact ⟨.offset ahead m, .offset ahead hs, .offset ahead ht⟩
  | subquery hd =>
      obtain ⟨m, hs, ht⟩ := hmid _ _ hd
      exact ⟨.subquery m, .subquery hs, .subquery ht⟩
  | step hd hd' =>
      obtain ⟨m, hs, ht⟩ := hmid _ _ hd
      obtain ⟨m', hs', ht'⟩ := hmid _ _ hd'
      exact ⟨.step m m', .step hs hs', .step ht ht'⟩

/-- A relation between the durations of two forms that is known to imply another for those of the
first form. -/
theorem Rel.imp {r s : α → β → Prop} {form : DurationForm α} {form' : DurationForm β}
    (h : Rel r form form') (himp : ∀ d ∈ form.durations, ∀ d', r d d' → s d d') :
    Rel s form form' := by
  cases h with
  | range hd => exact .range (himp _ List.mem_cons_self _ hd)
  | offset ahead hd => exact .offset ahead (himp _ List.mem_cons_self _ hd)
  | subquery hd => exact .subquery (himp _ List.mem_cons_self _ hd)
  | step hd hs =>
      exact .step (himp _ List.mem_cons_self _ hd)
        (himp _ (List.mem_cons_of_mem _ List.mem_cons_self) _ hs)

/-- Forms of which the durations have the same images have the same image. -/
theorem Rel.map_eq {f : α → γ} {g : β → γ} {form : DurationForm α} {form' : DurationForm β}
    (h : Rel (fun d d' => f d = g d') form form') : form.map f = form'.map g := by
  cases h with
  | range hd => rw [map, map, hd]
  | offset ahead hd => rw [map, map, hd]
  | subquery hd => rw [map, map, hd]
  | step hd hs => rw [map, map, hd, hs]

/-! ## Texts and trees -/

/-- What follows the name of the metric. -/
def suffix : DurationForm Text → Text
  | .range d => '[' :: (d ++ [']'])
  | .offset ahead d =>
      ' ' :: (Reserved.offset.word ++ ' ' :: ((if ahead then ['-'] else []) ++ d))
  | .subquery d => '[' :: (d ++ [':', ']'])
  | .step d s => '[' :: (d ++ ':' :: (s ++ [']']))

/-- The text of a query about a metric. -/
def text (form : DurationForm WrittenDuration) (name : Text) : Text :=
  name ++ (form.map WrittenDuration.text).suffix

/-- The tokens of what follows the name. -/
def tokens : DurationForm Text → List Token
  | .range d => [.sign .leftBracket, .duration d, .sign .rightBracket]
  | .offset ahead d =>
      .reserved .offset Reserved.offset.word ::
        ((if ahead then [.sign .minus] else []) ++ [.duration d])
  | .subquery d =>
      [.sign .leftBracket, .duration d, .sign .colon, .sign .rightBracket]
  | .step d s =>
      [.sign .leftBracket, .duration d, .sign .colon, .duration s, .sign .rightBracket]

/-- The query about a metric. -/
def query (name : Text) : DurationForm Duration → Expr
  | .range d => .matrix (Selector.ofMetric name) d
  | .offset ahead d =>
      .vector { Selector.ofMetric name with timing := { offset := some ⟨ahead, d⟩ } }
  | .subquery d => .subquery (.vector (Selector.ofMetric name)) d none {}
  | .step d s => .subquery (.vector (Selector.ofMetric name)) d (some s) {}

/-- The canonical text of a query shows the text of each duration. -/
theorem pretty_query (form : DurationForm Duration) (name : Text) :
    (form.query name).pretty = name ++ (form.map Duration.toText).suffix := by
  have hhead : (Selector.ofMetric name).head = name := Selector.head_of_metric name {}
  have htiming : (Selector.ofMetric name).timing.toText = [] := rfl
  have hnone : Timing.toText {} = [] := rfl
  cases form with
  | range d =>
      rw [query, Expr.pretty_matrix, hhead, htiming]
      simp [map, suffix]
  | offset ahead d =>
      have hoffset : Timing.toText { offset := some ⟨ahead, d⟩ } =
          ' ' :: (Reserved.offset.word ++ ' ' :: ((if ahead then ['-'] else []) ++ d.toText)) := by
        cases ahead <;> rfl
      rw [query, Expr.pretty_vector, Selector.head_of_metric, hoffset]
      rfl
  | subquery d =>
      rw [query, Expr.pretty_subquery, Expr.pretty_vector, hhead, htiming, Expr.subqueryText, hnone]
      simp [map, suffix]
  | step d s =>
      rw [query, Expr.pretty_subquery, Expr.pretty_vector, hhead, htiming, Expr.subqueryText, hnone]
      simp [map, suffix]

/-- What follows the name is cut into its tokens. -/
theorem cuts_suffix (form : DurationForm WrittenDuration) :
    Cuts ⟨0, .plain⟩ (form.map WrittenDuration.text).suffix
      (form.map WrittenDuration.text).tokens ⟨0, .plain⟩ [] := by
  cases form with
  | range d => exact .next rfl (.next (d.step_bracket rfl) (.one rfl))
  | subquery d =>
      exact .next rfl (.next (d.step_bracket rfl) (.next rfl (.one rfl)))
  | step d s =>
      exact .next rfl
        (.next (d.step_bracket rfl) (.next rfl (.next (s.step_bracket rfl) (.one rfl))))
  | offset ahead d =>
      have hspan : Cuts ⟨0, .plain⟩ d.text [.duration d.text] ⟨0, .plain⟩ [] := by
        have hends : EndsName [] := rfl
        have hstep : Token.step ⟨0, .plain⟩ (d.text ++ []) = _ := d.step_plain hends
        rw [List.append_nil] at hstep
        exact .one hstep
      have hword : ∀ {t : Text} {token : Token} {tokens : List Token},
          Cuts ⟨0, .plain⟩ t (token :: tokens) ⟨0, .plain⟩ [] →
            Cuts ⟨0, .plain⟩ (' ' :: (Reserved.offset.word ++ ' ' :: t))
              (.reserved .offset Reserved.offset.word :: token :: tokens) ⟨0, .plain⟩ [] :=
        fun h => Cuts.space (.next (Token.step_reserved .offset rfl) h.space)
      cases ahead with
      | false => exact hword hspan
      | true => exact hword (.next (Token.step_minus _ _) hspan)

/-- The duration that a text denotes. -/
def read (text : Text) : Meaning Duration :=
  (Duration.ofText text).mapError .duration

/-- What follows the name is read as the durations are. -/
theorem postfixes_tokens (form : DurationForm Text) (name : Text) :
    Query.postfixes (form.tokens.length + 1) (.ok (.vector (Selector.ofMetric name))) form.tokens =
      .ok ((form.map read).sequence.map (query name), []) := by
  cases form with
  | range d =>
      simp only [tokens, Query.postfixes, Query.bracketed, Query.duration, map, sequence, read]
      cases Duration.ofText d <;> rfl
  | offset ahead d =>
      cases ahead <;>
        simp only [tokens, Bool.false_eq_true, ↓reduceIte, List.nil_append, List.cons_append,
          Query.postfixes, Query.plusOrMinus, Query.duration, map, sequence, read] <;>
        cases Duration.ofText d <;> rfl
  | subquery d =>
      simp only [tokens, Query.postfixes, Query.bracketed, Query.duration, map, sequence, read]
      cases Duration.ofText d <;> rfl
  | step d s =>
      simp only [tokens, Query.postfixes, Query.bracketed, Query.duration, map, sequence, read]
      cases Duration.ofText d <;> cases Duration.ofText s <;> rfl

/-- A query with durations is read as its durations are. -/
theorem parse_text (form : DurationForm WrittenDuration) {name : Text} (hname : IsMetricName name) :
    Expr.parse (form.text name) =
      Query.resultOf ((form.map fun d => read d.text).sequence.map (query name)) := by
  have hmap : (form.map WrittenDuration.text).map read = form.map fun d => read d.text := by
    cases form <;> rfl
  have hends : Ends (form.map WrittenDuration.text).suffix := by
    cases form <;> rfl
  have hfollows : Query.Follows (form.map WrittenDuration.text).tokens := by
    cases form <;> rfl
  rw [← hmap]
  exact Query.parse_metric hname hends form.cuts_suffix hfollows (postfixes_tokens _ name)

/-- A duration is read from its text. -/
theorem read_eq_ok_iff {t : Text} {d : Duration} : read t = .ok d ↔ Duration.ofText t = .ok d := by
  unfold read
  cases Duration.ofText t <;> simp [Except.mapError]

end DurationForm

namespace Query

open DurationForm (Rel)
open WrittenDuration (Rewritten)

/-- Canonical form keeps the durations of a query if their numbers fit 32 bits. For every accepted
query with durations the result has the same form, in which every duration is the old one rewritten:
it denotes the same length exactly if the numbers of the old one fit, and is read back as what it
denotes exactly if its own numbers fit, as they do in less than `2 ^ 32` days. If all that are shown
fit, the result denotes the query that the text denotes. -/
theorem durations_kept (form : DurationForm WrittenDuration) {name t : Text}
    (hname : IsMetricName name) (hformat : format (form.text name) = .formatted t) :
    ∃ form' : DurationForm WrittenDuration, t = form'.text name ∧ Rel Rewritten form form' ∧
      ((∀ d ∈ form'.durations, d.Fits) → Expr.parse t = Expr.parse (form.text name)) := by
  have hparse := form.parse_text hname
  obtain ⟨e, hmeaning, rfl⟩ := (format_of_parse hparse).1 hformat
  obtain ⟨read, hread, rfl⟩ := map_ok hmeaning
  have hrel : Rel (fun (d : WrittenDuration) x => Duration.ofText d.text = .ok x) form read :=
    (DurationForm.sequence_eq_ok_iff.1 hread).imp fun d _ x h => DurationForm.read_eq_ok_iff.1 h
  obtain ⟨form', hrewritten, hshown⟩ := hrel.split fun d x h => WrittenDuration.exists_rewritten h
  have htext : (read.query name).pretty = form'.text name := by
    rw [DurationForm.pretty_query, DurationForm.text,
      (hshown.imp fun d _ x h => h.1 : Rel (fun d x => d.text = Duration.toText x) _ _).map_eq]
  refine ⟨form', htext, hrewritten, fun hfits => ?_⟩
  have hagain : (form'.map fun d => DurationForm.read d.text).sequence = .ok read :=
    DurationForm.sequence_eq_ok_iff.2 (hshown.imp fun d hd x h =>
      DurationForm.read_eq_ok_iff.2 (h.2 (hfits d hd)))
  rw [htext, form'.parse_text hname, hparse, hagain, hread]

/-- A duration in all units is kept, although it is shown without years and weeks. -/
theorem all_units_kept :
    IsMetricName "m".toList ∧
      format "m offset -1y2w3d4h5m6s7ms".toList = .formatted "m offset -382d4h5m6s7ms".toList ∧
      ∃ d d' : WrittenDuration, d.text = "1y2w3d4h5m6s7ms".toList ∧
        d'.text = "382d4h5m6s7ms".toList ∧ d.millis = 33019506007 ∧ d'.millis = d.millis ∧
        Duration.ofText d'.text = .ok (Duration.ofMillis d.millis) ∧
        Expr.parse "m offset -382d4h5m6s7ms".toList =
          Expr.parse "m offset -1y2w3d4h5m6s7ms".toList := by
  have hname : IsMetricName "m".toList := ⟨⟨rfl, List.all_eq_true.1 rfl⟩, by decide +kernel⟩
  let d : WrittenDuration :=
    ⟨[("1".toList, .year), ("2".toList, .week), ("3".toList, .day), ("4".toList, .hour),
      ("5".toList, .minute), ("6".toList, .second), ("7".toList, .millisecond)],
      by decide +kernel, by decide +kernel⟩
  have hformat : format (DurationForm.text (.offset true d) "m".toList) =
      .formatted "m offset -382d4h5m6s7ms".toList := by decide +kernel
  have hmillis : d.millis = 33019506007 := by decide +kernel
  have hfits : d.Fits := by decide +kernel
  obtain ⟨form', htext, hrel, hsame⟩ := durations_kept (.offset true d) hname hformat
  cases hrel with
  | offset _ hd =>
    rename_i d'
    have hequal := hd.same_iff.2 hfits
    have hfits' := hd.fits_of_lt (by rw [hequal, hmillis]; decide)
    have hmiddle : "m offset -".toList ++ "382d4h5m6s7ms".toList =
        "m offset -".toList ++ d'.text := htext
    have hd' : d'.text = "382d4h5m6s7ms".toList := (List.append_cancel_left hmiddle).symm
    refine ⟨hname, hformat, d, d', rfl, hd', hmillis, hequal, ?_, hsame ?_⟩
    · rw [← hequal]
      exact hd.read_iff.2 hfits'
    · intro x hx
      rcases List.mem_singleton.1 hx with rfl
      exact hfits'

/-- Durations with numbers that do not fit are not kept: one number that is written is counted as
zero, and the total of two numbers that fit is shown as one that does not, which is refused. -/
theorem long_durations_lost :
    (∃ d : WrittenDuration, d.text = "1d4294967296s".toList ∧
      format "m[1d4294967296s]".toList = .formatted "m[1d]".toList ∧
      ¬∃ d' : WrittenDuration, "m[1d]".toList = DurationForm.text (.range d') "m".toList ∧
        d'.millis = d.millis) ∧
    (∃ d : WrittenDuration, d.text = "4294967295w1d".toList ∧ d.Fits) ∧
      format "m[4294967295w1d]".toList = .formatted "m[30064771066d]".toList ∧
      format "m[30064771066d]".toList =
        .rejected "duration must be greater than 0".toList := by
  let d : WrittenDuration :=
    ⟨[("1".toList, .day), ("4294967296".toList, .second)], by decide +kernel, by decide +kernel⟩
  let day : WrittenDuration := ⟨[("1".toList, .day)], by decide +kernel, by decide +kernel⟩
  let weeks : WrittenDuration :=
    ⟨[("4294967295".toList, .week), ("1".toList, .day)], by decide +kernel, by decide +kernel⟩
  refine ⟨⟨d, rfl, by decide +kernel, ?_⟩, ⟨weeks, rfl, by decide +kernel⟩, by decide +kernel,
    by decide +kernel⟩
  rintro ⟨d', htext, hequal⟩
  have hmiddle : "m[".toList ++ (day.text ++ "]".toList) =
      "m[".toList ++ (d'.text ++ "]".toList) := htext
  have hday : day.text = d'.text := List.append_cancel_right (List.append_cancel_left hmiddle)
  have hmillis : d.millis ≠ day.millis := by decide +kernel
  exact hmillis (hequal ▸ (WrittenDuration.millis_of_text hday).symm)

end Query

end QueryTidy
