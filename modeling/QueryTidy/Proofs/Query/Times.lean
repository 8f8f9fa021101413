import QueryTidy.Proofs.Number.Written
import QueryTidy.Proofs.Query.Metrics

/-!
# Evaluation times in canonical form

A time after `@` is a number of seconds that is rounded to a double-precision value, multiplied by a
thousand and rounded to milliseconds; it is written by two more roundings, with three places. For a
number with at most three places below `10 ^ 10` all these roundings together are exact
(`Instant.of_seconds_close`, `Instant.digits_eq`), so the time is written as it was read. Only its
sign is lost: every time before 1970 is written as zero.
-/

namespace QueryTidy

open Binary64 (IsClose IsModerate)

/-! ## Reading and writing thousandths -/

namespace Instant

/-- A value close to a number of thousandths below `10 ^ 10` is read as that number of
milliseconds. -/
theorem of_seconds_close {negative : Bool} {n : Nat} {v : Binary64} (hpos : 0 < n)
    (hn : n < 10 ^ 13) (h : IsClose negative ((n : ℚ) / 1000) v) :
    ofSeconds v = .ok (.time negative n) := by
  obtain ⟨m, e, rfl, hnear⟩ := h
  have hleast : (1 : ℚ) ≤ n := by exact_mod_cast hpos
  have hmost : (n : ℚ) < 10 ^ 13 := by exact_mod_cast hn
  rw [abs_le] at hnear
  have hhuge : Binary64.isHuge (.finite negative m e) = false := by
    by_contra hcontra
    rw [Bool.not_eq_false, Binary64.isHuge, Bool.and_eq_true, decide_eq_true_eq,
      decide_eq_true_eq] at hcontra
    obtain ⟨rfl, rfl⟩ := hcontra
    have hfar : (2 : ℚ) ^ 60 ≤ 2 ^ Binary64.greatestExponent := by
      rw [← zpow_natCast]
      exact zpow_le_zpow_right₀ (by norm_num) (by decide)
    have hmantissa : ((2 ^ 53 - 1 : Nat) : ℚ) = 9007199254740991 := by norm_num
    rw [hmantissa] at hnear
    generalize (2 : ℚ) ^ Binary64.greatestExponent = power at hfar hnear
    linarith
  -- The product with a thousand is rounded once more, and still close to the milliseconds.
  have hden := Binary64.fraction_den_pos m e
  have hscaled : (((Binary64.fraction m e).1 * 1000 : Nat) : ℚ) / (Binary64.fraction m e).2 =
      m * 2 ^ e * 1000 := by
    rw [← Binary64.fraction_eq]
    push_cast
    ring
  have hproduct := Binary64.of_ratio_close negative hden (by
    rw [hscaled]
    constructor <;> norm_num <;> linarith)
  rw [hscaled] at hproduct
  obtain ⟨num, den, hden', hfraction, hclose⟩ := hproduct.fraction
  have hround : divHalfUp num den = n := by
    refine div_half_up_eq hden' ?_
    rw [abs_le] at hclose
    rw [abs_lt]
    constructor <;> linarith
  have hrange : min n greatestMillis = n := by
    refine Nat.min_eq_left ?_
    unfold greatestMillis
    omega
  have hmul : ((Binary64.finite negative m e).mulNat 1000).magnitude? = some (num, den) := hfraction
  unfold ofSeconds
  simp only [hhuge, Bool.false_eq_true, ↓reduceIte, hmul, hround, hrange]
  rfl

/-- Zero is read as no milliseconds. -/
theorem of_seconds_zero (negative : Bool) :
    ofSeconds (Binary64.zero negative) = .ok (.time negative 0) := by
  cases negative <;> decide +kernel

/-- The milliseconds of a time below `10 ^ 10` seconds are written in full with three places, unless
the time is before 1970. -/
theorem digits_eq (negative : Bool) {n : Nat} (hn : n < 10 ^ 13) :
    digits negative n = (WrittenNumber.ofThousandths (if negative then 0 else n)).text := by
  have hshown : (if negative then 0 else n) < 10 ^ 13 := by
    split
    · norm_num
    · exact hn
  unfold digits
  generalize (if negative then 0 else n) = shown at hshown ⊢
  rcases Nat.eq_zero_or_pos shown with rfl | hpos
  · decide +kernel
  · have hmoderate : IsModerate ((shown : ℚ) / (1 : Nat)) := by
      have hleast : (1 : ℚ) ≤ shown := by exact_mod_cast hpos
      have hmost : (shown : ℚ) < 10 ^ 13 := by exact_mod_cast hshown
      constructor <;> norm_num <;> linarith
    have hwhole := Binary64.of_ratio_close false Nat.one_pos hmoderate
    obtain ⟨num, den, hden, hfraction, hnear⟩ := hwhole.fraction
    have hfraction' : (Binary64.ofNat shown).magnitude? = some (num, den) := hfraction
    simp only [hfraction']
    rw [Nat.cast_one, div_one, abs_le] at hnear
    have hseconds : (num : ℚ) / (den * 1000 : Nat) = num / den / 1000 := by
      push_cast
      rw [div_mul_eq_div_div]
    have hleast : (1 : ℚ) ≤ shown := by exact_mod_cast hpos
    have hmost : (shown : ℚ) < 10 ^ 13 := by exact_mod_cast hshown
    have hmoderate' : IsModerate ((num : ℚ) / (den * 1000 : Nat)) := by
      rw [hseconds]
      constructor <;> norm_num <;> linarith
    have hclose := Binary64.of_ratio_close false (by omega) hmoderate'
    rw [hseconds] at hclose
    refine hclose.fixed ?_ (by linarith)
    rw [abs_le]
    constructor <;> linarith

end Instant

/-! ## Queries at a fixed time -/

namespace WrittenNumber

open Token (Cuts Ends)

/-- A number without its sign is one token. -/
theorem step_magnitude (x : WrittenNumber) {depth : Nat} {rest : Text} (hrest : Ends rest) :
    Token.step ⟨depth, .plain⟩ (x.magnitudeText ++ rest) =
      .emit (.number x.magnitudeText) ⟨depth, .plain⟩ rest := by
  have hscan : Token.scanNumber (x.magnitudeText ++ rest) = .ok (.number x.magnitudeText, rest) :=
    Token.scan_number_numeral x.whole_digits x.place_digits hrest
  cases hwhole : x.whole with
  | cons c tail =>
      -- The number begins with a digit of its whole part.
      have hc : Text.isDigit c = true := x.whole_digits c (by rw [hwhole]; exact List.mem_cons_self)
      obtain ⟨more, hmore⟩ : ∃ more, x.magnitudeText = c :: more := by
        unfold magnitudeText
        rw [hwhole]
        cases x.places with
        | none => exact ⟨tail, rfl⟩
        | some places => exact ⟨tail ++ '.' :: places, rfl⟩
      rw [hmore, List.cons_append] at hscan ⊢
      rw [Token.step_digit hc, hscan]
      rfl
  | nil =>
      -- The number begins with the point, and a digit stands behind it.
      have hne := x.nonempty
      rw [hwhole, List.nil_append] at hne
      obtain ⟨d, tail, hplaces⟩ : ∃ d tail, x.places = some (d :: tail) := by
        cases hplaces : x.places with
        | none =>
            rw [hplaces] at hne
            exact absurd rfl hne
        | some places =>
            rw [hplaces] at hne
            obtain ⟨d, tail, rfl⟩ := List.exists_cons_of_ne_nil hne
            exact ⟨d, tail, rfl⟩
      have hd : Text.isDigit d = true := x.place_digits d (by simp [placeDigits, hplaces])
      have htext : x.magnitudeText = '.' :: d :: tail := by
        unfold magnitudeText
        rw [hwhole, hplaces]
        rfl
      rw [htext] at hscan ⊢
      have hstep : Token.step ⟨depth, .plain⟩ ('.' :: d :: tail ++ rest) =
          if Text.isDigit d then
            Token.emitRead ⟨depth, .plain⟩ (Token.scanNumber ('.' :: d :: tail ++ rest))
          else .fail (.afterPoint d) := rfl
      rw [hstep, if_pos hd, hscan]
      rfl

/-- The tokens of a time that is the number. -/
def timeTokens (x : WrittenNumber) : List Token :=
  .sign .at :: ((if x.negative then [.sign .minus] else []) ++ [.number x.magnitudeText])

/-- A time is cut whole. -/
theorem cuts_time (x : WrittenNumber) {depth : Nat} {rest : Text} (hrest : Ends rest) :
    Cuts ⟨depth, .plain⟩ (" @ ".toList ++ (x.text ++ rest)) x.timeTokens ⟨depth, .plain⟩ rest := by
  have hnumber : Cuts ⟨depth, .plain⟩ (x.magnitudeText ++ rest) [.number x.magnitudeText]
      ⟨depth, .plain⟩ rest := .one (x.step_magnitude hrest)
  have hat : ∀ {t : Text} {token : Token} {tokens : List Token},
      Cuts ⟨depth, .plain⟩ t (token :: tokens) ⟨depth, .plain⟩ rest →
        Cuts ⟨depth, .plain⟩ (" @ ".toList ++ t) (.sign .at :: token :: tokens)
          ⟨depth, .plain⟩ rest :=
    fun h => Cuts.space (.next rfl h.space)
  unfold text timeTokens
  cases x.negative with
  | false => exact hat hnumber
  | true => exact hat (.next (Token.step_minus _ _) hnumber)

/-- A number with at most three places below `10 ^ 10` is read as its thousandths, with its sign. -/
theorem instant_of_number {x : WrittenNumber} (hplaces : x.placeDigits.length ≤ 3)
    (hsmall : x.thousandths < 10 ^ 13) (rest : List Token) :
    Query.instant ((if x.negative then [.sign .minus] else []) ++
      .number x.magnitudeText :: rest) = .ok (.ok (.time x.negative x.thousandths), rest) := by
  obtain ⟨v, hliteral, hseconds⟩ : ∃ v, Literal.value x.magnitudeText = .ok v ∧
      Instant.ofSeconds (if x.negative then v.neg else v) =
        .ok (.time x.negative x.thousandths) := by
    refine ⟨_, literal_decimal x.whole_digits x.place_digits x.nonempty x.decimal, ?_⟩
    rcases Nat.eq_zero_or_pos x.thousandths with hzero | hpos
    · have hdigits : Text.toNat (x.whole ++ x.places.getD []) = 0 := by
        rcases Nat.mul_eq_zero.1 hzero with h | h
        · exact h
        · exact absurd h (by positivity)
      have hvalue : Binary64.ofDecimal (Text.toNat (x.whole ++ x.places.getD []))
          (0 - ((x.places.getD []).length : Int)) = Binary64.zero false := by
        unfold Binary64.ofDecimal
        rw [if_pos hdigits]
      rw [hvalue, hzero]
      cases x.negative with
      | false => exact Instant.of_seconds_zero false
      | true => exact Instant.of_seconds_zero true
    · have hmagnitude := (magnitude_eq x).symm.trans (magnitude_thousandths hplaces)
      obtain ⟨m, e, hv, hnear⟩ := Binary64.of_decimal_close hpos hsmall hplaces hmagnitude
      have hv' : Binary64.ofDecimal (Text.toNat (x.whole ++ x.places.getD []))
          (0 - ((x.places.getD []).length : Int)) = .finite false m e := hv
      rw [hv']
      cases x.negative with
      | false => exact Instant.of_seconds_close hpos hsmall ⟨m, e, rfl, hnear⟩
      | true => exact Instant.of_seconds_close hpos hsmall ⟨m, e, rfl, hnear⟩
  cases hsign : x.negative with
  | false =>
      rw [hsign] at hseconds
      simp only [Bool.false_eq_true, ↓reduceIte, List.nil_append, Query.instant,
        Query.plusOrMinus, Query.numberOf?, hliteral]
      exact congrArg (fun meaning => Except.ok (meaning, rest)) hseconds
  | true =>
      rw [hsign] at hseconds
      simp only [↓reduceIte, List.cons_append, List.nil_append, Query.instant,
        Query.plusOrMinus, Query.numberOf?, hliteral]
      exact congrArg (fun meaning => Except.ok (meaning, rest)) hseconds

/-- A time after an operand fixes its evaluation time. -/
theorem extends_time {x : WrittenNumber} (hplaces : x.placeDigits.length ≤ 3)
    (hsmall : x.thousandths < 10 ^ 13) {e e' : Expr}
    (hinstant : Expr.withInstant (.time x.negative x.thousandths) e = .ok e') :
    Query.Extends e x.timeTokens e' := by
  refine .one (List.cons_ne_nil _ _) fun fuel rest => ?_
  have hread := instant_of_number hplaces hsmall rest
  obtain ⟨token, tail, hcons⟩ : ∃ token tail,
      (if x.negative then [.sign .minus] else []) ++ .number x.magnitudeText :: rest =
        token :: tail := by
    cases x.negative <;> exact ⟨_, _, rfl⟩
  rw [timeTokens, List.cons_append, List.append_assoc, List.singleton_append]
  rw [hcons] at hread ⊢
  simp only [Query.postfixes, hread]
  exact congrArg (fun meaning => Query.postfixes fuel meaning rest) hinstant

end WrittenNumber

/-- The queries of which the evaluation time is fixed: a metric, or a subquery over five minutes of
it. -/
inductive TimedForm where
  | metric | subquery
  deriving DecidableEq, Repr

namespace TimedForm

open Token (Cuts Ends)

/-- Five minutes. -/
def fiveMinutes : Duration :=
  .ofMillis 300000

/-- The text of the query of a metric with the text of a time. -/
def text (form : TimedForm) (name time : Text) : Text :=
  match form with
  | .metric => name ++ (" @ ".toList ++ time)
  | .subquery => name ++ ("[5m:]".toList ++ (" @ ".toList ++ time))

/-- The query of a metric with a timing. -/
def query (form : TimedForm) (name : Text) (timing : Timing) : Expr :=
  match form with
  | .metric => .vector { Selector.ofMetric name with timing := timing }
  | .subquery => .subquery (.vector (Selector.ofMetric name)) fiveMinutes none timing

/-- The canonical text of a query with a fixed time has the digits of the time. -/
theorem pretty_query (form : TimedForm) (name : Text) (negative : Bool) (millis : Nat) :
    (form.query name { instant := some (.time negative millis) }).pretty =
      form.text name (Instant.digits negative millis) := by
  have htiming : Timing.toText { instant := some (.time negative millis) } =
      " @ ".toList ++ Instant.digits negative millis := by
    show ' ' :: (Instant.time negative millis).toText ++ [] = _
    rw [Instant.to_text_time, List.append_nil]
    rfl
  have hhead : (Selector.ofMetric name).head = name := Selector.head_of_metric name {}
  have hnone : (Selector.ofMetric name).timing.toText = [] := rfl
  have hrange : fiveMinutes.toText = "5m".toList := by decide +kernel
  cases form with
  | metric =>
      rw [query, Expr.pretty_vector, Selector.head_of_metric, htiming]
      rfl
  | subquery =>
      rw [query, Expr.pretty_subquery, Expr.pretty_vector, hhead, hnone, Expr.subqueryText, htiming,
        hrange, List.append_nil]
      rfl

/-- A query with a number for its time is read as the query at the thousandths of the number. -/
theorem parse_text (form : TimedForm) {name : Text} (hname : IsMetricName name) {x : WrittenNumber}
    (hplaces : x.placeDigits.length ≤ 3) (hsmall : x.thousandths < 10 ^ 13) :
    Expr.parse (form.text name x.text) =
      .query (form.query name { instant := some (.time x.negative x.thousandths) }) := by
  have hends : Ends [] := rfl
  have htime : Cuts ⟨0, .plain⟩ _ _ _ _ := x.cuts_time hends
  rw [List.append_nil] at htime
  have hextends : ∀ {e e' : Expr},
      Expr.withInstant (.time x.negative x.thousandths) e = .ok e' →
        Query.Extends e x.timeTokens e' := WrittenNumber.extends_time hplaces hsmall
  cases form with
  | metric => exact Query.parse_extended hname rfl htime rfl (hextends rfl)
  | subquery =>
      have htext : fiveMinutes.toText = "5m".toList := by decide +kernel
      have hread : Duration.ofText fiveMinutes.toText = .ok fiveMinutes := by decide +kernel
      have hstep : ∀ d ∈ (none : Option Duration), 0 < d.millis := fun d hd => nomatch hd
      have hbrackets : Cuts ⟨0, .plain⟩ _ _ _ _ :=
        cuts_subquery (by decide : 0 < fiveMinutes.millis) hstep (" @ ".toList ++ x.text)
      rw [htext] at hbrackets
      exact Query.parse_extended hname rfl (hbrackets.append htime) rfl
        ((Query.extends_subquery hread (by simp) rfl).trans (hextends rfl))

end TimedForm

namespace Query

/-- Canonical form keeps the evaluation time of a query, if it is a number with at most three places
and less than `10 ^ 10` in magnitude that is not negative: the query is accepted, and the result has
the same form with a decimal number that is equal to it. A negative time becomes zero. -/
theorem evaluation_time_kept (form : TimedForm) {name : Text} (hname : IsMetricName name)
    (x : WrittenNumber) (hplaces : x.placeDigits.length ≤ 3) (hsmall : |x.value| < 10 ^ 10) :
    ∃ y : WrittenNumber,
      format (form.text name x.text) = .formatted (form.text name y.text) ∧
        (0 ≤ x.value → y.value = x.value) ∧ (x.value < 0 → y.value = 0) := by
  have hmagnitude := WrittenNumber.magnitude_thousandths hplaces
  have hfew : x.thousandths < 10 ^ 13 := by
    rw [x.abs_value, hmagnitude] at hsmall
    have h : (x.thousandths : ℚ) < 10 ^ 13 := by linarith
    exact_mod_cast h
  refine ⟨.ofThousandths (if x.negative then 0 else x.thousandths), ?_, ?_, ?_⟩
  · rw [format_eq_formatted_iff]
    refine ⟨_, form.parse_text hname hplaces hfew, ?_⟩
    rw [form.pretty_query, Instant.digits_eq x.negative hfew]
  · intro hvalue
    rw [WrittenNumber.value_of_thousandths]
    unfold WrittenNumber.value at hvalue ⊢
    split at hvalue
    · -- A number that is negative zero.
      rename_i hsign
      have hzero : x.magnitude = 0 := le_antisymm (by linarith) x.magnitude_nonneg
      rw [if_pos hsign, if_pos hsign, hzero]
      norm_num
    · rename_i hsign
      rw [if_neg hsign, if_neg hsign, hmagnitude]
  · intro hvalue
    have hsign : x.negative = true := by
      by_contra hsign
      unfold WrittenNumber.value at hvalue
      rw [if_neg hsign] at hvalue
      exact absurd hvalue (not_lt.2 x.magnitude_nonneg)
    rw [WrittenNumber.value_of_thousandths, if_pos hsign]
    norm_num

/-- A time half a second after a full one is kept. -/
theorem half_second_kept :
    IsMetricName "m".toList ∧
      ∃ x y : WrittenNumber, x.text = "1609746000.5".toList ∧
        x.placeDigits.length ≤ 3 ∧ |x.value| < 10 ^ 10 ∧ x.value = 1609746000 + 1 / 2 ∧
        format "m @ 1609746000.5".toList = .formatted ("m @ ".toList ++ y.text) ∧
        y.value = x.value := by
  have hname : IsMetricName "m".toList := ⟨⟨rfl, List.all_eq_true.1 rfl⟩, by decide +kernel⟩
  let x : WrittenNumber :=
    ⟨false, "1609746000".toList, some "5".toList, List.all_eq_true.1 rfl, by decide,
      by decide +kernel⟩
  have hwhole : Text.toNat "1609746000".toList = 1609746000 := by decide +kernel
  have hplaces : Text.toNat "5".toList = 5 := by decide +kernel
  have hvalue : x.value = 1609746000 + 1 / 2 := by
    show (Text.toNat "1609746000".toList : ℚ) + Text.toNat "5".toList / 10 ^ 1 = _
    rw [hwhole, hplaces]
    norm_num
  have hsmall : |x.value| < 10 ^ 10 := by
    rw [hvalue, abs_of_nonneg] <;> norm_num
  obtain ⟨y, hformat, hkept, -⟩ := evaluation_time_kept .metric hname x (by decide) hsmall
  exact ⟨hname, x, y, rfl, by decide, hsmall, hvalue, hformat,
    hkept (by rw [hvalue]; norm_num)⟩

/-- A time before 1970 is lost: the result at five seconds before it has another number for its
time. -/
theorem time_before_1970_lost :
    ∃ x : WrittenNumber, x.text = "-5".toList ∧ x.value = -5 ∧
      format "m @ -5".toList = .formatted "m @ 0.000".toList ∧
      ¬∃ y : WrittenNumber, format "m @ -5".toList = .formatted ("m @ ".toList ++ y.text) ∧
        y.value = x.value := by
  let x : WrittenNumber :=
    ⟨true, "5".toList, none, List.all_eq_true.1 rfl, by decide, by decide +kernel⟩
  have hwhole : Text.toNat "5".toList = 5 := by decide +kernel
  have hnone : Text.toNat [] = 0 := rfl
  have hvalue : x.value = -5 := by
    show -((Text.toNat "5".toList : ℚ) + Text.toNat [] / 10 ^ 0) = _
    rw [hwhole, hnone]
    norm_num
  have hformat : format "m @ -5".toList = .formatted "m @ 0.000".toList := by decide +kernel
  refine ⟨x, rfl, hvalue, hformat, ?_⟩
  rintro ⟨y, hy, hequal⟩
  rw [hformat] at hy
  have htext : (WrittenNumber.ofThousandths 0).text = y.text := by
    have hzero : (WrittenNumber.ofThousandths 0).text = "0.000".toList := by decide +kernel
    have happend : "m @ ".toList ++ "0.000".toList = "m @ ".toList ++ y.text :=
      FormatResult.formatted.inj hy
    rw [hzero]
    exact List.append_cancel_left happend
  rw [← WrittenNumber.value_of_text htext, WrittenNumber.value_of_thousandths, hvalue] at hequal
  norm_num at hequal

end Query

end QueryTidy
