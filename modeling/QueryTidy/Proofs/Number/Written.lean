import Mathlib.Tactic.IntervalCases
import QueryTidy.Proofs.Number.Accuracy

/-!
# Numbers as they are written

A decimal number with a sign and places (`WrittenNumber`), its value, and its number of thousandths
if it has at most three places. Below `10 ^ 10` such a number is read as a double-precision value
close to it (`Binary64.of_decimal_close`).
-/

namespace QueryTidy

open Binary64 (IsClose IsModerate)

/-! ## Written numbers -/

/-- A number as it is written in decimal notation: digits with an optional point among them, and
perhaps a minus sign in front. Digits from 0 to 7 after a leading zero, without a point, are octal
notation and no such number. -/
structure WrittenNumber where
  negative : Bool
  whole : Text
  places : Option Text
  digits : ∀ c ∈ whole ++ places.getD [], Text.isDigit c = true
  nonempty : whole ++ places.getD [] ≠ []
  decimal : Literal.styleOf (numeral whole places) = .decimal

namespace WrittenNumber

/-- The text without the sign. -/
def magnitudeText (x : WrittenNumber) : Text :=
  numeral x.whole x.places

/-- The text of the number. -/
def text (x : WrittenNumber) : Text :=
  if x.negative then '-' :: x.magnitudeText else x.magnitudeText

/-- The digits after the point. -/
def placeDigits (x : WrittenNumber) : Text :=
  x.places.getD []

/-- The number without its sign. -/
def magnitude (x : WrittenNumber) : ℚ :=
  Text.toNat x.whole + Text.toNat x.placeDigits / 10 ^ x.placeDigits.length

/-- The number that is written. -/
def value (x : WrittenNumber) : ℚ :=
  if x.negative then -x.magnitude else x.magnitude

/-- The digits before the point are digits. -/
theorem whole_digits (x : WrittenNumber) : ∀ c ∈ x.whole, Text.isDigit c = true :=
  fun c hc => x.digits c (List.mem_append_left _ hc)

/-- The digits after the point are digits. -/
theorem place_digits (x : WrittenNumber) : ∀ c ∈ x.placeDigits, Text.isDigit c = true :=
  fun c hc => x.digits c (List.mem_append_right _ hc)

/-- A number is not less than zero without its sign. -/
theorem magnitude_nonneg (x : WrittenNumber) : 0 ≤ x.magnitude := by
  unfold magnitude
  positivity

/-- A number and its magnitude differ in the sign at most. -/
theorem abs_value (x : WrittenNumber) : |x.value| = x.magnitude := by
  unfold value
  split
  · rw [abs_neg, abs_of_nonneg x.magnitude_nonneg]
  · rw [abs_of_nonneg x.magnitude_nonneg]

/-- The text of a number without its sign determines its digits and places. -/
theorem parts_of_magnitude_text (x : WrittenNumber) :
    x.magnitudeText.takeWhile Text.isDigit = x.whole ∧
      (x.magnitudeText.dropWhile Text.isDigit).drop 1 = x.placeDigits := by
  unfold magnitudeText placeDigits
  cases x.places with
  | none =>
      obtain ⟨htake, hdrop⟩ := Text.take_run [] x.whole_digits rfl
      rw [List.append_nil] at htake hdrop
      exact ⟨htake, by rw [numeral, hdrop]; rfl⟩
  | some places =>
      obtain ⟨htake, hdrop⟩ := Text.take_run ('.' :: places) x.whole_digits rfl
      exact ⟨htake, by rw [numeral, hdrop]; rfl⟩

/-- A number has a minus sign in front of its text exactly if it is written with one. -/
theorem text_minus_iff (x : WrittenNumber) : x.text.head? = some '-' ↔ x.negative = true := by
  unfold text
  cases x.negative with
  | true => simp
  | false =>
      simp only [Bool.false_eq_true, ↓reduceIte, iff_false]
      intro hhead
      rcases numeral_chars x.whole_digits x.place_digits (List.mem_of_mem_head? hhead) with h | h
      · exact absurd h (by decide)
      · exact absurd h (by decide)

/-- The text of a number determines the number. -/
theorem value_of_text {x y : WrittenNumber} (h : x.text = y.text) : x.value = y.value := by
  have hsign : x.negative = y.negative := by
    rw [Bool.eq_iff_iff, ← text_minus_iff, ← text_minus_iff, h]
  have hmagnitude : x.magnitudeText = y.magnitudeText := by
    unfold text at h
    rw [hsign] at h
    split at h
    · exact (List.cons.inj h).2
    · exact h
  obtain ⟨hwhole, hplaces⟩ := x.parts_of_magnitude_text
  obtain ⟨hwhole', hplaces'⟩ := y.parts_of_magnitude_text
  unfold value magnitude
  rw [hsign, ← hwhole, ← hplaces, hmagnitude, hwhole', hplaces']

/-- All digits without the point denote the number in units of the last place. -/
theorem magnitude_eq (x : WrittenNumber) :
    x.magnitude =
      (Text.toNat (x.whole ++ x.placeDigits) : ℚ) * 10 ^ (0 - (x.placeDigits.length : Int)) := by
  rw [Text.to_nat_append x.whole_digits x.place_digits, zero_sub, zpow_neg, zpow_natCast]
  have hpow : (10 : ℚ) ^ x.placeDigits.length ≠ 0 := by positivity
  unfold magnitude
  push_cast
  field_simp

/-- The number of thousandths, for a number with at most three places. -/
def thousandths (x : WrittenNumber) : Nat :=
  Text.toNat (x.whole ++ x.placeDigits) * 10 ^ (3 - x.placeDigits.length)

/-- A number with at most three places is a number of thousandths. -/
theorem magnitude_thousandths {x : WrittenNumber} (h : x.placeDigits.length ≤ 3) :
    x.magnitude = (x.thousandths : ℚ) / 1000 := by
  rw [magnitude_eq, thousandths]
  generalize Text.toNat (x.whole ++ x.placeDigits) = digits
  generalize x.placeDigits.length = count at h
  interval_cases count <;> norm_num <;> ring

/-- The number of thousandths, written with three places. -/
def ofThousandths (n : Nat) : WrittenNumber where
  negative := false
  whole := Text.ofNat (n / 1000)
  places := some (List.replicate (3 - (Text.ofNat (n % 1000)).length) '0' ++ Text.ofNat (n % 1000))
  digits c hc := by
    simp only [Option.getD_some, List.mem_append, List.mem_replicate] at hc
    rcases hc with h | ⟨-, rfl⟩ | h
    · exact Text.of_nat_digits h
    · rfl
    · exact Text.of_nat_digits h
  nonempty := by simp [Text.of_nat_ne_nil]
  decimal := style_of_numeral (is_whole_of_nat _) fun c hc => by
    simp only [Option.getD_some, List.mem_append, List.mem_replicate] at hc
    rcases hc with ⟨-, rfl⟩ | h
    · rfl
    · exact Text.of_nat_digits h

/-- Thousandths written with three places denote the number of them. -/
theorem value_of_thousandths (n : Nat) : (ofThousandths n).value = (n : ℚ) / 1000 := by
  have hplaces : (ofThousandths n).placeDigits =
      List.replicate (3 - (Text.ofNat (n % 1000)).length) '0' ++ Text.ofNat (n % 1000) := rfl
  have hlength : (ofThousandths n).placeDigits.length = 3 := by
    have hless := (Text.of_nat_length_le_iff (n := n % 1000) (k := 3) (by decide)).2
      (Nat.mod_lt _ (by decide))
    rw [hplaces, List.length_append, List.length_replicate]
    omega
  have hvalue : (ofThousandths n).value =
      Text.toNat (Text.ofNat (n / 1000)) + Text.toNat (ofThousandths n).placeDigits / 10 ^ 3 := by
    rw [← hlength]
    rfl
  have hsplit : (n : ℚ) = (n / 1000 : Nat) * 1000 + (n % 1000 : Nat) := by
    exact_mod_cast (Nat.div_add_mod' n 1000).symm
  rw [hvalue, hplaces, Text.to_nat_zeros_append _ fun c hc => Text.of_nat_digits hc,
    Text.to_nat_of_nat, Text.to_nat_of_nat]
  linarith

end WrittenNumber

/-! ## Reading thousandths -/

namespace Binary64

/-- A positive number of thousandths below `10 ^ 10` is moderate. -/
theorem moderate_thousandths {n : Nat} (hpos : 0 < n) (hn : n < 10 ^ 13) :
    IsModerate ((n : ℚ) / 1000) := by
  have hleast : (1 : ℚ) ≤ n := by exact_mod_cast hpos
  have hmost : (n : ℚ) < 10 ^ 13 := by exact_mod_cast hn
  constructor <;> norm_num <;> linarith

/-- A decimal in digits and places, if it is a positive number of thousandths below `10 ^ 10`, is
rounded to a value close to it. -/
theorem of_decimal_close {digits n count : Nat} (hpos : 0 < n) (hn : n < 10 ^ 13)
    (hcount : count ≤ 3) (hvalue : (digits : ℚ) * 10 ^ (0 - (count : Int)) = n / 1000) :
    IsClose false ((n : ℚ) / 1000) (ofDecimal digits (0 - (count : Int))) := by
  have hmoderate := moderate_thousandths hpos hn
  have hdigits : digits ≠ 0 := by
    rintro rfl
    have hleast : (0 : ℚ) < n / 1000 := lt_of_lt_of_le (by norm_num) hmoderate.1
    rw [← hvalue] at hleast
    norm_num at hleast
  have hless : digits < 10 ^ 13 := by
    have hn' : (n : ℚ) < 10 ^ 13 := by exact_mod_cast hn
    have hscale : (1 : ℚ) / 1000 ≤ 10 ^ (0 - (count : Int)) := by
      interval_cases count <;> norm_num
    have h : (digits : ℚ) * (1 / 1000) ≤ n / 1000 := by
      rw [← hvalue]
      exact mul_le_mul_of_nonneg_left hscale (by positivity)
    have h' : (digits : ℚ) < 10 ^ 13 := by linarith
    exact_mod_cast h'
  have hlength := (Text.of_nat_length_le_iff (by decide)).2 hless
  have hpower := Decimal.power_eq (0 - (count : Int))
  have hden := (Decimal.power_pos (0 - (count : Int))).2
  unfold ofDecimal
  rw [if_neg hdigits]
  dsimp only
  rw [if_neg (by omega), if_neg (by omega)]
  rcases hfraction : Decimal.power (0 - (count : Int)) with ⟨num, den⟩
  rw [hfraction] at hpower hden
  dsimp only at hpower hden ⊢
  have hquotient : ((digits * num : Nat) : ℚ) / den = n / 1000 := by
    rw [← hvalue, ← hpower]
    push_cast
    ring
  rw [← hquotient] at hmoderate ⊢
  exact of_ratio_close false hden hmoderate

end Binary64

end QueryTidy
