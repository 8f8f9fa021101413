import QueryTidy.Proofs.Number.Display

/-!
# The accuracy of rounding

A positive number that is not extreme is rounded to a value that differs from it by less than a unit
in 53 bits (`of_ratio_close`). A few roundings one after the other therefore leave a number of
thousandths so close that rounding it to thousandths gives it back.
-/

namespace QueryTidy

/-- The natural number within less than a half of a quotient is the one that rounding a half up
yields. -/
theorem div_half_up_eq {num den n : Nat} (hden : 0 < den)
    (hnear : |(num : ℚ) / den - n| < 1 / 2) : divHalfUp num den = n := by
  have hpos : (0 : ℚ) < den := by exact_mod_cast hden
  rw [abs_lt] at hnear
  obtain ⟨hlow, hhigh⟩ := hnear
  have hlow' : (n : ℚ) * (2 * den) ≤ 2 * num + den := by
    have h : (n : ℚ) - 1 / 2 ≤ num / den := by linarith
    rw [le_div_iff₀ hpos] at h
    linarith
  have hhigh' : (2 : ℚ) * num + den < (n + 1) * (2 * den) := by
    have h : (num : ℚ) / den < n + 1 / 2 := by linarith
    rw [div_lt_iff₀ hpos] at h
    linarith
  exact Nat.div_eq_of_lt_le (by exact_mod_cast hlow') (by exact_mod_cast hhigh')

namespace Binary64

/-- The number is far from the ends of the range of the format. -/
def IsModerate (x : ℚ) : Prop :=
  1 / 2 ^ 20 ≤ x ∧ x < 2 ^ 60

/-- The value is finite with the given sign, and its magnitude differs from the number by less than
a unit in 53 bits. -/
def IsClose (negative : Bool) (x : ℚ) (v : Binary64) : Prop :=
  ∃ m e, v = .finite negative m e ∧ |(m : ℚ) * 2 ^ e - x| ≤ x / 2 ^ 53

/-- A moderate quotient is rounded to a value close to it. -/
theorem of_ratio_close (negative : Bool) {num den : Nat} (hden : 0 < den)
    (hmoderate : IsModerate ((num : ℚ) / den)) :
    IsClose negative ((num : ℚ) / den) (ofRatio negative num den) := by
  obtain ⟨hleast, hmost⟩ := hmoderate
  have hnum : 0 < num := by
    rcases Nat.eq_zero_or_pos num with rfl | h
    · norm_num at hleast
    · exact h
  obtain ⟨place, m, hlow, hhigh, hnear, -, heq⟩ := of_ratio_cases negative hnum hden
  generalize (num : ℚ) / den = x at *
  -- The number is far enough from the subnormal numbers to have all 53 bits.
  have hplace : -21 < place := by
    have h : (2 : ℚ) ^ (-20 : Int) < 2 ^ (place + 1) := by
      calc (2 : ℚ) ^ (-20 : Int) = 1 / 2 ^ 20 := by norm_num
        _ ≤ x := hleast
        _ < 2 ^ (place + 1) := hhigh
    have h' := (zpow_lt_zpow_iff_right₀ (by norm_num)).1 h
    omega
  have hplace' : place < 60 := by
    have h : (2 : ℚ) ^ place < 2 ^ (60 : Int) := by
      calc (2 : ℚ) ^ place ≤ x := hlow
        _ < 2 ^ 60 := hmost
        _ = 2 ^ (60 : Int) := by norm_num
    exact (zpow_lt_zpow_iff_right₀ (by norm_num)).1 h
  have hexponent : exponentAt place = place - 52 := by
    unfold exponentAt leastExponent
    omega
  have hgreatest : greatestExponent = 971 := rfl
  obtain ⟨m', e', hrounded, hvalue⟩ :=
    of_rounded_eq negative m (by omega : exponentAt place < greatestExponent)
  refine ⟨m', e', heq.trans hrounded, ?_⟩
  have hpow : (0 : ℚ) < 2 ^ exponentAt place := by positivity
  rw [hvalue, abs_sub_comm]
  calc |x - m * 2 ^ exponentAt place|
      = |x / 2 ^ exponentAt place - m| * 2 ^ exponentAt place := by
        rw [← abs_of_pos hpow, ← abs_mul, abs_of_pos hpow, sub_mul, div_mul_cancel₀ _ hpow.ne']
    _ ≤ 1 / 2 * 2 ^ exponentAt place := mul_le_mul_of_nonneg_right hnear hpow.le
    _ = 2 ^ place / 2 ^ 53 := by
        rw [hexponent, zpow_sub₀ (by norm_num)]
        norm_num
        ring
    _ ≤ x / 2 ^ 53 := by gcongr

/-- The fraction of a value close to a number is close to the number. -/
theorem IsClose.fraction {negative : Bool} {x : ℚ} {v : Binary64} (h : IsClose negative x v) :
    ∃ num den : Nat, 0 < den ∧ v.magnitude? = some (num, den) ∧
      |(num : ℚ) / den - x| ≤ x / 2 ^ 53 := by
  obtain ⟨m, e, rfl, hnear⟩ := h
  refine ⟨(Binary64.fraction m e).1, (Binary64.fraction m e).2, fraction_den_pos m e, rfl, ?_⟩
  rw [fraction_eq]
  exact hnear

/-- Rounding a value close to a number of thousandths to three places gives the thousandths. -/
theorem IsClose.fixed {n : Nat} {x : ℚ} {v : Binary64} (h : IsClose false x v)
    (hx : |x * 1000 - n| ≤ 1 / 4) (hmost : x < 2 ^ 40) : v.fixed 3 =
      Text.ofNat (n / 1000) ++ '.' ::
        (List.replicate (3 - (Text.ofNat (n % 1000)).length) '0' ++ Text.ofNat (n % 1000)) := by
  obtain ⟨m, e, rfl, hnear⟩ := h
  have hden := fraction_den_pos m e
  rw [← fraction_eq] at hnear
  unfold Binary64.fixed
  dsimp only
  generalize (Binary64.fraction m e).1 = num, (Binary64.fraction m e).2 = den at *
  have hunits : divHalfEven (num * 10 ^ 3) den = n := by
    have hless : |((num * 10 ^ 3 : Nat) : ℚ) / den - n| < 1 / 2 := by
      rw [abs_le] at hnear hx
      have hscaled : ((num * 10 ^ 3 : Nat) : ℚ) / den = num / den * 1000 := by
        push_cast
        ring
      rw [hscaled, abs_lt]
      constructor <;> linarith
    exact div_half_even_eq hden hless.le fun htie => absurd htie hless.ne
  rw [hunits]

end Binary64

end QueryTidy
