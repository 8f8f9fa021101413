import QueryTidy.Number.Decimal
import QueryTidy.Proofs.Number.Rounding
import QueryTidy.Proofs.Text.Numerals

/-!
# The shortest decimal of a value

The decimal that `Decimal.shortest` finds lies in the rounding interval of the value
(`shortest_rounds_to`). On each grid the search tests only the two neighbours of the value
(`on_grid_rounds_to`), and the grid of seventeen digits is so fine that one of them always lies in
the interval (`on_grid_hit`), so the search never falls back.
-/

namespace QueryTidy.Decimal

open Binary64 (fraction fraction_den_pos fraction_eq RoundsTo leastExponent)

/-- The number that a decimal denotes. -/
def value (d : Decimal) : ℚ :=
  d.digits * (10 : ℚ) ^ d.scale

/-- The fraction of a power of ten has positive parts. -/
theorem power_pos (scale : Int) : 0 < (power scale).1 ∧ 0 < (power scale).2 := by
  unfold power
  split <;> exact ⟨by positivity, by positivity⟩

/-- The fraction of a power of ten is the power. -/
theorem power_eq (scale : Int) :
    ((power scale).1 : ℚ) / (power scale).2 = (10 : ℚ) ^ scale := by
  unfold power
  split
  · rename_i hs
    obtain ⟨n, rfl⟩ := Int.eq_ofNat_of_zero_le hs
    simp
  · rename_i hs
    obtain ⟨n, hn⟩ := Int.eq_ofNat_of_zero_le (by omega : 0 ≤ -scale)
    have hs : scale = -(n : Int) := by omega
    subst hs
    simp [zpow_neg]

/-! ## The first digit -/

/-- The leading exponent of a positive fraction is one of a power of ten that is not above it. -/
theorem leading_exponent_le {num den : Nat} (hnum : 0 < num) (hden : 0 < den) :
    (10 : ℚ) ^ leadingExponent num den ≤ (num : ℚ) / den := by
  have hposn : (0 : ℚ) < num := by exact_mod_cast hnum
  have hposd : (0 : ℚ) < den := by exact_mod_cast hden
  unfold leadingExponent
  split
  · rename_i hle
    have hquot : 0 < num / den := Nat.div_pos hle hden
    have hlength : 0 < (Text.ofNat (num / den)).length :=
      List.length_pos_iff.2 (Text.of_nat_ne_nil _)
    obtain ⟨n, hn⟩ : ∃ n, (Text.ofNat (num / den)).length = n + 1 :=
      ⟨_, (Nat.succ_pred hlength.ne').symm⟩
    have hpow : 10 ^ n ≤ num / den := by
      rcases Nat.eq_zero_or_pos n with rfl | hpos
      · rw [pow_zero]
        exact hquot
      · by_contra hless
        have h := (Text.of_nat_length_le_iff hpos).2 (by omega : num / den < 10 ^ n)
        omega
    rw [hn, le_div_iff₀ hposd, show ((n + 1 : Nat) : Int) - 1 = n by omega, zpow_natCast]
    exact_mod_cast (Nat.le_div_iff_mul_le hden).1 hpow
  · rename_i hless
    generalize hc : (den + num - 1) / num - 1 = c
    have hlength : 0 < (Text.ofNat c).length := List.length_pos_iff.2 (Text.of_nat_ne_nil _)
    have hpow := (Text.of_nat_length_le_iff hlength).1 le_rfl
    -- The fraction is at least one over the next power of ten above `c`.
    have hceil : (den + num - 1) / num ≤ 10 ^ (Text.ofNat c).length := by omega
    have hmul : den ≤ num * 10 ^ (Text.ofNat c).length := by
      have h := Nat.lt_mul_of_div_lt (Nat.lt_succ_of_le hceil) hnum
      rw [Nat.mul_comm, Nat.succ_eq_add_one, Nat.mul_add] at h
      omega
    rw [le_div_iff₀ hposd, zpow_neg, zpow_natCast, inv_mul_le_iff₀ (by positivity), mul_comm]
    exact_mod_cast hmul

/-! ## Grids -/

/-- Comparing multiples of two fractions without fractions. -/
theorem cross_le_iff {a b p q r s : Nat} (hq : 0 < q) (hs : 0 < s) :
    a * p * s ≤ b * r * q ↔ (a : ℚ) * (p / q) ≤ b * (r / s) := by
  have hq' : (0 : ℚ) < q := by exact_mod_cast hq
  have hs' : (0 : ℚ) < s := by exact_mod_cast hs
  rw [← mul_div_assoc, ← mul_div_assoc, div_le_div_iff₀ hq' hs']
  exact_mod_cast Iff.rfl

/-- The powers of two of a value and of the units in which its interval is given. -/
theorem quarter_units (e : Int) : (2 : ℚ) ^ (e - 2) = 2 ^ e / 4 := by
  rw [zpow_sub₀ (by norm_num)]
  norm_num

/-- The ends of the rounding interval, in units of the mantissa. -/
theorem rounding_interval_low {m : Nat} (hm : 0 < m) (e : Int) :
    ((roundingInterval m e).1 : ℚ) / 4 =
      m - (if m = 2 ^ 52 ∧ leastExponent < e then 1 / 4 else 1 / 2) := by
  unfold roundingInterval
  simp only
  split
  · rw [Nat.cast_sub (by omega)]
    push_cast
    ring
  · rw [Nat.cast_sub (by omega)]
    push_cast
    ring

/-- A multiple of a power of ten between the ends of the interval rounds to the value. -/
theorem rounds_to_of_inside {m k : Nat} {e scale : Int} (hm : 0 < m)
    (h : if m % 2 = 0 then
        ((roundingInterval m e).1 : ℚ) * 2 ^ (e - 2) ≤ k * 10 ^ scale ∧
          (k : ℚ) * 10 ^ scale ≤ (4 * m + 2 : Nat) * 2 ^ (e - 2)
      else
        ((roundingInterval m e).1 : ℚ) * 2 ^ (e - 2) < k * 10 ^ scale ∧
          (k : ℚ) * 10 ^ scale < (4 * m + 2 : Nat) * 2 ^ (e - 2)) :
    RoundsTo m e ((k : ℚ) * 10 ^ scale) := by
  have hpow : (0 : ℚ) < 2 ^ e := by positivity
  have hlow := rounding_interval_low hm e
  rw [quarter_units] at h
  generalize hx : (k : ℚ) * 10 ^ scale = x at h ⊢
  have hscaled : x = x / 2 ^ e * 2 ^ e := by field_simp
  rw [hscaled, ← mul_div_assoc, ← mul_div_assoc, mul_div_right_comm, mul_div_right_comm] at h
  have hhigh : (((4 * m + 2 : Nat) : ℚ)) / 4 = m + 1 / 2 := by
    push_cast
    ring
  rw [hlow, hhigh] at h
  split at h
  · rename_i heven
    exact ⟨le_of_mul_le_mul_right h.1 hpow, le_of_mul_le_mul_right h.2 hpow, fun hodd => by omega⟩
  · rename_i hodd
    have h1 := lt_of_mul_lt_mul_right h.1 hpow.le
    have h2 := lt_of_mul_lt_mul_right h.2 hpow.le
    refine ⟨h1.le, h2.le, fun _ => ⟨?_, h2⟩⟩
    rwa [if_neg (fun h => hodd (by rw [h.1]; norm_num))] at h1

/-- A multiple `k * 10 ^ scale` in the units in which `onGrid?` compares. -/
def gridUnits (e scale : Int) (k : Nat) : Nat :=
  k * (power scale).1 * (fraction 1 (e - 2)).2

/-- A multiple `u * 2 ^ (e - 2)` in the units in which `onGrid?` compares. -/
def valueUnits (e scale : Int) (u : Nat) : Nat :=
  u * (fraction 1 (e - 2)).1 * (power scale).2

/-- The test of `onGrid?`. -/
def isInside (m : Nat) (e scale : Int) (k : Nat) : Bool :=
  if (roundingInterval m e).2.2 then
    valueUnits e scale (roundingInterval m e).1 ≤ gridUnits e scale k &&
      gridUnits e scale k ≤ valueUnits e scale (roundingInterval m e).2.1
  else
    valueUnits e scale (roundingInterval m e).1 < gridUnits e scale k &&
      gridUnits e scale k < valueUnits e scale (roundingInterval m e).2.1

/-- The multiple below a value or at it. -/
def floorMultiple (m : Nat) (e scale : Int) : Nat :=
  valueUnits e scale (4 * m) / gridUnits e scale 1

/-- The multiple next to a value. -/
def nearestMultiple (m : Nat) (e scale : Int) : Nat :=
  if 2 * valueUnits e scale (4 * m) < gridUnits e scale (2 * floorMultiple m e scale + 1) then
    floorMultiple m e scale
  else floorMultiple m e scale + 1

/-- The other neighbour of a value among the multiples. -/
def fartherMultiple (m : Nat) (e scale : Int) : Nat :=
  if nearestMultiple m e scale = floorMultiple m e scale then floorMultiple m e scale + 1
  else floorMultiple m e scale

/-- The search on a grid, with names for its parts. -/
theorem on_grid_eq (m : Nat) (e scale : Int) :
    onGrid? m e scale =
      if isInside m e scale (nearestMultiple m e scale) then some (nearestMultiple m e scale)
      else if isInside m e scale (fartherMultiple m e scale) then
        some (fartherMultiple m e scale)
      else none :=
  rfl

/-- Comparing in units is comparing numbers. -/
theorem value_le_grid_iff (e scale : Int) (u k : Nat) :
    valueUnits e scale u ≤ gridUnits e scale k ↔ (u : ℚ) * 2 ^ (e - 2) ≤ k * 10 ^ scale := by
  unfold valueUnits gridUnits
  rw [cross_le_iff (fraction_den_pos 1 (e - 2)) (power_pos scale).2, fraction_eq, power_eq,
    Nat.cast_one, one_mul]

/-- Comparing in units is comparing numbers, with the sides exchanged. -/
theorem grid_le_value_iff (e scale : Int) (u k : Nat) :
    gridUnits e scale k ≤ valueUnits e scale u ↔ (k : ℚ) * 10 ^ scale ≤ u * 2 ^ (e - 2) := by
  unfold valueUnits gridUnits
  rw [cross_le_iff (power_pos scale).2 (fraction_den_pos 1 (e - 2)), fraction_eq, power_eq,
    Nat.cast_one, one_mul]

/-- The test of the search holds exactly between the ends of the interval. -/
theorem is_inside_iff (m : Nat) (e scale : Int) (k : Nat) :
    isInside m e scale k = true ↔
      if m % 2 = 0 then
        ((roundingInterval m e).1 : ℚ) * 2 ^ (e - 2) ≤ k * 10 ^ scale ∧
          (k : ℚ) * 10 ^ scale ≤ (4 * m + 2 : Nat) * 2 ^ (e - 2)
      else
        ((roundingInterval m e).1 : ℚ) * 2 ^ (e - 2) < k * 10 ^ scale ∧
          (k : ℚ) * 10 ^ scale < (4 * m + 2 : Nat) * 2 ^ (e - 2) := by
  have hends : (roundingInterval m e).2 = (4 * m + 2, decide (m % 2 = 0)) := rfl
  unfold isInside
  rw [hends]
  simp only [decide_eq_true_eq]
  split
  · rw [Bool.and_eq_true, decide_eq_true_eq, decide_eq_true_eq, value_le_grid_iff,
      grid_le_value_iff]
  · rw [Bool.and_eq_true, decide_eq_true_eq, decide_eq_true_eq, ← not_le, ← not_le,
      grid_le_value_iff, value_le_grid_iff, not_le, not_le]

/-- What the search finds rounds to the value. -/
theorem on_grid_rounds_to {m k : Nat} {e scale : Int} (hm : 0 < m)
    (h : onGrid? m e scale = some k) : RoundsTo m e ((k : ℚ) * 10 ^ scale) := by
  have hinside : isInside m e scale k = true := by
    rw [on_grid_eq] at h
    split at h
    · rename_i hnear
      cases h
      exact hnear
    · split at h
      · rename_i hfar
        cases h
        exact hfar
      · cases h
  exact rounds_to_of_inside hm ((is_inside_iff m e scale k).1 hinside)

/-- The multiple next to a value is at most half a step away. -/
theorem nearest_multiple_near {m : Nat} (e scale : Int) :
    |(m : ℚ) * 2 ^ e - nearestMultiple m e scale * 10 ^ scale| ≤ 10 ^ scale / 2 := by
  have hfour : ((4 * m : Nat) : ℚ) * 2 ^ (e - 2) = m * 2 ^ e := by
    rw [quarter_units]
    push_cast
    ring
  have hone : 0 < gridUnits e scale 1 := by
    unfold gridUnits
    exact Nat.mul_pos (Nat.mul_pos Nat.one_pos (power_pos scale).1) (fraction_den_pos _ _)
  have hmul : ∀ k, gridUnits e scale k = k * gridUnits e scale 1 := by
    intro k
    unfold gridUnits
    ring
  have htwice : 2 * valueUnits e scale (4 * m) = valueUnits e scale (2 * (4 * m)) := by
    unfold valueUnits
    ring
  have hpow : (0 : ℚ) < 10 ^ scale := by positivity
  -- The value lies between the multiple below it and the next one.
  have hlow : (floorMultiple m e scale : ℚ) * 10 ^ scale ≤ m * 2 ^ e := by
    rw [← hfour, ← grid_le_value_iff, hmul]
    exact Nat.div_mul_le_self _ _
  have hhigh : (m : ℚ) * 2 ^ e < (floorMultiple m e scale + 1) * 10 ^ scale := by
    have hnext : valueUnits e scale (4 * m) <
        (floorMultiple m e scale + 1) * gridUnits e scale 1 := by
      rw [Nat.mul_comm (floorMultiple m e scale + 1)]
      exact Nat.lt_mul_div_succ _ hone
    rw [← hfour, ← Nat.cast_succ, ← not_le, ← grid_le_value_iff, hmul, not_le]
    exact hnext
  unfold nearestMultiple
  split
  · rename_i hnear
    rw [htwice, ← not_le, grid_le_value_iff, not_le] at hnear
    push_cast at hnear hfour
    rw [abs_of_nonneg (by linarith)]
    linarith
  · rename_i hfar
    rw [htwice, not_lt, grid_le_value_iff] at hfar
    push_cast at hfar hfour ⊢
    rw [abs_of_nonpos (by linarith)]
    linarith

/-- On a grid that is fine enough the search finds a multiple. -/
theorem on_grid_hit {m : Nat} {e scale : Int} (hm : 0 < m)
    (hfine : (10 : ℚ) ^ scale <
      2 ^ e * if m = 2 ^ 52 ∧ leastExponent < e then 1 / 2 else 1) :
    (onGrid? m e scale).isSome = true := by
  have hnear := nearest_multiple_near (m := m) e scale
  rw [abs_le] at hnear
  have hlow := rounding_interval_low hm e
  have hpow : (0 : ℚ) < 2 ^ e := by positivity
  have hinside : isInside m e scale (nearestMultiple m e scale) = true := by
    rw [is_inside_iff, quarter_units]
    have hlow' : ((roundingInterval m e).1 : ℚ) * (2 ^ e / 4) =
        (m - (if m = 2 ^ 52 ∧ leastExponent < e then 1 / 4 else 1 / 2)) * 2 ^ e := by
      rw [← hlow]
      ring
    have hhigh : ((4 * m + 2 : Nat) : ℚ) * (2 ^ e / 4) = (m + 1 / 2) * 2 ^ e := by
      push_cast
      ring
    rw [hlow', hhigh]
    by_cases h52 : m = 2 ^ 52 ∧ leastExponent < e
    · rw [if_pos h52] at hfine
      rw [if_pos h52]
      split <;> constructor <;> linarith
    · rw [if_neg h52] at hfine
      rw [if_neg h52]
      split <;> constructor <;> linarith
  rw [on_grid_eq, if_pos hinside]
  rfl

/-- The search over the grids finds a number that rounds to the value if one of the grids has
one. -/
theorem first_on_grid_rounds_to {m : Nat} {e leading : Int} (hm : 0 < m) (fuel count : Nat)
    (h : ∃ i < fuel, (onGrid? m e (leading - (count + i : Nat))).isSome = true) :
    RoundsTo m e (firstOnGrid m e leading fuel count).value := by
  induction fuel generalizing count with
  | zero =>
      obtain ⟨i, hi, -⟩ := h
      omega
  | succ fuel ih =>
      unfold firstOnGrid
      split
      · rename_i k hk
        exact on_grid_rounds_to hm hk
      · rename_i hnone
        refine ih (count + 1) ?_
        obtain ⟨i, hi, hsome⟩ := h
        cases i with
        | zero => simp [hnone] at hsome
        | succ i =>
            refine ⟨i, by omega, ?_⟩
            rwa [show count + (i + 1) = count + 1 + i by omega] at hsome

/-- Dropping final zeros keeps the number. -/
theorem strip_zeros_value (fuel : Nat) (d : Decimal) : (stripZeros fuel d).value = d.value := by
  induction fuel generalizing d with
  | zero => rfl
  | succ fuel ih =>
      unfold stripZeros
      split
      · rename_i h
        rw [ih]
        unfold value
        have hdigits : (d.digits : ℚ) = (d.digits / 10 : Nat) * 10 := by
          exact_mod_cast (Nat.div_mul_cancel (Nat.dvd_of_mod_eq_zero h.2)).symm
        rw [hdigits, zpow_add_one₀ (by norm_num)]
        ring
      · rfl

/-- The shortest decimal of a value lies in its rounding interval. -/
theorem shortest_rounds_to {m : Nat} {e : Int} (hm : 0 < m)
    (hcanonical : (Binary64.finite false m e).IsCanonical) :
    RoundsTo m e (shortest m e).value := by
  obtain ⟨hm53, -, -, hsub⟩ := hcanonical
  unfold shortest
  rcases hfraction : fraction m e with ⟨num, den⟩
  simp only
  rw [strip_zeros_value]
  have hden : 0 < den := by
    have h := fraction_den_pos m e
    rwa [hfraction] at h
  have hvalue : (num : ℚ) / den = m * 2 ^ e := by
    have h := fraction_eq m e
    rwa [hfraction] at h
  have hpow : (0 : ℚ) < 2 ^ e := by positivity
  have hm' : (0 : ℚ) < m := by exact_mod_cast hm
  have hnum : 0 < num := by
    rcases Nat.eq_zero_or_pos num with rfl | h
    · rw [Nat.cast_zero, zero_div] at hvalue
      exact absurd hvalue (mul_pos hm' hpow).ne
    · exact h
  have hleading := leading_exponent_le hnum hden
  rw [hvalue] at hleading
  -- Seventeen digits make steps that are smaller than the interval.
  refine first_on_grid_rounds_to hm 17 0 ⟨16, by norm_num, on_grid_hit hm ?_⟩
  have hstep : (10 : ℚ) ^ (leadingExponent num den - ((0 + 16 : Nat) : Int)) =
      10 ^ leadingExponent num den / 10 ^ 16 := by
    rw [zpow_sub₀ (by norm_num)]
    norm_num
  rw [hstep, div_lt_iff₀ (by positivity)]
  refine lt_of_le_of_lt hleading ?_
  split
  · rename_i h52
    rw [h52.1]
    norm_num
    linarith
  · have hm53' : (m : ℚ) < 2 ^ 53 := by exact_mod_cast hm53
    nlinarith

end QueryTidy.Decimal
