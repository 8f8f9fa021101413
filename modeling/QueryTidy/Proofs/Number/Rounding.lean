import Mathlib.Algebra.Order.Field.Power
import Mathlib.Data.Rat.Cast.Order
import Mathlib.Tactic.FieldSimp
import Mathlib.Tactic.Linarith
import Mathlib.Tactic.NormNum
import Mathlib.Tactic.Positivity
import Mathlib.Tactic.Ring
import QueryTidy.Number.Binary64

/-!
# Rounding to double precision

The magnitudes of the format are compared as rational numbers. `Binary64.of_ratio_cases` says what
`ofRatio` does once: it rounds the quotient to a multiple of the power of two that leaves 53 bits.
From it follow that every result is canonical (`of_ratio_canonical`), and that every number of a
rounding interval rounds to the value in it (`of_ratio_of_rounds_to`).
-/

namespace QueryTidy

/-! ## Quotients -/

/-- A quotient of natural numbers is its whole part and the rest, which is less than one. -/
theorem quotient_eq (num : Nat) {den : Nat} (hden : 0 < den) :
    (num : ℚ) / den = (num / den : Nat) + (num % den : Nat) / den ∧
      (0 : ℚ) ≤ (num % den : Nat) / den ∧ ((num % den : Nat) : ℚ) / den < 1 := by
  have hpos : (0 : ℚ) < den := by exact_mod_cast hden
  have hsplit : (num : ℚ) = den * (num / den : Nat) + (num % den : Nat) := by
    exact_mod_cast (Nat.div_add_mod num den).symm
  refine ⟨?_, by positivity, ?_⟩
  · conv_lhs => rw [hsplit]
    field_simp
  · rw [div_lt_one hpos]
    exact_mod_cast Nat.mod_lt num hden

/-- Rounding moves a quotient by a half at most, and where it moves it by a half, it yields an even
number. -/
theorem div_half_even_near (num : Nat) {den : Nat} (hden : 0 < den) :
    |(num : ℚ) / den - divHalfEven num den| ≤ 1 / 2 ∧
      (|(num : ℚ) / den - divHalfEven num den| = 1 / 2 → divHalfEven num den % 2 = 0) := by
  have hpos : (0 : ℚ) < den := by exact_mod_cast hden
  obtain ⟨hquot, hlow, hone⟩ := quotient_eq num hden
  simp only [divHalfEven, hquot]
  -- The rest lies below the half, above it, or at it.
  split
  · have hhalf : ((num % den : Nat) : ℚ) / den < 1 / 2 := by
      rw [div_lt_div_iff₀ hpos (by norm_num)]
      exact_mod_cast (by omega : num % den * 2 < 1 * den)
    rw [add_sub_cancel_left, abs_of_nonneg hlow]
    exact ⟨hhalf.le, fun h => absurd h hhalf.ne⟩
  · split
    · have hhalf : (1 : ℚ) / 2 < (num % den : Nat) / den := by
        rw [div_lt_div_iff₀ (by norm_num) hpos]
        exact_mod_cast (by omega : 1 * den < num % den * 2)
      push_cast
      rw [abs_of_nonpos (by linarith)]
      exact ⟨by linarith, fun h => by linarith⟩
    · have hhalf : ((num % den : Nat) : ℚ) / den = 1 / 2 := by
        rw [div_eq_div_iff hpos.ne' (by norm_num)]
        exact_mod_cast (by omega : num % den * 2 = 1 * den)
      rw [hhalf]
      split
      · rename_i heven
        rw [add_sub_cancel_left, abs_of_nonneg (by norm_num)]
        exact ⟨le_rfl, fun _ => heven⟩
      · rename_i hodd
        push_cast
        rw [abs_of_nonpos (by linarith)]
        exact ⟨by linarith, fun _ => by omega⟩

/-- The natural number next to a quotient is the one that rounding yields; of two at the same
distance it is the even one. -/
theorem div_half_even_eq {num den q : Nat} (hden : 0 < den)
    (hnear : |(num : ℚ) / den - q| ≤ 1 / 2)
    (htie : |(num : ℚ) / den - q| = 1 / 2 → q % 2 = 0) : divHalfEven num den = q := by
  obtain ⟨hround, heven⟩ := div_half_even_near num hden
  generalize divHalfEven num den = r at hround heven
  generalize (num : ℚ) / den = x at hnear htie hround heven
  rw [abs_le] at hnear hround
  -- The two numbers differ by one at most, and if they do, the quotient is half way between.
  have hle : (r : ℚ) ≤ q + 1 := by linarith
  have hge : (q : ℚ) ≤ r + 1 := by linarith
  have hle' : r ≤ q + 1 := by exact_mod_cast hle
  have hge' : q ≤ r + 1 := by exact_mod_cast hge
  by_contra hne
  rcases (by omega : r = q + 1 ∨ q = r + 1) with rfl | rfl
  · push_cast at *
    have hq := htie (by rw [abs_of_nonneg] <;> linarith)
    have hr := heven (by rw [abs_of_nonpos] <;> linarith)
    omega
  · push_cast at *
    have hq := htie (by rw [abs_of_nonpos] <;> linarith)
    have hr := heven (by rw [abs_of_nonneg] <;> linarith)
    omega

namespace Binary64

/-! ## Fractions -/

/-- The fraction of a mantissa and an exponent has a positive denominator. -/
theorem fraction_den_pos (m : Nat) (e : Int) : 0 < (fraction m e).2 := by
  unfold fraction
  split <;> positivity

/-- The fraction of a mantissa and an exponent is the number that they denote. -/
theorem fraction_eq (m : Nat) (e : Int) :
    ((fraction m e).1 : ℚ) / (fraction m e).2 = m * (2 : ℚ) ^ e := by
  unfold fraction
  split
  · rename_i he
    obtain ⟨n, rfl⟩ := Int.eq_ofNat_of_zero_le he
    simp
  · rename_i he
    obtain ⟨n, hn⟩ := Int.eq_ofNat_of_zero_le (by omega : 0 ≤ -e)
    have he : e = -(n : Int) := by omega
    subst he
    simp [zpow_neg, div_eq_mul_inv]

/-! ## Canonical values -/

/-- The value is kept in the one form that it has in the format. -/
def IsCanonical : Binary64 → Prop
  | .nan => True
  | .infinite _ => True
  | .finite _ m e =>
      m < 2 ^ 53 ∧ leastExponent ≤ e ∧ e ≤ greatestExponent ∧ (m < 2 ^ 52 → e = leastExponent)

/-- Zero is canonical. -/
theorem zero_canonical (negative : Bool) : (zero negative).IsCanonical := by
  simp [zero, IsCanonical, leastExponent, greatestExponent]

/-- The opposite of a canonical value is canonical. -/
theorem neg_canonical {v : Binary64} (h : v.IsCanonical) : v.neg.IsCanonical := by
  cases v <;> exact h

/-- The opposite of a value with a sign has none. -/
theorem neg_unsigned {v : Binary64} (h : v.isNegative = true) : v.neg.isNegative = false := by
  cases v with
  | nan => rfl
  | infinite negative => exact congrArg (!·) h
  | finite negative m e => exact congrArg (!·) h

/-- The opposite of the opposite is the value itself. -/
theorem neg_neg (v : Binary64) : v.neg.neg = v := by
  cases v <;> simp [neg]

/-! ## Places between powers of two -/

/-- The product of two powers of two, the first of which is a whole number. -/
theorem two_pow_mul_zpow (n : Nat) (e : Int) : (2 : ℚ) ^ n * 2 ^ e = 2 ^ ((n : Int) + e) := by
  rw [zpow_add₀ (by norm_num), zpow_natCast]

/-- The length of a positive number in bits gives the powers of two around it. -/
theorem log_bounds {n : Nat} (hn : 0 < n) :
    (2 : ℚ) ^ (Nat.log2 n : Int) ≤ n ∧ (n : ℚ) < 2 ^ ((Nat.log2 n : Int) + 1) := by
  constructor
  · rw [zpow_natCast]
    exact_mod_cast Nat.log2_self_le hn.ne'
  · rw [← Nat.cast_succ, zpow_natCast]
    exact_mod_cast Nat.lt_log2_self

/-- The difference of two lengths gives the powers of two around a quotient, two places apart. -/
theorem quotient_log_bounds {num den : Nat} (hnum : 0 < num) (hden : 0 < den) :
    (2 : ℚ) ^ ((Nat.log2 num : Int) - Nat.log2 den - 1) ≤ num / den ∧
      (num : ℚ) / den < 2 ^ ((Nat.log2 num : Int) - Nat.log2 den + 1) := by
  have hpos : (0 : ℚ) < den := by exact_mod_cast hden
  obtain ⟨hnlow, hnhigh⟩ := log_bounds hnum
  obtain ⟨hdlow, hdhigh⟩ := log_bounds hden
  generalize (Nat.log2 num : Int) = a at *
  generalize (Nat.log2 den : Int) = b at *
  constructor
  · rw [le_div_iff₀ hpos]
    calc (2 : ℚ) ^ (a - b - 1) * den ≤ 2 ^ (a - b - 1) * 2 ^ (b + 1) := by gcongr
      _ = 2 ^ a := by
          rw [← zpow_add₀ (by norm_num)]
          congr 1
          omega
      _ ≤ num := hnlow
  · rw [div_lt_iff₀ hpos]
    calc (num : ℚ) < 2 ^ (a + 1) := hnhigh
      _ = 2 ^ (a - b + 1) * 2 ^ b := by
          rw [← zpow_add₀ (by norm_num)]
          congr 1
          omega
      _ ≤ 2 ^ (a - b + 1) * den := by gcongr

/-- The comparison of a quotient with a power of two, made in natural numbers. -/
theorem below_power_iff (num : Nat) {den : Nat} (hden : 0 < den) (k : Int) :
    (if 0 ≤ k then decide (num < den * 2 ^ k.toNat)
      else decide (num * 2 ^ (-k).toNat < den)) = true ↔ (num : ℚ) / den < 2 ^ k := by
  have hpos : (0 : ℚ) < den := by exact_mod_cast hden
  rw [div_lt_iff₀ hpos]
  split
  · rename_i hk
    obtain ⟨n, rfl⟩ := Int.eq_ofNat_of_zero_le hk
    rw [decide_eq_true_eq, Int.toNat_natCast, zpow_natCast, mul_comm]
    exact_mod_cast Iff.rfl
  · rename_i hk
    obtain ⟨n, hn⟩ := Int.eq_ofNat_of_zero_le (by omega : 0 ≤ -k)
    obtain rfl : k = -(n : Int) := by omega
    rw [decide_eq_true_eq, hn, Int.toNat_natCast, zpow_neg, zpow_natCast, inv_mul_eq_div,
      lt_div_iff₀ (by positivity)]
    exact_mod_cast Iff.rfl

/-- The place of a positive quotient between powers of two, as `ofRatio` finds it. -/
theorem exists_binary_place {num den : Nat} (hnum : 0 < num) (hden : 0 < den) :
    let logs : Int := (Nat.log2 num : Int) - (Nat.log2 den : Int)
    let below : Bool :=
      if 0 ≤ logs then num < den * 2 ^ logs.toNat else num * 2 ^ (-logs).toNat < den
    let place := if below then logs - 1 else logs
    (2 : ℚ) ^ place ≤ num / den ∧ (num : ℚ) / den < 2 ^ (place + 1) := by
  intro logs below place
  obtain ⟨hlow, hhigh⟩ := quotient_log_bounds hnum hden
  -- The test compares the quotient with the power that the lengths suggest.
  have hbelow : below = true ↔ (num : ℚ) / den < 2 ^ logs := below_power_iff num hden logs
  by_cases hb : below = true
  · have hplace : place = logs - 1 := if_pos hb
    rw [hplace]
    refine ⟨hlow, ?_⟩
    rw [sub_add_cancel]
    exact hbelow.1 hb
  · have hplace : place = logs := if_neg hb
    rw [hplace]
    exact ⟨not_lt.1 fun h => hb (hbelow.2 h), hhigh⟩

/-! ## Rounded quotients -/

/-- A quotient in units of a power of two is a quotient of natural numbers again, and this is the
one that `ofRatio` rounds. -/
theorem exists_units (num : Nat) {den : Nat} (hden : 0 < den) (e : Int) :
    ∃ num' den' : Nat, 0 < den' ∧ (num' : ℚ) / den' = num / den / 2 ^ e ∧
      (if 0 ≤ e then divHalfEven num (den * 2 ^ e.toNat)
        else divHalfEven (num * 2 ^ (-e).toNat) den) = divHalfEven num' den' := by
  by_cases he : 0 ≤ e
  · refine ⟨num, den * 2 ^ e.toNat, by positivity, ?_, if_pos he⟩
    obtain ⟨n, rfl⟩ := Int.eq_ofNat_of_zero_le he
    push_cast
    rw [Int.toNat_natCast, zpow_natCast, div_div]
  · refine ⟨num * 2 ^ (-e).toNat, den, hden, ?_, if_neg he⟩
    obtain ⟨n, hn⟩ := Int.eq_ofNat_of_zero_le (by omega : 0 ≤ -e)
    obtain rfl : e = -(n : Int) := by omega
    rw [hn]
    push_cast
    rw [Int.toNat_natCast, zpow_neg, zpow_natCast, div_inv_eq_mul, mul_div_right_comm]

/-- The value of a mantissa of at most `2 ^ 53` after rounding: a carry moves the exponent. -/
def ofRounded (negative : Bool) (mantissa : Nat) (exponent : Int) : Binary64 :=
  if mantissa = 2 ^ 53 then
    if greatestExponent < exponent + 1 then .infinite negative
    else .finite negative (2 ^ 52) (exponent + 1)
  else if greatestExponent < exponent then .infinite negative
  else .finite negative mantissa exponent

/-- The exponent to which a quotient at the given place between powers of two is rounded. -/
def exponentAt (place : Int) : Int :=
  max leastExponent (place - 52)

/-- A positive quotient is rounded to a multiple of the power of two at its place. -/
theorem of_ratio_cases (negative : Bool) {num den : Nat} (hnum : 0 < num) (hden : 0 < den) :
    ∃ (place : Int) (mantissa : Nat),
      (2 : ℚ) ^ place ≤ num / den ∧ (num : ℚ) / den < 2 ^ (place + 1) ∧
      |(num : ℚ) / den / 2 ^ exponentAt place - mantissa| ≤ 1 / 2 ∧
      (∀ q : Nat, |(num : ℚ) / den / 2 ^ exponentAt place - q| ≤ 1 / 2 →
        (|(num : ℚ) / den / 2 ^ exponentAt place - q| = 1 / 2 → q % 2 = 0) → mantissa = q) ∧
      ofRatio negative num den = ofRounded negative mantissa (exponentAt place) := by
  have hplace := exists_binary_place hnum hden
  unfold ofRatio
  rw [if_neg hnum.ne']
  simp only at hplace ⊢
  generalize (Nat.log2 num : Int) - (Nat.log2 den : Int) = logs at hplace ⊢
  generalize hbelow : (if 0 ≤ logs then decide (num < den * 2 ^ logs.toNat)
    else decide (num * 2 ^ (-logs).toNat < den)) = below at hplace ⊢
  have hexponent : (if below = true then logs - 53 else logs - 52) =
      (if below = true then logs - 1 else logs) - 52 := by
    split <;> omega
  rw [hexponent]
  generalize (if below = true then logs - 1 else logs) = place at hplace ⊢
  change _ ∧ _ at hplace
  obtain ⟨num', den', hden', hunits, hmantissa⟩ := exists_units num hden (exponentAt place)
  refine ⟨place, divHalfEven num' den', hplace.1, hplace.2, ?_, ?_, ?_⟩
  · rw [← hunits]
    exact (div_half_even_near num' hden').1
  · intro q hnear htie
    rw [← hunits] at hnear htie
    exact div_half_even_eq hden' hnear htie
  · rw [← hmantissa, show max leastExponent (place - 52) = exponentAt place from rfl]
    generalize (if 0 ≤ exponentAt place then divHalfEven num (den * 2 ^ (exponentAt place).toNat)
      else divHalfEven (num * 2 ^ (-exponentAt place).toNat) den) = m
    unfold ofRounded
    by_cases hm : m = 2 ^ 53
    · simp only [hm, decide_true, ↓reduceIte]
    · simp only [hm, decide_false, Bool.false_eq_true, ↓reduceIte]

/-- What a quotient at a place comes to in units of its exponent: less than `2 ^ 53`, and at least
`2 ^ 52` unless the exponent is the least one. -/
theorem units_bounds {place : Int} {x : ℚ} (hlow : (2 : ℚ) ^ place ≤ x)
    (hhigh : x < 2 ^ (place + 1)) :
    x / 2 ^ exponentAt place < 2 ^ 53 ∧
      (leastExponent < exponentAt place → 2 ^ 52 ≤ x / 2 ^ exponentAt place) ∧
      (exponentAt place = leastExponent ∨ exponentAt place = place - 52) := by
  have hcases : exponentAt place = leastExponent ∨ exponentAt place = place - 52 := by
    unfold exponentAt
    omega
  have hpos : (0 : ℚ) < 2 ^ exponentAt place := by positivity
  refine ⟨?_, ?_, hcases⟩
  · rw [div_lt_iff₀ hpos]
    calc x < 2 ^ (place + 1) := hhigh
      _ ≤ 2 ^ ((53 : Int) + exponentAt place) := by
          refine zpow_le_zpow_right₀ (by norm_num) ?_
          unfold exponentAt
          omega
      _ = 2 ^ 53 * 2 ^ exponentAt place := (two_pow_mul_zpow 53 _).symm
  · intro hleast
    have he : exponentAt place = place - 52 := by
      rcases hcases with h | h
      · omega
      · exact h
    rw [le_div_iff₀ hpos, he]
    calc (2 : ℚ) ^ 52 * 2 ^ (place - 52) = 2 ^ ((52 : Int) + (place - 52)) :=
          two_pow_mul_zpow 52 _
      _ = 2 ^ place := by
          congr 1
          omega
      _ ≤ x := hlow

/-- Rounding does not pass a natural number above the rounded one. -/
theorem le_of_near {x : ℚ} {m n : Nat} (hnear : |x - m| ≤ 1 / 2) (hx : x < n) : m ≤ n := by
  have h : (m : ℚ) < n + 1 := by linarith [(abs_le.1 hnear).1]
  exact Nat.lt_succ_iff.1 (by exact_mod_cast h)

/-- Rounding does not pass a natural number below the rounded one. -/
theorem ge_of_near {x : ℚ} {m n : Nat} (hnear : |x - m| ≤ 1 / 2) (hx : n ≤ x) : n ≤ m := by
  have h : (n : ℚ) < m + 1 := by linarith [(abs_le.1 hnear).2]
  exact Nat.lt_succ_iff.1 (by exact_mod_cast h)

/-- Every result of rounding is canonical. -/
theorem of_ratio_canonical (negative : Bool) (num : Nat) {den : Nat} (hden : 0 < den) :
    (ofRatio negative num den).IsCanonical := by
  rcases Nat.eq_zero_or_pos num with rfl | hnum
  · simpa [ofRatio] using zero_canonical negative
  obtain ⟨place, m, hlow, hhigh, hnear, -, heq⟩ := of_ratio_cases negative hnum hden
  obtain ⟨hless, hmore, hcases⟩ := units_bounds hlow hhigh
  have hle : m ≤ 2 ^ 53 := le_of_near hnear (by exact_mod_cast hless)
  have hge : leastExponent < exponentAt place → 2 ^ 52 ≤ m := fun hleast =>
    ge_of_near hnear (by exact_mod_cast hmore hleast)
  have hexp : leastExponent ≤ exponentAt place := le_max_left _ _
  rw [heq]
  unfold ofRounded
  split
  · split
    · trivial
    · exact ⟨by norm_num, by omega, by omega, by omega⟩
  · split
    · trivial
    · exact ⟨by omega, hexp, by omega, by omega⟩

/-- A mantissa after rounding keeps its magnitude when it is carried. -/
theorem of_rounded_eq (negative : Bool) (m : Nat) {e : Int} (he : e < greatestExponent) :
    ∃ m' e', ofRounded negative m e = .finite negative m' e' ∧
      (m' : ℚ) * 2 ^ e' = m * 2 ^ e := by
  unfold ofRounded
  split
  · rename_i hcarried
    rw [if_neg (by omega)]
    refine ⟨2 ^ 52, e + 1, rfl, ?_⟩
    rw [hcarried, zpow_add₀ (by norm_num)]
    norm_num
    ring
  · rw [if_neg (by omega)]
    exact ⟨m, e, rfl, rfl⟩

/-- A number below a power of two is rounded to a finite value that is not above the power. -/
theorem of_ratio_below_power (negative : Bool) {num den : Nat} {k : Int} (hden : 0 < den)
    (hk : -1021 ≤ k ∧ k ≤ 1023) (h : (num : ℚ) / den < 2 ^ k) :
    ∃ m e, ofRatio negative num den = .finite negative m e ∧ (m : ℚ) * 2 ^ e ≤ 2 ^ k := by
  rcases Nat.eq_zero_or_pos num with rfl | hnum
  · refine ⟨0, leastExponent, by rw [ofRatio, if_pos rfl, zero], ?_⟩
    rw [Nat.cast_zero, zero_mul]
    positivity
  obtain ⟨place, m, hlow, hhigh, hnear, -, heq⟩ := of_ratio_cases negative hnum hden
  obtain ⟨hless, -, hcases⟩ := units_bounds hlow hhigh
  have hplace : place < k := by
    have h : (2 : ℚ) ^ place < 2 ^ k := lt_of_le_of_lt hlow h
    exact (zpow_lt_zpow_iff_right₀ (by norm_num)).mp h
  have hleast : leastExponent = -1074 := rfl
  have hgreatest : greatestExponent = 971 := rfl
  obtain ⟨m', e', hrounded, hvalue⟩ :=
    of_rounded_eq negative m (by omega : exponentAt place < greatestExponent)
  refine ⟨m', e', heq.trans hrounded, ?_⟩
  have hm : (m : ℚ) ≤ 2 ^ 53 := by
    exact_mod_cast le_of_near (n := 2 ^ 53) hnear (by exact_mod_cast hless)
  calc (m' : ℚ) * 2 ^ e' = m * 2 ^ exponentAt place := hvalue
    _ ≤ 2 ^ 53 * 2 ^ exponentAt place := by gcongr
    _ = 2 ^ ((53 : Int) + exponentAt place) := two_pow_mul_zpow 53 _
    _ ≤ 2 ^ k := zpow_le_zpow_right₀ (by norm_num) (by omega)

/-- The number lies in the rounding interval of a value: the interval reaches half a unit of the
mantissa to both sides, but only a quarter below a power of two, and has its ends if the mantissa is
even. -/
structure RoundsTo (m : Nat) (e : Int) (x : ℚ) : Prop where
  low : (m : ℚ) - (if m = 2 ^ 52 ∧ leastExponent < e then 1 / 4 else 1 / 2) ≤ x / 2 ^ e
  high : x / 2 ^ e ≤ m + 1 / 2
  ends : m % 2 = 1 → (m : ℚ) - 1 / 2 < x / 2 ^ e ∧ x / 2 ^ e < m + 1 / 2

namespace RoundsTo

variable {m : Nat} {e place : Int} {x : ℚ}

/-- A number in the rounding interval is half a unit away from the mantissa at most, and half a unit
only if the mantissa is even. -/
theorem near (h : RoundsTo m e x) :
    |x / 2 ^ e - m| ≤ 1 / 2 ∧ (|x / 2 ^ e - m| = 1 / 2 → m % 2 = 0) := by
  obtain ⟨hlow, hhigh, hends⟩ := h
  constructor
  · rw [abs_le]
    constructor
    · split at hlow <;> linarith
    · linarith
  · intro htie
    by_contra hodd
    obtain ⟨hless, hmore⟩ := hends (by omega)
    rw [abs_eq (by norm_num)] at htie
    rcases htie with h | h <;> linarith

/-- The numbers in the rounding interval of a positive value are positive. -/
theorem pos (h : RoundsTo m e x) (hm : 0 < m) : 0 < x := by
  have hm1 : (1 : ℚ) ≤ m := by exact_mod_cast hm
  have hunits : 0 < x / 2 ^ e := by linarith [(abs_le.1 h.near.1).1]
  exact (div_pos_iff_of_pos_right (by positivity)).1 hunits

/-- A number in the rounding interval of a canonical value is rounded to a multiple of the unit of
the value or of a smaller one. -/
theorem exponent_le (h : RoundsTo m e x) (hm53 : m < 2 ^ 53) (hleast : leastExponent ≤ e)
    (hlow : (2 : ℚ) ^ place ≤ x) : exponentAt place ≤ e := by
  have hm53' : (m : ℚ) + 1 ≤ 2 ^ 53 := by exact_mod_cast hm53
  have hunits : x / 2 ^ e < 2 ^ 53 := by linarith [h.high]
  rw [div_lt_iff₀ (by positivity)] at hunits
  have hpower : (2 : ℚ) ^ place < 2 ^ ((53 : Int) + e) := by
    calc (2 : ℚ) ^ place ≤ x := hlow
      _ < 2 ^ 53 * 2 ^ e := hunits
      _ = 2 ^ ((53 : Int) + e) := two_pow_mul_zpow 53 e
  have hplace := (zpow_lt_zpow_iff_right₀ (by norm_num)).1 hpower
  unfold exponentAt
  omega

/-- A number in the rounding interval of a canonical value that is rounded to a multiple of a
smaller unit lies just below a power of two, which is the value, and the unit is half that of the
value. -/
theorem below_power (h : RoundsTo m e x) (hsub : m < 2 ^ 52 → e = leastExponent)
    (hhigh : x < 2 ^ (place + 1)) (hsmall : exponentAt place < e) :
    m = 2 ^ 52 ∧ exponentAt place = e - 1 ∧ (2 ^ 52 - 1 / 4 : ℚ) ≤ x / 2 ^ e ∧
      x / 2 ^ e < 2 ^ 52 := by
  have hpow : (0 : ℚ) < 2 ^ e := by positivity
  have hless : x / 2 ^ e < 2 ^ 52 := by
    rw [div_lt_iff₀ hpow]
    calc x < 2 ^ (place + 1) := hhigh
      _ ≤ 2 ^ ((52 : Int) + e) := by
          refine zpow_le_zpow_right₀ (by norm_num) ?_
          unfold exponentAt at hsmall
          omega
      _ = 2 ^ 52 * 2 ^ e := (two_pow_mul_zpow 52 e).symm
  have hleast : leastExponent < e := lt_of_le_of_lt (le_max_left _ _) hsmall
  have hmany : 2 ^ 52 ≤ m := by
    by_contra hfew
    exact hleast.ne' (hsub (not_le.1 hfew))
  have hunits := h.low
  -- A greater mantissa would put the number above the power.
  have hm : m = 2 ^ 52 := by
    by_contra hne
    have hmore : (2 ^ 52 + 1 : ℚ) ≤ m := by exact_mod_cast lt_of_le_of_ne hmany (Ne.symm hne)
    rw [if_neg fun h => hne h.1] at hunits
    linarith
  rw [if_pos ⟨hm, hleast⟩, hm] at hunits
  push_cast at hunits
  have hplace : e + 51 < place + 1 := by
    rw [le_div_iff₀ hpow] at hunits
    refine (zpow_lt_zpow_iff_right₀ (by norm_num : (1 : ℚ) < 2)).1 ?_
    calc (2 : ℚ) ^ (e + 51) = 2 ^ ((51 : Int) + e) := by rw [add_comm]
      _ = 2 ^ 51 * 2 ^ e := (two_pow_mul_zpow 51 e).symm
      _ < (2 ^ 52 - 1 / 4) * 2 ^ e := mul_lt_mul_of_pos_right (by norm_num) hpow
      _ ≤ x := hunits
      _ < 2 ^ (place + 1) := hhigh
  refine ⟨hm, ?_, hunits, hless⟩
  unfold exponentAt at hsmall ⊢
  omega

end RoundsTo

/-- Every number of the rounding interval of a value rounds to it. -/
theorem of_ratio_of_rounds_to (negative : Bool) {num den m : Nat} {e : Int} (hden : 0 < den)
    (hm : 0 < m) (hcanonical : (finite negative m e).IsCanonical)
    (hrounds : RoundsTo m e ((num : ℚ) / den)) :
    ofRatio negative num den = .finite negative m e := by
  obtain ⟨hm53, hleast, hgreatest, hsub⟩ := hcanonical
  have hnum : 0 < num := by
    rcases Nat.eq_zero_or_pos num with rfl | h
    · simpa using hrounds.pos hm
    · exact h
  obtain ⟨place, mantissa, hlow, hhigh, -, hunique, heq⟩ := of_ratio_cases negative hnum hden
  rw [heq]
  generalize (num : ℚ) / den = x at *
  rcases (hrounds.exponent_le hm53 hleast hlow).eq_or_lt with hsame | hsmall
  · -- The number is rounded to a multiple of the unit of the value itself.
    rw [hsame] at hunique ⊢
    rw [hunique m hrounds.near.1 hrounds.near.2, ofRounded, if_neg (by omega), if_neg (by omega)]
  · -- The number lies below a power of two and is rounded up to it.
    obtain ⟨hpower, hhalf, hmore, hless⟩ := hrounds.below_power hsub hhigh hsmall
    have htwice : x / 2 ^ exponentAt place = 2 * (x / 2 ^ e) := by
      rw [hhalf, zpow_sub_one₀ (by norm_num)]
      field_simp
    have hmantissa : mantissa = 2 ^ 53 := by
      refine hunique (2 ^ 53) ?_ fun _ => by norm_num
      rw [htwice, abs_le]
      push_cast
      constructor <;> linarith
    rw [hmantissa, ofRounded, if_pos rfl, if_neg (by omega), hhalf, hpower, sub_add_cancel]

end Binary64

end QueryTidy
