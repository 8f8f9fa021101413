import QueryTidy.Number.Literal
import QueryTidy.Proofs.Number.Shortest
import QueryTidy.Query.Duration

/-!
# Numbers in positional notation

The text of a number is a whole part and perhaps a point and places (`numeral`). Such a text is read
as the decimal that it shows (`of_decimal_numeral`). It is also read so as a literal of a query if
it is in decimal notation there (`literal_decimal`), as it is when the whole part has no leading
zero (`literal_numeral`). The display of a canonical value is such a text, and it is read as the
value (`display_eq_numeral`).
-/

namespace QueryTidy

open Binary64 (RoundsTo leastExponent greatestExponent)

/-- The text of a number with a whole part and, after a point, places. -/
def numeral (whole : Text) : Option Text → Text
  | none => whole
  | some places => whole ++ '.' :: places

/-- A text that may stand before the point of a number: digits without a leading zero. -/
structure IsWhole (whole : Text) : Prop where
  digits : ∀ c ∈ whole, Text.isDigit c = true
  nonempty : whole ≠ []
  lead : whole = ['0'] ∨ whole.head? ≠ some '0'

/-- Digits that may stand after the point of a number. -/
def ArePlaces (places : Option Text) : Prop :=
  ∀ c ∈ places.getD [], Text.isDigit c = true

/-- The numeral of a natural number may stand before the point. -/
theorem is_whole_of_nat (n : Nat) : IsWhole (Text.ofNat n) where
  digits _ hc := Text.of_nat_digits hc
  nonempty := Text.of_nat_ne_nil n
  lead := by
    rcases Nat.eq_zero_or_pos n with rfl | hn
    · exact .inl rfl
    · exact .inr (Text.of_nat_head_ne_zero hn)

/-- The first digits of the numeral of a positive number may stand before the point. -/
theorem is_whole_take {n k : Nat} (hn : 0 < n) (hk : 0 < k) :
    IsWhole ((Text.ofNat n).take k) where
  digits _ hc := Text.of_nat_digits (List.mem_of_mem_take hc)
  nonempty := by
    have h := Text.of_nat_ne_nil n
    cases hdigits : Text.ofNat n with
    | nil => exact absurd hdigits h
    | cons c rest =>
        obtain ⟨j, rfl⟩ : ∃ j, k = j + 1 := ⟨k - 1, by omega⟩
        simp
  lead := by
    refine .inr ?_
    have h := Text.of_nat_head_ne_zero hn
    rwa [List.head?_take, if_neg (by omega)]

variable {whole : Text} {places : Option Text}

/-! ## Reading -/

/-- Digits are no capital letters. -/
theorem lower_digit {c : Char} (hc : Text.isDigit c = true) : Text.lowerChar c = c := by
  unfold Text.lowerChar
  rw [if_neg]
  intro h
  simp only [Text.isDigit, Bool.and_eq_true, decide_eq_true_eq, Char.le_def,
    UInt32.le_iff_toNat_le] at hc h
  have h9 : c.val.toNat ≤ '9'.val.toNat := hc.2
  have hA : 'A'.val.toNat ≤ c.val.toNat := h.1
  have e9 : '9'.val.toNat = 57 := rfl
  have eA : 'A'.val.toNat = 65 := rfl
  omega

/-- The characters of a number in positional notation. -/
theorem numeral_chars (hwhole : ∀ c ∈ whole, Text.isDigit c = true) (hplaces : ArePlaces places)
    {c : Char} (hc : c ∈ numeral whole places) : Text.isDigit c = true ∨ c = '.' := by
  cases places with
  | none => exact .inl (hwhole c hc)
  | some digits =>
      rcases List.mem_append.1 hc with h | h
      · exact .inl (hwhole c h)
      · rcases List.mem_cons.1 h with h | h
        · exact .inr h
        · exact .inl (hplaces c h)

/-- A number in positional notation is the same in small letters. -/
theorem lower_numeral (hwhole : ∀ c ∈ whole, Text.isDigit c = true) (hplaces : ArePlaces places) :
    Text.lower (numeral whole places) = numeral whole places := by
  unfold Text.lower
  conv_rhs => rw [← List.map_id (numeral whole places)]
  refine List.map_congr_left fun c hc => ?_
  rcases numeral_chars hwhole hplaces hc with h | rfl
  · exact lower_digit h
  · rfl

/-- A number in positional notation is read as the decimal that it shows. -/
theorem of_decimal_numeral (hwhole : ∀ c ∈ whole, Text.isDigit c = true)
    (hplaces : ArePlaces places) (hsome : whole ++ places.getD [] ≠ []) :
    Binary64.ofDecimal? (numeral whole places) =
      some (Binary64.ofDecimal (Text.toNat (whole ++ places.getD []))
        (0 - ((places.getD []).length : Int))) := by
  have hword : ∀ word : Text, (∃ d ∈ word, Text.isDigit d = false ∧ d ≠ '.') →
      numeral whole places ≠ word := by
    rintro word ⟨d, hd, hnot, hpoint⟩ rfl
    rcases numeral_chars hwhole hplaces hd with h | h
    · rw [hnot] at h
      cases h
    · exact hpoint h
  have hinf := hword "inf".toList ⟨'i', List.mem_cons_self, rfl, by decide⟩
  have hnan := hword "nan".toList ⟨'n', List.mem_cons_self, rfl, by decide⟩
  unfold Binary64.ofDecimal?
  rw [if_neg hinf, if_neg hnan]
  cases places with
  | none =>
      obtain ⟨htake, hdrop⟩ := Text.take_run [] hwhole rfl
      rw [List.append_nil] at htake hdrop
      rw [Option.getD_none, List.append_nil] at hsome
      simp only [numeral, htake, hdrop, List.append_nil, Option.getD_none]
      rw [if_neg hsome]
      rfl
  | some digits =>
      obtain ⟨htake, hdrop⟩ := Text.take_run ('.' :: digits) hwhole rfl
      obtain ⟨htake', hdrop'⟩ := Text.take_run [] hplaces rfl
      simp only [Option.getD_some, List.append_nil] at htake' hdrop'
      rw [Option.getD_some] at hsome
      simp only [numeral, htake, hdrop, htake', hdrop', Option.getD_some]
      rw [if_neg hsome]
      rfl

/-- A number in positional notation is decimal notation also for a query, in which a leading zero
could make it octal. -/
theorem style_of_numeral (hwhole : IsWhole whole) (hplaces : ArePlaces places) :
    Literal.styleOf (numeral whole places) = .decimal := by
  have hx : 'x' ∉ numeral whole places := by
    intro h
    rcases numeral_chars hwhole.digits hplaces h with h | h <;> revert h <;> decide
  unfold Literal.styleOf
  rw [if_neg hx]
  rcases hwhole.lead with rfl | hlead
  · cases places with
    | none => rfl
    | some digits => simp [numeral]
  · split
    · rename_i c rest heq
      have hhead : (numeral whole places).head? = whole.head? := by
        obtain ⟨d, tail, hcons⟩ := List.exists_cons_of_ne_nil hwhole.nonempty
        cases places <;> simp [numeral, hcons]
      rw [heq] at hhead
      exact absurd hhead.symm hlead
    · rfl

/-- A number in positional notation that is in decimal notation is read as a literal of a query. -/
theorem literal_decimal (hwhole : ∀ c ∈ whole, Text.isDigit c = true) (hplaces : ArePlaces places)
    (hsome : whole ++ places.getD [] ≠ [])
    (hstyle : Literal.styleOf (numeral whole places) = .decimal) :
    Literal.value (numeral whole places) =
      .ok (Binary64.ofDecimal (Text.toNat (whole ++ places.getD []))
        (0 - ((places.getD []).length : Int))) := by
  unfold Literal.value
  simp only [lower_numeral hwhole hplaces, hstyle, of_decimal_numeral hwhole hplaces hsome]

/-- A number in positional notation without a leading zero is read as a literal of a query. -/
theorem literal_numeral (hwhole : IsWhole whole) (hplaces : ArePlaces places) :
    Literal.value (numeral whole places) =
      .ok (Binary64.ofDecimal (Text.toNat (whole ++ places.getD []))
        (0 - ((places.getD []).length : Int))) :=
  literal_decimal hwhole.digits hplaces (by simp [hwhole.nonempty])
    (style_of_numeral hwhole hplaces)

/-! ## Rounding -/

/-- The powers of two between which the positive values lie are far from the powers of ten by which
sizes are tested. -/
theorem range_of_sizes :
    (2 : ℚ) ^ 53 * 2 ^ (971 : Int) < 10 ^ (309 : Int) ∧
      (10 : ℚ) ^ (-330 : Int) < 1 / 2 * 2 ^ (-1074 : Int) := by
  have hbig : 2 ^ 53 * 2 ^ 971 < 10 ^ 309 := by decide +kernel
  have hsmall : 2 * 2 ^ 1074 < 10 ^ 330 := by decide +kernel
  constructor
  · have hbig' : (2 : ℚ) ^ 53 * 2 ^ 971 < 10 ^ 309 := by
      simpa only [Nat.cast_mul, Nat.cast_pow, Nat.cast_ofNat] using (Nat.cast_lt (α := ℚ)).2 hbig
    exact_mod_cast hbig'
  · have hsmall' : (2 : ℚ) * 2 ^ 1074 < 10 ^ 330 := by
      simpa only [Nat.cast_mul, Nat.cast_pow, Nat.cast_ofNat] using (Nat.cast_lt (α := ℚ)).2 hsmall
    rw [zpow_neg, zpow_neg, one_div, ← mul_inv]
    exact (inv_lt_inv₀ (by positivity) (by positivity)).2 (by exact_mod_cast hsmall')

/-- The numbers that round to a positive value are in the range of sizes that is tested. -/
theorem range_of_rounds_to {m : Nat} {e : Int} {x : ℚ} (hm : 0 < m)
    (hcanonical : (Binary64.finite false m e).IsCanonical) (h : RoundsTo m e x) :
    (10 : ℚ) ^ (-330 : Int) < x ∧ x < 10 ^ (309 : Int) := by
  obtain ⟨hm53, hleast, hgreatest, -⟩ := hcanonical
  have hpow : (0 : ℚ) < 2 ^ e := by positivity
  have hm1 : (1 : ℚ) ≤ m := by exact_mod_cast hm
  have hm53' : (m : ℚ) + 1 ≤ 2 ^ 53 := by exact_mod_cast hm53
  obtain ⟨hlow, hhigh⟩ := abs_le.1 h.near.1
  constructor
  · calc (10 : ℚ) ^ (-330 : Int) < 1 / 2 * 2 ^ (-1074 : Int) := range_of_sizes.2
      _ ≤ 1 / 2 * 2 ^ e := by
          refine mul_le_mul_of_nonneg_left ?_ (by norm_num)
          exact zpow_le_zpow_right₀ (by norm_num) hleast
      _ ≤ x := (le_div_iff₀ hpow).1 (by linarith)
  · calc x ≤ 2 ^ 53 * 2 ^ e := (div_le_iff₀ hpow).1 (by linarith)
      _ ≤ 2 ^ 53 * 2 ^ (971 : Int) := by
          refine mul_le_mul_of_nonneg_left ?_ (by norm_num)
          exact zpow_le_zpow_right₀ (by norm_num) hgreatest
      _ < 10 ^ (309 : Int) := range_of_sizes.1

/-- The number of digits of a decimal and its scale give the powers of ten around it. -/
theorem decimal_bounds {digits : Nat} (hdigits : 0 < digits) (scale : Int) :
    (10 : ℚ) ^ ((Text.ofNat digits).length - 1 + scale) ≤ digits * 10 ^ scale ∧
      (digits : ℚ) * 10 ^ scale < 10 ^ ((Text.ofNat digits).length + scale) := by
  have hten : (0 : ℚ) < 10 ^ scale := by positivity
  have hpos : 0 < (Text.ofNat digits).length := List.length_pos_iff.2 (Text.of_nat_ne_nil _)
  rw [zpow_add₀ (by norm_num), zpow_add₀ (by norm_num)]
  constructor
  · refine mul_le_mul_of_nonneg_right ?_ hten.le
    obtain ⟨n, hn⟩ : ∃ n, (Text.ofNat digits).length = n + 1 := ⟨_, (Nat.succ_pred hpos.ne').symm⟩
    rw [hn, show ((n + 1 : Nat) : Int) - 1 = n by omega, zpow_natCast]
    rcases Nat.eq_zero_or_pos n with rfl | hn'
    · rw [pow_zero]
      exact_mod_cast hdigits
    · by_contra hless
      have h := (Text.of_nat_length_le_iff hn').2 (by exact_mod_cast not_le.1 hless)
      omega
  · refine mul_lt_mul_of_pos_right ?_ hten
    rw [zpow_natCast]
    exact_mod_cast (Text.of_nat_length_le_iff hpos).1 le_rfl

/-- A decimal in the rounding interval of a value is rounded to it; none is so large or so small
that it is decided by its size. -/
theorem of_decimal_of_rounds_to {digits m : Nat} {scale e : Int} (hdigits : 0 < digits)
    (hm : 0 < m) (hcanonical : (Binary64.finite false m e).IsCanonical)
    (hrounds : RoundsTo m e ((digits : ℚ) * 10 ^ scale)) :
    Binary64.ofDecimal digits scale = .finite false m e := by
  obtain ⟨hlow, hhigh⟩ := range_of_rounds_to hm hcanonical hrounds
  obtain ⟨hfew, hmany⟩ := decimal_bounds hdigits scale
  have hbig := (zpow_lt_zpow_iff_right₀ (by norm_num)).1 (hfew.trans_lt hhigh)
  have hsmall := (zpow_lt_zpow_iff_right₀ (by norm_num)).1 (hlow.trans hmany)
  unfold Binary64.ofDecimal
  rw [if_neg hdigits.ne']
  simp only
  rw [if_neg (by omega), if_neg (by omega)]
  rcases hpower : Decimal.power scale with ⟨num, den⟩
  have heq := Decimal.power_eq scale
  have hden := (Decimal.power_pos scale).2
  rw [hpower] at heq hden
  refine Binary64.of_ratio_of_rounds_to false hden hm hcanonical ?_
  push_cast
  rw [mul_div_assoc, heq]
  exact hrounds

/-! ## Display -/

namespace Decimal

variable {d : Decimal}

/-- The parts of the text of a positive decimal in positional notation: digits that show its
number. -/
structure IsShownAs (d : Decimal) (whole : Text) (places : Option Text) : Prop where
  text : d.positional = numeral whole places
  before : IsWhole whole
  after : ArePlaces places
  pos : 0 < Text.toNat (whole ++ places.getD [])
  value : (Text.toNat (whole ++ places.getD []) : ℚ) * 10 ^ (0 - ((places.getD []).length : Int)) =
    d.value

/-- Zeros are digits. -/
theorem zeros_digits (n : Nat) : ∀ c ∈ List.replicate n '0', Text.isDigit c = true := by
  intro c hc
  rw [(List.mem_replicate.1 hc).2]
  decide

/-- A decimal without places is its digits and zeros after them. -/
theorem is_shown_whole (hd : 0 < d.digits) (hscale : 0 ≤ d.scale) :
    d.IsShownAs (Text.ofNat d.digits ++ List.replicate d.scale.toNat '0') none := by
  have hdigits : ∀ c ∈ Text.ofNat d.digits, Text.isDigit c = true := fun c hc =>
    Text.of_nat_digits hc
  have hvalue := Text.to_nat_append_zeros d.scale.toNat hdigits
  rw [Text.to_nat_of_nat] at hvalue
  refine ⟨?_, ⟨?_, ?_, .inr ?_⟩, ?_, ?_, ?_⟩
  · unfold positional
    simp only [if_pos hscale, if_neg hd.ne']
    rfl
  · intro c hc
    exact (List.mem_append.1 hc).elim (hdigits c) (zeros_digits _ c)
  · simp [Text.of_nat_ne_nil]
  · rw [List.head?_append_of_ne_nil _ (Text.of_nat_ne_nil _)]
    exact Text.of_nat_head_ne_zero hd
  · intro c hc
    cases hc
  · rw [Option.getD_none, List.append_nil, hvalue]
    positivity
  · obtain ⟨n, hn⟩ := Int.eq_ofNat_of_zero_le hscale
    rw [Option.getD_none, List.append_nil, hvalue, Decimal.value, hn]
    simp

/-- A decimal with fewer places than digits has the point between its digits. -/
theorem is_shown_split {n : Nat} (hd : 0 < d.digits) (hscale : d.scale = -(n : Int)) (hn : 0 < n)
    (hless : n < (Text.ofNat d.digits).length) :
    d.IsShownAs ((Text.ofNat d.digits).take ((Text.ofNat d.digits).length - n))
      (some ((Text.ofNat d.digits).drop ((Text.ofNat d.digits).length - n))) := by
  have hplaces : ((Text.ofNat d.digits).drop ((Text.ofNat d.digits).length - n)).length = n := by
    rw [List.length_drop]
    omega
  refine ⟨?_, is_whole_take hd (by omega), ?_, ?_, ?_⟩
  · unfold positional
    have hcount : (-d.scale).toNat = n := by omega
    simp only [if_neg (by omega : ¬0 ≤ d.scale), hcount, if_pos hless]
    rfl
  · exact fun c hc => Text.of_nat_digits (List.mem_of_mem_drop hc)
  · rw [Option.getD_some, List.take_append_drop, Text.to_nat_of_nat]
    exact hd
  · rw [Option.getD_some, List.take_append_drop, Text.to_nat_of_nat, hplaces, Decimal.value,
      hscale, zero_sub]

/-- A decimal with at least as many places as digits has a zero before the point. -/
theorem is_shown_fraction {n : Nat} (hd : 0 < d.digits) (hscale : d.scale = -(n : Int))
    (hn : 0 < n) (hmore : (Text.ofNat d.digits).length ≤ n) :
    d.IsShownAs ['0'] (some
      (List.replicate (n - (Text.ofNat d.digits).length) '0' ++ Text.ofNat d.digits)) := by
  have hdigits : ∀ c ∈ Text.ofNat d.digits, Text.isDigit c = true := fun c hc =>
    Text.of_nat_digits hc
  have hvalue := Text.to_nat_zeros_append (n - (Text.ofNat d.digits).length + 1) hdigits
  rw [Text.to_nat_of_nat, List.replicate_succ, List.cons_append] at hvalue
  refine ⟨?_, is_whole_of_nat 0, ?_, ?_, ?_⟩
  · unfold positional
    have hcount : (-d.scale).toNat = n := by omega
    simp only [if_neg (by omega : ¬0 ≤ d.scale), hcount, if_neg (not_lt.2 hmore)]
    rfl
  · intro c hc
    exact (List.mem_append.1 hc).elim (zeros_digits _ c) (hdigits c)
  · rw [Option.getD_some, List.singleton_append, hvalue]
    exact hd
  · rw [Option.getD_some, List.singleton_append, hvalue, List.length_append,
      List.length_replicate, Decimal.value, hscale]
    congr 2
    omega

/-- A positive decimal in positional notation shows its number. -/
theorem exists_is_shown (hd : 0 < d.digits) : ∃ whole places, d.IsShownAs whole places := by
  rcases Int.lt_or_le d.scale 0 with hneg | hscale
  · obtain ⟨n, hn⟩ := Int.eq_ofNat_of_zero_le (by omega : 0 ≤ -d.scale)
    have hscale : d.scale = -(n : Int) := by omega
    rcases Nat.lt_or_ge n (Text.ofNat d.digits).length with hless | hmore
    · exact ⟨_, _, is_shown_split hd hscale (by omega) hless⟩
    · exact ⟨_, _, is_shown_fraction hd hscale (by omega) hmore⟩
  · exact ⟨_, _, is_shown_whole hd hscale⟩

/-- The shortest decimal of a positive value has a digit that is not zero. -/
theorem shortest_digits_pos {m : Nat} {e : Int} (hm : 0 < m)
    (hcanonical : (Binary64.finite false m e).IsCanonical) : 0 < (shortest m e).digits := by
  have hpos := (shortest_rounds_to hm hcanonical).pos hm
  rcases Nat.eq_zero_or_pos (shortest m e).digits with hzero | hdigits
  · rw [Decimal.value, hzero, Nat.cast_zero, zero_mul] at hpos
    exact absurd hpos (lt_irrefl 0)
  · exact hdigits

end Decimal

/-- The magnitude of a canonical value is shown as a number in positional notation that is read as
the value. -/
theorem display_eq_numeral {m : Nat} {e : Int}
    (hcanonical : (Binary64.finite false m e).IsCanonical) :
    ∃ whole places, (Binary64.finite false m e).display = numeral whole places ∧ IsWhole whole ∧
      ArePlaces places ∧
      Binary64.ofDecimal (Text.toNat (whole ++ places.getD []))
        (0 - ((places.getD []).length : Int)) = .finite false m e := by
  rcases Nat.eq_zero_or_pos m with rfl | hm
  · obtain ⟨-, -, -, hsub⟩ := hcanonical
    refine ⟨['0'], none, rfl, is_whole_of_nat 0, ?_, ?_⟩
    · intro c hc
      cases hc
    · rw [hsub (by norm_num)]
      rfl
  · have hrounds := Decimal.shortest_rounds_to hm hcanonical
    obtain ⟨whole, places, hshown⟩ :=
      Decimal.exists_is_shown (Decimal.shortest_digits_pos hm hcanonical)
    refine ⟨whole, places, ?_, hshown.before, hshown.after, ?_⟩
    · unfold Binary64.display
      simp only [if_neg hm.ne', hshown.text]
      rfl
    · rw [← hshown.value] at hrounds
      exact of_decimal_of_rounds_to hshown.pos hm hcanonical hrounds

/-! ## Values of literals -/

namespace Binary64

/-- The value is canonical and has no sign. -/
structure IsUnsigned (v : Binary64) : Prop where
  canonical : v.IsCanonical
  sign : v.isNegative = false

/-- Rounding keeps the sign. -/
theorem of_ratio_sign (negative : Bool) (num den : Nat) :
    (ofRatio negative num den).isNegative = negative := by
  have hsign : ∀ {c d : Prop} [Decidable c] [Decidable d] (m m' : Nat) (e e' : Int),
      (if c then finite negative m e
        else if d then infinite negative else finite negative m' e').isNegative = negative := by
    intro c d _ _ m m' e e'
    split
    · rfl
    · split <;> rfl
  exact hsign _ _ _ _

/-- A fraction without a sign is rounded to a value without one. -/
theorem of_ratio_unsigned (num : Nat) {den : Nat} (hden : 0 < den) :
    (ofRatio false num den).IsUnsigned :=
  ⟨of_ratio_canonical false num hden, of_ratio_sign false num den⟩

/-- A decimal number has a value without a sign. -/
theorem of_decimal_unsigned (digits : Nat) (scale : Int) : (ofDecimal digits scale).IsUnsigned := by
  unfold ofDecimal
  split
  · exact ⟨zero_canonical false, rfl⟩
  · dsimp only
    split
    · exact ⟨trivial, rfl⟩
    · split
      · exact ⟨zero_canonical false, rfl⟩
      · exact of_ratio_unsigned _ (Decimal.power_pos scale).2

/-- Decimal notation has a value without a sign. -/
theorem of_decimal_text_unsigned {text : Text} {v : Binary64} (h : ofDecimal? text = some v) :
    v.IsUnsigned := by
  unfold ofDecimal? at h
  split at h
  · cases h
    exact ⟨trivial, rfl⟩
  · split at h
    · cases h
      exact ⟨trivial, rfl⟩
    · dsimp only at h
      split at h
      all_goals
        split at h
        · cases h
        · obtain ⟨exponent, -, rfl⟩ := Option.map_eq_some_iff.1 h
          exact of_decimal_unsigned _ _

end Binary64

/-- A literal has a value without a sign. -/
theorem literal_unsigned {text : Text} {v : Binary64} (h : Literal.value text = .ok v) :
    v.IsUnsigned := by
  unfold Literal.value at h
  dsimp only at h
  split at h
  · split at h
    · cases h
      exact Binary64.of_ratio_unsigned _ Nat.one_pos
    · cases h
  · split at h
    · cases h
      exact Binary64.of_ratio_unsigned _ Nat.one_pos
    · cases h
  · split at h
    · rename_i hdecimal
      cases h
      exact Binary64.of_decimal_text_unsigned hdecimal
    · cases h

/-- A duration has a value in seconds without a sign. -/
theorem seconds_unsigned (d : Duration) : d.seconds.IsUnsigned := by
  have hden : ∀ {v : Binary64} {f : Nat × Nat}, v.magnitude? = some f → 0 < f.2 := by
    intro v f hf
    cases v with
    | finite negative m e =>
        cases hf
        exact Binary64.fraction_den_pos m e
    | _ => cases hf
  unfold Duration.seconds
  split
  · rename_i hwhole hrest
    exact Binary64.of_ratio_unsigned _ (Nat.mul_pos (hden hwhole) (hden hrest))
  · exact ⟨trivial, rfl⟩

end QueryTidy
