import QueryTidy.Text.Basic

/-!
# Decimal numerals

A numeral consists of digits, denotes the number it was made of, and has no leading zero unless it
is the numeral of zero. A string of digits denotes less than the power of ten of its length.
-/

namespace QueryTidy.Text

attribute [local instance (1100)] instPowNat

/-- The digits of the library are those of the standard library. -/
theorem is_digit_eq (c : Char) : isDigit c = c.isDigit := by
  rfl

/-- A numeral consists of digits. -/
theorem of_nat_digits {n : Nat} {c : Char} (hc : c ∈ ofNat n) : isDigit c = true := by
  rw [is_digit_eq]
  exact Nat.isDigit_of_mem_toDigits (by decide) (by decide) hc

/-- A numeral is not empty. -/
theorem of_nat_ne_nil (n : Nat) : ofNat n ≠ [] :=
  Nat.toDigits_ne_nil

/-- A numeral has at most a given number of digits exactly when the number is less than the power
of ten. -/
theorem of_nat_length_le_iff {n k : Nat} (hk : 0 < k) : (ofNat n).length ≤ k ↔ n < 10 ^ k :=
  Nat.length_toDigits_le_iff (by decide) hk

/-- The value of a digit is its distance from zero. -/
theorem digit_value_of_digit {c : Char} (hc : isDigit c = true) :
    digitValue c = c.toNat - '0'.toNat := by
  unfold digitValue
  rw [if_pos hc]

/-- A digit is less than ten. -/
theorem digit_value_lt {c : Char} (hc : isDigit c = true) : digitValue c < 10 := by
  rw [digit_value_of_digit hc]
  simp only [isDigit, Bool.and_eq_true, decide_eq_true_eq, Char.le_def,
    UInt32.le_iff_toNat_le] at hc
  have h9 : c.toNat ≤ '9'.toNat := hc.2
  have h0 : '0'.toNat = 48 := rfl
  have h9' : '9'.toNat = 57 := rfl
  omega

/-- Reading digits is reading them as the standard library does. -/
theorem to_nat_eq {t : Text} (ht : ∀ c ∈ t, isDigit c = true) :
    toNat t = Nat.ofDigitChars 10 t 0 := by
  have go : ∀ (t : Text) (n : Nat), (∀ c ∈ t, isDigit c = true) →
      t.foldl (fun n c => n * 10 + digitValue c) n = Nat.ofDigitChars 10 t n := by
    intro t
    induction t with
    | nil => intro n _; simp
    | cons c rest ih =>
        intro n h
        rw [List.foldl_cons, Nat.ofDigitChars_cons,
          ih _ fun d hd => h d (List.mem_cons_of_mem _ hd),
          digit_value_of_digit (h c List.mem_cons_self), Nat.mul_comm n 10]
  exact go t 0 ht

/-- A numeral denotes the number that it was made of. -/
theorem to_nat_of_nat (n : Nat) : toNat (ofNat n) = n := by
  rw [to_nat_eq fun c hc => of_nat_digits hc]
  exact Nat.ofDigitChars_ten_toDigits

/-- Zeros in front of digits do not count. -/
theorem to_nat_zeros_append (k : Nat) {t : Text} (ht : ∀ c ∈ t, isDigit c = true) :
    toNat (List.replicate k '0' ++ t) = toNat t := by
  have hzero : isDigit '0' = true := by decide
  rw [to_nat_eq, to_nat_eq ht, Nat.ofDigitChars_append, Nat.ofDigitChars_replicate_zero,
    Nat.mul_zero]
  intro c hc
  rcases List.mem_append.1 hc with h | h
  · rw [(List.mem_replicate.1 h).2]
    exact hzero
  · exact ht c h

/-- Zeros after digits count as powers of ten. -/
theorem to_nat_append_zeros (k : Nat) {t : Text} (ht : ∀ c ∈ t, isDigit c = true) :
    toNat (t ++ List.replicate k '0') = toNat t * 10 ^ k := by
  have hzero : isDigit '0' = true := by decide
  rw [to_nat_eq, to_nat_eq ht, Nat.ofDigitChars_append, Nat.ofDigitChars_replicate_zero,
    Nat.mul_comm]
  intro c hc
  rcases List.mem_append.1 hc with h | h
  · exact ht c h
  · rw [(List.mem_replicate.1 h).2]
    exact hzero

/-- Digits in front of others count as many powers of ten as there are others. -/
theorem to_nat_append {t u : Text} (ht : ∀ c ∈ t, isDigit c = true)
    (hu : ∀ c ∈ u, isDigit c = true) : toNat (t ++ u) = toNat t * 10 ^ u.length + toNat u := by
  rw [to_nat_eq (List.forall_mem_append.2 ⟨ht, hu⟩), to_nat_eq ht, to_nat_eq hu,
    Nat.ofDigitChars_append, Nat.ofDigitChars_eq_ofDigitChars_zero, Nat.mul_comm]

/-- Digits denote less than the power of ten of their number. -/
theorem to_nat_lt {t : Text} (ht : ∀ c ∈ t, isDigit c = true) : toNat t < 10 ^ t.length := by
  rw [to_nat_eq ht]
  induction t with
  | nil => simp
  | cons c rest ih =>
      have hrest := ih fun d hd => ht d (List.mem_cons_of_mem _ hd)
      have hc := digit_value_lt (ht c List.mem_cons_self)
      rw [digit_value_of_digit (ht c List.mem_cons_self)] at hc
      rw [Nat.ofDigitChars_cons, Nat.ofDigitChars_eq_ofDigitChars_zero, List.length_cons,
        Nat.pow_succ]
      have hle : 10 ^ rest.length * (10 * 0 + (c.toNat - '0'.toNat)) ≤ 10 ^ rest.length * 9 :=
        Nat.mul_le_mul_left _ (by omega)
      omega

/-- The numeral of a positive number does not begin with zero. -/
theorem of_nat_head_ne_zero {n : Nat} (hn : 0 < n) : (ofNat n).head? ≠ some '0' := by
  intro hhead
  cases hdigits : ofNat n with
  | nil => exact of_nat_ne_nil n hdigits
  | cons c rest =>
      rw [hdigits] at hhead
      obtain rfl : c = '0' := by simpa using hhead
      have hrest : ∀ d ∈ rest, isDigit d = true := by
        intro d hd
        refine of_nat_digits (n := n) ?_
        rw [hdigits]
        exact List.mem_cons_of_mem _ hd
      have hvalue : toNat rest = n := by
        rw [← to_nat_of_nat n, hdigits]
        exact (to_nat_zeros_append 1 hrest).symm
      have hless := to_nat_lt hrest
      rw [hvalue] at hless
      -- The numeral would have fewer digits than it has.
      rcases Nat.eq_zero_or_pos rest.length with hzero | hpos
      · rw [hzero] at hless
        omega
      · have hlength := (of_nat_length_le_iff hpos).2 hless
        rw [hdigits, List.length_cons] at hlength
        omega

/-- A first character that fails a test fails every narrower one. -/
theorem head_fails {p q : Char → Bool} {t : Text} (h : t.head?.all fun c => !q c)
    (hp : ∀ c, p c = true → q c = true) : t.head?.all fun c => !p c := by
  cases t with
  | nil => rfl
  | cons c t =>
      have hq : q c = false := by simpa using h
      have hpc : p c = false := by
        refine Bool.eq_false_iff.2 fun hpc => ?_
        rw [hp c hpc] at hq
        cases hq
      simp [hpc]

/-- The first character of a run that fails a test does so also before a text; without a run it is
that of the text. -/
theorem head_fails_append {p : Char → Bool} {run t : Text} (hrun : ∀ c ∈ run, p c = false)
    (ht : t.head?.all fun c => !p c) : (run ++ t).head?.all fun c => !p c := by
  cases run with
  | nil => exact ht
  | cons c run => simp [hrun c List.mem_cons_self]

/-- A run of characters that satisfy a test is taken up to the first character that does not. -/
theorem take_run {p : Char → Bool} {run : Text} (rest : Text) (hrun : ∀ c ∈ run, p c = true)
    (hrest : rest.head?.all fun c => !p c) :
    (run ++ rest).takeWhile p = run ∧ (run ++ rest).dropWhile p = rest := by
  rw [List.takeWhile_append_of_pos hrun, List.dropWhile_append_of_pos hrun]
  cases rest with
  | nil => simp
  | cons c rest =>
      have hc : p c = false := by simpa using hrest
      simp [hc]

end QueryTidy.Text
