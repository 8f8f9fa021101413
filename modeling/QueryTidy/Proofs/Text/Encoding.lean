import QueryTidy.Text.Utf8
import Mathlib.Tactic.SplitIfs

/-!
# Decoding what was encoded

The bytes of a text are decoded to the text again.
-/

namespace QueryTidy.Utf8

/-- A byte keeps numbers below 256. -/
theorem byte_to_nat {n : Nat} (h : n < 256) : (UInt8.ofNat n).toNat = n := by
  rw [UInt8.toNat_ofNat']
  exact Nat.mod_eq_of_lt h

/-- A code point is below the last one and no surrogate. -/
theorem code_point_bounds (c : Char) : c.toNat < 0xD800 ∨ 0xDFFF < c.toNat ∧ c.toNat < 0x110000 :=
  c.valid

/-- The last byte of a character is the character itself in ASCII, and no ASCII byte otherwise. -/
theorem encode_char_last (c : Char) :
    ∃ front b, encodeChar c = front ++ [b] ∧
      (b.toNat = c.toNat ∨ 0x80 ≤ b.toNat ∧ 0x80 ≤ c.toNat) := by
  have hhigh : 0x80 ≤ (UInt8.ofNat (0x80 + c.toNat % 64)).toNat := by
    rw [byte_to_nat (by omega)]
    omega
  unfold encodeChar
  dsimp only
  split_ifs with hone htwo hthree
  · exact ⟨[], _, rfl, .inl (byte_to_nat (by omega))⟩
  · exact ⟨[_], _, rfl, .inr ⟨hhigh, by omega⟩⟩
  · exact ⟨[_, _], _, rfl, .inr ⟨hhigh, by omega⟩⟩
  · exact ⟨[_, _, _], _, rfl, .inr ⟨hhigh, by omega⟩⟩

variable {found : Text} {index : Nat} {rest : Bytes}

/-- A byte that may follow and is the last one owed ends a character. -/
theorem decode_last {part : Pending} {n : Nat} {c : Char} (hn : n < 64)
    (hrange : part.low ≤ 0x80 + n ∧ 0x80 + n ≤ part.high) (howed : part.owed = 1)
    (hc : part.bits * 64 + n = c.toNat) :
    decodeFrom found index (some part) (UInt8.ofNat (0x80 + n) :: rest) =
      decodeFrom (c :: found) (index + part.seen + 1) none rest := by
  have hnext : part.next (UInt8.ofNat (0x80 + n)).toNat = .complete c := by
    rw [byte_to_nat (by omega), Pending.next, if_pos hrange, if_pos (Nat.le_of_eq howed),
      Nat.add_sub_cancel_left, hc, Char.ofNat_toNat]
  rw [decodeFrom, hnext]

/-- A byte that may follow and is not the last one owed leaves a character pending. -/
theorem decode_more {part : Pending} {n : Nat} (hn : n < 64)
    (hrange : part.low ≤ 0x80 + n ∧ 0x80 + n ≤ part.high) (howed : 1 < part.owed) :
    decodeFrom found index (some part) (UInt8.ofNat (0x80 + n) :: rest) =
      decodeFrom found index
        (some ⟨part.seen + 1, part.bits * 64 + n, part.owed - 1, 0x80, 0xBF⟩) rest := by
  have hnext : part.next (UInt8.ofNat (0x80 + n)).toNat =
      .more ⟨part.seen + 1, part.bits * 64 + n, part.owed - 1, 0x80, 0xBF⟩ := by
    rw [byte_to_nat (by omega), Pending.next, if_pos hrange, if_neg (by omega),
      Nat.add_sub_cancel_left]
  rw [decodeFrom, hnext]

/-- The first byte of a character of several bytes says what the second one may be. -/
theorem decode_first {n : Nat} {part : Pending} (hn : n < 256) (h : first n = .more part) :
    decodeFrom found index none (UInt8.ofNat n :: rest) =
      decodeFrom found index (some part) rest := by
  rw [decodeFrom, byte_to_nat hn, h]

/-- The first byte of a character of three bytes rules out overlong forms and surrogates. -/
theorem first_of_three {n : Nat} (hn : 0x800 ≤ n ∧ n < 0x10000) (hvalid : n < 0xD800 ∨ 0xDFFF < n) :
    ∃ low high, first (0xE0 + n / 4096) = .more ⟨1, n / 4096, 2, low, high⟩ ∧
      low ≤ 0x80 + n / 64 % 64 ∧ 0x80 + n / 64 % 64 ≤ high := by
  unfold first
  rw [if_neg (by omega), if_neg (by omega), if_neg (by omega)]
  split_ifs with hlow hsurrogate hhigh hfour
  · exact ⟨0xA0, 0xBF, by simp only [show n / 4096 = 0 by omega], by omega, by omega⟩
  · exact ⟨0x80, 0x9F, by simp only [show n / 4096 = 0xD by omega], by omega, by omega⟩
  · exact ⟨0x80, 0xBF, by rw [Nat.add_sub_cancel_left], by omega, by omega⟩
  all_goals omega

/-- The first byte of a character of four bytes rules out overlong forms and too great numbers. -/
theorem first_of_four {n : Nat} (hn : 0x10000 ≤ n ∧ n < 0x110000) :
    ∃ low high, first (0xF0 + n / 262144) = .more ⟨1, n / 262144, 3, low, high⟩ ∧
      low ≤ 0x80 + n / 4096 % 64 ∧ 0x80 + n / 4096 % 64 ≤ high := by
  unfold first
  rw [if_neg (by omega), if_neg (by omega), if_neg (by omega), if_neg (by omega), if_neg (by omega),
    if_neg (by omega)]
  split_ifs with hlow hmiddle hhigh
  · exact ⟨0x90, 0xBF, by simp only [show n / 262144 = 0 by omega], by omega, by omega⟩
  · exact ⟨0x80, 0xBF, by rw [Nat.add_sub_cancel_left], by omega, by omega⟩
  · exact ⟨0x80, 0x8F, by simp only [show n / 262144 = 4 by omega], by omega, by omega⟩
  · omega

/-- The bytes of a character are decoded to the character. -/
theorem decode_char (c : Char) (found : Text) (index : Nat) (rest : Bytes) :
    ∃ index', decodeFrom found index none (encodeChar c ++ rest) =
      decodeFrom (c :: found) index' none rest := by
  have hbounds := code_point_bounds c
  unfold encodeChar
  dsimp only
  split_ifs with hone htwo hthree
  · have hfirst : first (UInt8.ofNat c.toNat).toNat = .complete c := by
      rw [byte_to_nat (by omega), first, if_pos hone, Char.ofNat_toNat]
    refine ⟨index + 1, ?_⟩
    rw [List.cons_append, List.nil_append, decodeFrom, hfirst]
  · have hfirst : first (0xC0 + c.toNat / 64) = .more ⟨1, c.toNat / 64, 1, 0x80, 0xBF⟩ := by
      rw [first, if_neg (by omega), if_neg (by omega), if_pos (by omega), Nat.add_sub_cancel_left]
    refine ⟨index + 1 + 1, ?_⟩
    rw [List.cons_append, decode_first (by omega) hfirst, List.cons_append, List.nil_append]
    exact decode_last (by omega) (by dsimp only; omega) rfl (by dsimp only; omega)
  · obtain ⟨low, high, hfirst, hlow, hhigh⟩ := first_of_three (n := c.toNat) (by omega) (by omega)
    refine ⟨index + 2 + 1, ?_⟩
    rw [List.cons_append, decode_first (by omega) hfirst, List.cons_append,
      decode_more (by omega) ⟨hlow, hhigh⟩ (by dsimp only; omega), List.cons_append,
      List.nil_append]
    exact decode_last (by omega) (by dsimp only; omega) rfl (by dsimp only; omega)
  · obtain ⟨low, high, hfirst, hlow, hhigh⟩ := first_of_four (n := c.toNat) (by omega)
    refine ⟨index + 3 + 1, ?_⟩
    rw [List.cons_append, decode_first (by omega) hfirst, List.cons_append,
      decode_more (by omega) ⟨hlow, hhigh⟩ (by dsimp only; omega), List.cons_append,
      decode_more (by omega) (by dsimp only; omega) (by dsimp only; omega), List.cons_append,
      List.nil_append]
    exact decode_last (by omega) (by dsimp only; omega) rfl (by dsimp only; omega)

/-- The bytes of a text are decoded to the text. -/
theorem decode_encode (t : Text) : decode (encode t) = .ok t := by
  have hfrom : ∀ (t found : Text) (index : Nat),
      decodeFrom found index none (encode t) = .ok (found.reverse ++ t) := by
    intro t
    induction t with
    | nil =>
        intro found index
        rw [List.append_nil]
        rfl
    | cons c t ih =>
        intro found index
        obtain ⟨index', hchar⟩ := decode_char c found index (encode t)
        have hencode : encode (c :: t) = encodeChar c ++ encode t := rfl
        rw [hencode, hchar, ih, List.reverse_cons, List.append_assoc]
        rfl
  exact hfrom t [] 0

end QueryTidy.Utf8
