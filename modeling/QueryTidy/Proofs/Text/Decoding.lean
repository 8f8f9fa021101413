import QueryTidy.Proofs.Text.Encoding

/-!
# What the decoder says about bytes

Bytes are an encoding (`IsEncoding`) when they are the bytes of some text, and the beginning of one
(`Begins`) when more bytes can be put behind them to form an encoding. The decoder gives a text
exactly for the encodings, and otherwise says where the longest encoding at the beginning ends and
what is wrong behind it.

The decoder looks at one byte at a time. What carries the proof is the meaning of a pending part of
a character: it stands for the numbers that its bits and the range of its next byte leave possible,
and each of them is the number of a character whose bytes begin with the bytes read
(`Pending.Fits`). One byte keeps this (`fits_first`, `Pending.Fits.more`) or ends a character
(`complete_first`, `Pending.Fits.complete`). A byte is refused only where no character goes on,
since the decoder reads every character back. By induction over the bytes, an error describes what
follows the longest encoding (`DecodeError.Describes`).
-/

namespace QueryTidy.Utf8

attribute [local instance (1100)] instPowNat

/-- The bytes are the encoding of a text. -/
def IsEncoding (bytes : Bytes) : Prop :=
  ∃ text, encode text = bytes

/-- The bytes are the beginning of an encoding: more bytes complete them. -/
def Begins (bytes : Bytes) : Prop :=
  ∃ more, IsEncoding (bytes ++ more)

/-- The last bytes of the character with the given number, six bits each. -/
def lastBytes : Nat → Nat → Bytes
  | 0, _ => []
  | k + 1, n => UInt8.ofNat (0x80 + n / 64 ^ k % 64) :: lastBytes k n

/-- The number is one that the bits read and the range of the next byte leave possible. -/
def Pending.Allows (part : Pending) (n : Nat) : Prop :=
  part.bits * 64 + (part.low - 0x80) ≤ n / 64 ^ (part.owed - 1) ∧
    n / 64 ^ (part.owed - 1) ≤ part.bits * 64 + (part.high - 0x80)

/-- The pending part describes the bytes: whatever numbers it allows are the numbers of characters
that begin with the bytes, and the decoder is in this state when it has read them. -/
structure Pending.Fits (part : Pending) (bytes : Bytes) : Prop where
  seen_eq : part.seen = bytes.length
  owed_pos : 0 < part.owed
  low_le_high : 0x80 ≤ part.low ∧ part.low ≤ part.high ∧ part.high ≤ 0xBF
  begins : ∀ n, part.Allows n →
    ∃ c : Char, c.toNat = n ∧ encodeChar c = bytes ++ lastBytes part.owed n
  reads : ∀ found index rest,
    decodeFrom found index none (bytes ++ rest) = decodeFrom found index (some part) rest

/-! ## One byte -/

/-- A number that is no surrogate and not too great is the number of a character. -/
theorem char_of_number {n : Nat} (h : n < 0xD800 ∨ 0xDFFF < n ∧ n < 0x110000) :
    ∃ c : Char, c.toNat = n :=
  ⟨Char.ofNatAux n h, rfl⟩

/-- The bytes of a character of two bytes. -/
theorem encode_char_two {c : Char} (h : 0x80 ≤ c.toNat ∧ c.toNat < 0x800) :
    encodeChar c = UInt8.ofNat (0xC0 + c.toNat / 64) :: lastBytes 1 c.toNat := by
  unfold encodeChar
  dsimp only
  rw [if_neg (by omega), if_pos h.2]
  simp only [lastBytes, Nat.pow_zero, Nat.div_one]

/-- The bytes of a character of three bytes. -/
theorem encode_char_three {c : Char} (h : 0x800 ≤ c.toNat ∧ c.toNat < 0x10000) :
    encodeChar c = UInt8.ofNat (0xE0 + c.toNat / 4096) :: lastBytes 2 c.toNat := by
  unfold encodeChar
  dsimp only
  rw [if_neg (by omega), if_neg (by omega), if_pos h.2]
  simp only [lastBytes, Nat.pow_zero, Nat.div_one, Nat.pow_one]

/-- The bytes of a character of four bytes. -/
theorem encode_char_four {c : Char} (h : 0x10000 ≤ c.toNat) :
    encodeChar c = UInt8.ofNat (0xF0 + c.toNat / 262144) :: lastBytes 3 c.toNat := by
  unfold encodeChar
  dsimp only
  rw [if_neg (by omega), if_neg (by omega), if_neg (by omega)]
  simp only [lastBytes, Nat.pow_zero, Nat.div_one, Nat.pow_one, Nat.reducePow]

/-- A first byte that leaves a part pending describes itself when every number that the part allows
is the number of a character with this first byte. -/
theorem fits_of_first {b : UInt8} {bits owed low high : Nat}
    (hfirst : first b.toNat = .more ⟨1, bits, owed, low, high⟩) (howed : 0 < owed)
    (hrange : 0x80 ≤ low ∧ low ≤ high ∧ high ≤ 0xBF)
    (hbegins : ∀ n, (⟨1, bits, owed, low, high⟩ : Pending).Allows n →
      (n < 0xD800 ∨ 0xDFFF < n ∧ n < 0x110000) ∧
        ∀ c : Char, c.toNat = n → encodeChar c = b :: lastBytes owed n) :
    (⟨1, bits, owed, low, high⟩ : Pending).Fits [b] := by
  refine ⟨rfl, howed, hrange, ?_, ?_⟩
  · intro n hn
    obtain ⟨hvalid, hencode⟩ := hbegins n hn
    obtain ⟨c, hc⟩ := char_of_number hvalid
    exact ⟨c, hc, hencode c hc⟩
  · intro found index rest
    rw [List.singleton_append, decodeFrom, hfirst]

/-- The first byte of a character of two bytes. -/
theorem fits_of_two {b : UInt8} {bits : Nat} (hb : b.toNat = 0xC0 + bits)
    (hbits : 2 ≤ bits ∧ bits < 32)
    (hfirst : first b.toNat = .more ⟨1, bits, 1, 0x80, 0xBF⟩) :
    (⟨1, bits, 1, 0x80, 0xBF⟩ : Pending).Fits [b] := by
  refine fits_of_first hfirst (by omega) (by omega) ?_
  rintro n ⟨hlow, hhigh⟩
  simp only [Nat.sub_self, Nat.pow_zero, Nat.div_one] at hlow hhigh
  refine ⟨by omega, ?_⟩
  rintro c rfl
  rw [encode_char_two (by omega), show 0xC0 + c.toNat / 64 = b.toNat by omega, UInt8.ofNat_toNat]

/-- The first byte of a character of three bytes, where the range of the second one leaves out
overlong forms and surrogates. -/
theorem fits_of_three {b : UInt8} {bits low high : Nat} (hb : b.toNat = 0xE0 + bits)
    (hbits : bits < 16)
    (hfirst : first b.toNat = .more ⟨1, bits, 2, low, high⟩)
    (hrange : 0x80 ≤ low ∧ low ≤ high ∧ high ≤ 0xBF)
    (hlong : 0x20 ≤ bits * 64 + (low - 0x80))
    (hvalid : bits * 64 + (high - 0x80) < 0x360 ∨ 0x37F < bits * 64 + (low - 0x80)) :
    (⟨1, bits, 2, low, high⟩ : Pending).Fits [b] := by
  refine fits_of_first hfirst (by omega) hrange ?_
  rintro n ⟨hlow, hhigh⟩
  simp only [Nat.reduceSub, Nat.pow_one] at hlow hhigh
  refine ⟨by omega, ?_⟩
  rintro c rfl
  rw [encode_char_three (by omega), show 0xE0 + c.toNat / 4096 = b.toNat by omega,
    UInt8.ofNat_toNat]

/-- The first byte of a character of four bytes, where the range of the second one leaves out
overlong forms and too great numbers. -/
theorem fits_of_four {b : UInt8} {bits low high : Nat} (hb : b.toNat = 0xF0 + bits)
    (hfirst : first b.toNat = .more ⟨1, bits, 3, low, high⟩)
    (hrange : 0x80 ≤ low ∧ low ≤ high ∧ high ≤ 0xBF)
    (hlong : 0x10 ≤ bits * 64 + (low - 0x80)) (hvalid : bits * 64 + (high - 0x80) < 0x110) :
    (⟨1, bits, 3, low, high⟩ : Pending).Fits [b] := by
  refine fits_of_first hfirst (by omega) hrange ?_
  rintro n ⟨hlow, hhigh⟩
  simp only [Nat.reduceSub, Nat.reducePow] at hlow hhigh
  refine ⟨by omega, ?_⟩
  rintro c rfl
  rw [encode_char_four (by omega), show 0xF0 + c.toNat / 262144 = b.toNat by omega,
    UInt8.ofNat_toNat]

/-- A first byte that leaves a part pending is described by it. -/
theorem fits_first {b : UInt8} {part : Pending} (h : first b.toNat = .more part) :
    part.Fits [b] := by
  have hfirst := h
  unfold first at h
  split_ifs at h
  all_goals cases h
  · exact fits_of_two (by omega) (by omega) hfirst
  · exact fits_of_three (by omega) (by omega) hfirst (by omega) (by omega) (by omega)
  · exact fits_of_three (by omega) (by omega) hfirst (by omega) (by omega) (by omega)
  · exact fits_of_three (by omega) (by omega) hfirst (by omega) (by omega) (by omega)
  · exact fits_of_four (by omega) hfirst (by omega) (by omega) (by omega)
  · exact fits_of_four (by omega) hfirst (by omega) (by omega) (by omega)
  · exact fits_of_four (by omega) hfirst (by omega) (by omega) (by omega)

/-- A first byte that ends a character is its only byte. -/
theorem complete_first {b : UInt8} {c : Char} (h : first b.toNat = .complete c) :
    encodeChar c = [b] := by
  unfold first at h
  split_ifs at h with hsmall
  cases h
  obtain ⟨c, hc⟩ := char_of_number (n := b.toNat) (by omega)
  rw [← hc, Char.ofNat_toNat]
  unfold encodeChar
  dsimp only
  rw [if_pos (by omega), hc, UInt8.ofNat_toNat]

namespace Pending.Fits

variable {part : Pending} {bytes : Bytes} {b : UInt8}

/-- What a byte does that is not refused: it lies in the range, and it ends a character or narrows
the numbers down to those with its bits. -/
theorem of_allowed (h : part.Fits bytes) (hrange : part.low ≤ b.toNat ∧ b.toNat ≤ part.high)
    {n : Nat} (hn : n / 64 ^ (part.owed - 1) = part.bits * 64 + (b.toNat - 0x80)) :
    ∃ c : Char, c.toNat = n ∧ encodeChar c = bytes ++ b :: lastBytes (part.owed - 1) n := by
  have hbounds := h.low_le_high
  obtain ⟨c, hc, hencode⟩ := h.begins n (by unfold Pending.Allows; omega)
  refine ⟨c, hc, ?_⟩
  obtain ⟨k, hk⟩ : ∃ k, part.owed = k + 1 := ⟨part.owed - 1, by have := h.owed_pos; omega⟩
  rw [hencode, hk, Nat.add_sub_cancel, lastBytes]
  rw [hk, Nat.add_sub_cancel] at hn
  rw [hn, show 0x80 + (part.bits * 64 + (b.toNat - 0x80)) % 64 = b.toNat by omega,
    UInt8.ofNat_toNat]

/-- A further byte that leaves a part pending is described by it. -/
theorem more (h : part.Fits bytes) {part' : Pending} (hnext : part.next b.toNat = .more part') :
    part'.Fits (bytes ++ [b]) := by
  have hreads : ∀ found index rest, decodeFrom found index none (bytes ++ [b] ++ rest) =
      decodeFrom found index (some part') rest := by
    intro found index rest
    rw [List.append_assoc, h.reads, List.singleton_append, decodeFrom, hnext]
  unfold Pending.next at hnext
  split_ifs at hnext with hrange howed
  cases hnext
  refine ⟨?_, ?_, ⟨Nat.le_refl _, Nat.le_add_right 0x80 0x3F, Nat.le_refl _⟩, ?_, hreads⟩
  · rw [h.seen_eq, List.length_append, List.length_singleton]
  · show 0 < part.owed - 1
    omega
  · rintro n ⟨hlow, hhigh⟩
    dsimp only at hlow hhigh
    obtain ⟨c, hc, hencode⟩ := h.of_allowed (n := n) hrange (by
      obtain ⟨k, hk⟩ : ∃ k, part.owed = k + 2 := ⟨part.owed - 2, by omega⟩
      rw [hk] at hlow hhigh ⊢
      rw [show k + 2 - 1 - 1 = k by omega] at hlow hhigh
      rw [show k + 2 - 1 = k + 1 by omega, Nat.pow_succ, ← Nat.div_div_eq_div_mul]
      omega)
    refine ⟨c, hc, ?_⟩
    rw [hencode, List.append_assoc, List.singleton_append]

/-- A further byte that ends a character is its last byte. -/
theorem complete (h : part.Fits bytes) {c : Char} (hnext : part.next b.toNat = .complete c) :
    encodeChar c = bytes ++ [b] := by
  have howed_pos := h.owed_pos
  unfold Pending.next at hnext
  split_ifs at hnext with hrange howed
  have hlast : part.owed - 1 = 0 := by omega
  obtain ⟨d, hd, hencode⟩ := h.of_allowed hrange (n := part.bits * 64 + (b.toNat - 0x80)) (by
    rw [hlast, Nat.pow_zero, Nat.div_one])
  have hchar : Char.ofNat (part.bits * 64 + (b.toNat - 0x80)) = d := by
    rw [← hd, Char.ofNat_toNat]
  rw [← Progress.complete.inj hnext, hchar, hencode, hlast, lastBytes]

/-- Some character begins with the bytes read and goes on. -/
theorem goes_on (h : part.Fits bytes) : ∃ c more, more ≠ [] ∧ encodeChar c = bytes ++ more := by
  have hbounds := h.low_le_high
  obtain ⟨c, -, hencode⟩ := h.begins
    ((part.bits * 64 + (part.low - 0x80)) * 64 ^ (part.owed - 1)) (by
      unfold Pending.Allows
      rw [Nat.mul_div_cancel _ (Nat.pow_pos (by omega))]
      omega)
  refine ⟨c, _, ?_, hencode⟩
  obtain ⟨k, hk⟩ : ∃ k, part.owed = k + 1 := ⟨part.owed - 1, by have := h.owed_pos; omega⟩
  rw [hk, lastBytes]
  exact List.cons_ne_nil _ _

end Pending.Fits

/-! ## Characters at the beginning of bytes -/

/-- A character has bytes. -/
theorem encode_char_ne_nil (c : Char) : encodeChar c ≠ [] := by
  unfold encodeChar
  dsimp only
  split_ifs
  all_goals exact List.cons_ne_nil _ _

/-- A text that is decoded begins with the characters found before. -/
theorem decode_from_found {found : Text} {index : Nat} {pending : Option Pending} {bytes : Bytes}
    {text : Text} (h : decodeFrom found index pending bytes = .ok text) :
    found.reverse <+: text := by
  fun_induction decodeFrom found index pending bytes with
  | case1 => cases h; exact List.prefix_refl _
  | case2 => cases h
  | case3 found index b rest c hfirst ih =>
      exact (List.prefix_append _ _).trans (List.reverse_cons ▸ ih h)
  | case4 found index b rest part hfirst ih => exact ih h
  | case5 => cases h
  | case6 found index part b rest c hnext ih =>
      exact (List.prefix_append _ _).trans (List.reverse_cons ▸ ih h)
  | case7 found index part b rest part' hnext ih => exact ih h
  | case8 => cases h

/-- No character's bytes are the beginning of those of another one. -/
theorem encode_char_unextended {c d : Char} {more : Bytes}
    (h : encodeChar d = encodeChar c ++ more) : d = c ∧ more = [] := by
  have hdecode : decode (encodeChar c ++ more) = .ok [d] := by
    rw [← h]
    have hencode : encode [d] = encodeChar d := List.append_nil _
    rw [← hencode]
    exact decode_encode [d]
  obtain ⟨index, hchar⟩ := decode_char c [] 0 more
  obtain ⟨others, hothers⟩ := decode_from_found (hchar.symm.trans hdecode)
  -- The decoder finds the first character before it looks at what follows.
  have hsame : d = c := (List.cons.inj hothers).1.symm
  subst hsame
  exact ⟨rfl, List.append_right_eq_self.mp h.symm⟩

/-- Bytes begin with one character at most. -/
theorem encode_char_append {c d : Char} {rest rest' : Bytes}
    (h : encodeChar c ++ rest = encodeChar d ++ rest') : c = d ∧ rest = rest' := by
  rcases List.append_eq_append_iff.mp h with ⟨more, hd, hrest⟩ | ⟨more, hc, hrest⟩
  · obtain ⟨rfl, rfl⟩ := encode_char_unextended hd
    exact ⟨rfl, hrest⟩
  · obtain ⟨rfl, rfl⟩ := encode_char_unextended hc
    exact ⟨rfl, hrest.symm⟩

/-- The bytes begin with no character. -/
def Stuck (bytes : Bytes) : Prop :=
  ∀ c, ¬encodeChar c <+: bytes

/-- Bytes with which some character begins and goes on begin with no character. -/
theorem stuck_of_part {part more : Bytes} {c : Char} (hmore : more ≠ [])
    (hc : encodeChar c = part ++ more) : Stuck part := by
  rintro d ⟨rest, hd⟩
  rw [← hd, List.append_assoc] at hc
  obtain ⟨-, hnil⟩ := encode_char_unextended hc
  exact hmore (List.append_eq_nil_iff.mp hnil).2

/-- When no character goes on with a byte, the bytes up to there and all that follow begin with no
character. -/
theorem stuck_of_refused {part : Bytes} (rest : Bytes) {b : UInt8} (hpart : Stuck part)
    (hnone : ∀ c, ¬part ++ [b] <+: encodeChar c) : Stuck (part ++ b :: rest) := by
  intro c hc
  have hupto : part ++ [b] <+: part ++ b :: rest := ⟨rest, by simp⟩
  rcases List.prefix_or_prefix_of_prefix hc hupto with hshort | hlong
  · rcases List.prefix_concat_iff.mp hshort with heq | hwithin
    · exact hnone c (heq ▸ List.prefix_refl _)
    · exact hpart c hwithin
  · exact hnone c hlong

/-! ## The induction over the bytes -/

/-- What an error says about the bytes: they are the encoding of a text and a rest. At the end of
the input, the rest is the beginning of a character. Otherwise there is a byte with which no
character goes on after the beginning of one, or with which none begins. -/
inductive DecodeError.Describes : DecodeError → Bytes → Prop
  | incomplete (text : Text) {part more : Bytes} {c : Char} (hpart : part ≠ []) (hmore : more ≠ [])
      (hc : encodeChar c = part ++ more) :
      Describes (.incomplete (encode text).length) (encode text ++ part)
  | none_begins (text : Text) {b : UInt8} (rest : Bytes) (hnone : ∀ c, ¬[b] <+: encodeChar c) :
      Describes (.invalid 1 (encode text).length) (encode text ++ b :: rest)
  | none_goes_on (text : Text) {part more : Bytes} {c : Char} {b : UInt8} (rest : Bytes)
      (hpart : part ≠ []) (hmore : more ≠ []) (hc : encodeChar c = part ++ more)
      (hnone : ∀ c, ¬part ++ [b] <+: encodeChar c) :
      Describes (.invalid part.length (encode text).length) (encode text ++ (part ++ b :: rest))

/-- The encoding of a text and one more character. -/
theorem encode_reverse_cons (c : Char) (found : Text) :
    encode (c :: found).reverse = encode found.reverse ++ encodeChar c := by
  unfold encode
  rw [List.reverse_cons, List.flatMap_append, List.flatMap_singleton]

/-- A first byte that the decoder refuses begins no character. -/
theorem none_begins_of_refused {b : UInt8} (h : first b.toNat = .refused) (c : Char) :
    ¬[b] <+: encodeChar c := by
  rintro ⟨more, hc⟩
  obtain ⟨index, hchar⟩ := decode_char c [] 0 []
  have hrefused : decodeFrom [] 0 none (b :: more) = .error (.invalid 1 0) := by
    rw [decodeFrom, h]
  rw [← hc, List.append_nil, List.singleton_append, hrefused, decodeFrom] at hchar
  cases hchar

/-- After a pending part, no character goes on with a byte that the decoder refuses. -/
theorem Pending.Fits.none_goes_on {part : Pending} {bytes : Bytes} {b : UInt8}
    (hfits : part.Fits bytes) (h : part.next b.toNat = .refused) (c : Char) :
    ¬bytes ++ [b] <+: encodeChar c := by
  rintro ⟨more, hc⟩
  obtain ⟨index, hchar⟩ := decode_char c [] 0 []
  have hrefused : decodeFrom [] 0 (some part) (b :: more) = .error (.invalid part.seen 0) := by
    rw [decodeFrom, h]
  rw [← hc, List.append_nil, List.append_assoc, hfits.reads, List.singleton_append, hrefused,
    decodeFrom] at hchar
  cases hchar

/-- The bytes read of the current character: none, or those that the pending part describes. -/
def Reading (pending : Option Pending) (bytes : Bytes) : Prop :=
  match pending with
  | none => bytes = []
  | some part => part.Fits bytes ∧ bytes ≠ []

/-- A run of the decoder ends with the text whose encoding is the input, or with an error that
describes the input. -/
theorem decode_from_spec {found : Text} {index : Nat} {pending : Option Pending} {rest : Bytes}
    (bytes : Bytes)
    (hindex : index = (encode found.reverse).length) (hreading : Reading pending bytes) :
    (∀ text, decodeFrom found index pending rest = .ok text →
      encode text = encode found.reverse ++ (bytes ++ rest)) ∧
    (∀ e, decodeFrom found index pending rest = .error e →
      e.Describes (encode found.reverse ++ (bytes ++ rest))) := by
  -- The induction is on the bytes left. A byte that goes on with a character moves to the bytes
  -- read of it, one that ends a character moves them all to the text found.
  fun_induction decodeFrom found index pending rest generalizing bytes with
  | case1 found index =>
      obtain rfl : bytes = [] := hreading
      refine ⟨?_, nofun⟩
      intro text h
      cases h
      rw [List.append_nil, List.append_nil]
  | case2 found index part =>
      obtain ⟨hfits, hne⟩ := hreading
      obtain ⟨c, more, hmore, hc⟩ := hfits.goes_on
      refine ⟨nofun, ?_⟩
      intro e h
      cases h
      rw [hindex, List.append_nil]
      exact .incomplete found.reverse hne hmore hc
  | case3 found index b rest c hfirst ih =>
      obtain rfl : bytes = [] := hreading
      have hc := complete_first hfirst
      have hencode : encode (c :: found).reverse = encode found.reverse ++ [b] := by
        rw [encode_reverse_cons, hc]
      have hrun := ih [] (by rw [hencode, List.length_append, hindex]; rfl) rfl
      rw [hencode, List.append_assoc] at hrun
      exact hrun
  | case4 found index b rest part hfirst ih =>
      obtain rfl : bytes = [] := hreading
      exact ih [b] hindex ⟨fits_first hfirst, List.cons_ne_nil _ _⟩
  | case5 found index b rest hfirst =>
      obtain rfl : bytes = [] := hreading
      refine ⟨nofun, ?_⟩
      intro e h
      cases h
      rw [hindex, List.nil_append]
      exact .none_begins found.reverse rest (none_begins_of_refused hfirst)
  | case6 found index part b rest c hnext ih =>
      obtain ⟨hfits, hne⟩ := hreading
      have hc := hfits.complete hnext
      have hencode : encode (c :: found).reverse = encode found.reverse ++ (bytes ++ [b]) := by
        rw [encode_reverse_cons, hc]
      have hrun := ih [] (by
        rw [hencode, List.length_append, List.length_append, hindex, hfits.seen_eq, ← Nat.add_assoc]
        rfl) rfl
      rw [hencode, List.append_assoc, List.append_assoc] at hrun
      exact hrun
  | case7 found index part b rest part' hnext ih =>
      obtain ⟨hfits, hne⟩ := hreading
      have hrun := ih (bytes ++ [b]) hindex
        ⟨hfits.more hnext, List.append_ne_nil_of_left_ne_nil hne _⟩
      rw [List.append_assoc bytes] at hrun
      exact hrun
  | case8 found index part b rest hnext =>
      obtain ⟨hfits, hne⟩ := hreading
      obtain ⟨c, more, hmore, hc⟩ := hfits.goes_on
      refine ⟨nofun, ?_⟩
      intro e h
      cases h
      rw [hindex, hfits.seen_eq]
      exact .none_goes_on found.reverse rest hne hmore hc (hfits.none_goes_on hnext)

/-- Bytes are decoded to a text exactly when they are its encoding. -/
theorem decode_ok_iff {bytes : Bytes} {text : Text} :
    decode bytes = .ok text ↔ bytes = encode text := by
  constructor
  · intro h
    have hread : Reading none [] := rfl
    exact ((decode_from_spec [] rfl hread).1 text h).symm
  · rintro rfl
    exact decode_encode text

/-- An error describes the bytes. -/
theorem decode_error {bytes : Bytes} {e : DecodeError} (h : decode bytes = .error e) :
    e.Describes bytes := by
  have hread : Reading none [] := rfl
  exact (decode_from_spec [] rfl hread).2 e h

/-! ## What follows the longest encoding -/

/-- The longest beginning of the bytes with a property. -/
structure Longest (P : Bytes → Prop) (bytes part : Bytes) : Prop where
  begins : part <+: bytes
  holds : P part
  longest : ∀ other, other <+: bytes → P other → other.length ≤ part.length

/-- What is reported as the length of a fault in front of the bytes: that of their longest
beginning, not empty, that more bytes complete to an encoding, or one byte if there is none. -/
def IsFaultLength (bytes : Bytes) (length : Nat) : Prop :=
  (∃ part, Longest (fun part => part ≠ [] ∧ Begins part) bytes part ∧ length = part.length) ∨
    (∀ part, part <+: bytes → part ≠ [] → ¬Begins part) ∧ length = 1

/-- The encoding of a text is the longest one in front of bytes that begin with no character. -/
theorem longest_encoding {rest : Bytes} (hrest : Stuck rest) (text : Text) :
    Longest IsEncoding (encode text ++ rest) (encode text) := by
  refine ⟨List.prefix_append _ _, ⟨text, rfl⟩, ?_⟩
  rintro _ hother ⟨other, rfl⟩
  induction text generalizing other with
  | nil =>
      cases other with
      | nil => exact Nat.le_refl _
      | cons c other => exact absurd ((List.prefix_append _ _).trans hother) (hrest c)
  | cons c text ih =>
      cases other with
      | nil => exact Nat.zero_le _
      | cons d other =>
          obtain ⟨more, hmore⟩ := hother
          have hheads : encodeChar d ++ (encode other ++ more) =
              encodeChar c ++ (encode text ++ rest) := by
            rw [← List.append_assoc, ← List.append_assoc]
            exact hmore
          obtain ⟨rfl, htails⟩ := encode_char_append hheads
          have hlength := ih other ⟨more, htails⟩
          show (encodeChar d ++ encode other).length ≤ (encodeChar d ++ encode text).length
          rw [List.length_append, List.length_append]
          omega

/-- Bytes that begin with no character begin an encoding exactly when they begin a character. -/
theorem begins_iff {bytes : Bytes} (hstuck : Stuck bytes) (hne : bytes ≠ []) :
    Begins bytes ↔ ∃ c, bytes <+: encodeChar c := by
  constructor
  · rintro ⟨more, text, htext⟩
    cases text with
    | nil => exact absurd (List.append_eq_nil_iff.mp htext.symm).1 hne
    | cons c text =>
        have hchar : encodeChar c <+: bytes ++ more := ⟨encode text, htext⟩
        rcases List.prefix_or_prefix_of_prefix hchar (List.prefix_append bytes more) with hin | hout
        · exact absurd hin (hstuck c)
        · exact ⟨c, hout⟩
  · rintro ⟨c, more, hmore⟩
    exact ⟨more, [c], (List.append_nil _).trans hmore.symm⟩

/-- A beginning of bytes that begin with no character begins with none. -/
theorem Stuck.beginning {part bytes : Bytes} (hstuck : Stuck bytes) (hpart : part <+: bytes) :
    Stuck part :=
  fun c hc => hstuck c (hc.trans hpart)

/-- No bytes begin with no character. -/
theorem stuck_nil : Stuck [] :=
  fun c hc => encode_char_ne_nil c (List.prefix_nil.mp hc)

/-- When no character goes on with a byte after a part, a beginning of an encoding that starts with
the part ends with it. -/
theorem length_le_of_begins (part : Bytes) {rest other : Bytes} {b : UInt8} (hpart : Stuck part)
    (hnone : ∀ c, ¬part ++ [b] <+: encodeChar c) (hother : other <+: part ++ b :: rest)
    (hne : other ≠ []) (hbegins : Begins other) : other.length ≤ part.length := by
  have hstuck := (stuck_of_refused rest hpart hnone).beginning hother
  obtain ⟨c, hc⟩ := (begins_iff hstuck hne).mp hbegins
  refine Nat.le_of_not_lt fun hlength => ?_
  have hupto : part ++ [b] <+: part ++ b :: rest := ⟨rest, by simp⟩
  have hwithin : part ++ [b] <+: other :=
    List.prefix_of_prefix_length_le hupto hother (by
      rw [List.length_append, List.length_singleton]
      omega)
  exact hnone c (hwithin.trans hc)

/-- Bytes that are no encoding are decoded to an error that tells the length of the longest encoding
in front, whether the rest only lacks more bytes, and otherwise how long the fault is. -/
theorem decode_of_not_encoding {bytes : Bytes} (h : ¬IsEncoding bytes) :
    ∃ front rest, bytes = front ++ rest ∧ Longest IsEncoding bytes front ∧
      (Begins rest ∧ decode bytes = .error (.incomplete front.length) ∨
        ¬Begins rest ∧
          ∃ n, IsFaultLength rest n ∧ decode bytes = .error (.invalid n front.length)) := by
  cases hdecode : decode bytes with
  | ok text => exact absurd ⟨text, (decode_ok_iff.mp hdecode).symm⟩ h
  | error e =>
      cases decode_error hdecode with
      | @incomplete text part more c hpart hmore hc =>
          have hstuck := stuck_of_part hmore hc
          exact ⟨encode text, part, rfl, longest_encoding hstuck text,
            .inl ⟨(begins_iff hstuck hpart).mpr ⟨c, more, hc.symm⟩, rfl⟩⟩
      | @none_begins text b rest hnone =>
          have hnothing : ∀ part, part <+: b :: rest → part ≠ [] → ¬Begins part := by
            intro part hpart hne hbegins
            have hlength := length_le_of_begins [] stuck_nil hnone hpart hne hbegins
            exact hne (List.eq_nil_of_length_eq_zero (Nat.le_zero.mp hlength))
          exact ⟨encode text, b :: rest, rfl,
            longest_encoding (stuck_of_refused rest stuck_nil hnone) text,
            .inr ⟨hnothing _ (List.prefix_refl _) (List.cons_ne_nil _ _), 1, .inr ⟨hnothing, rfl⟩,
              rfl⟩⟩
      | @none_goes_on text part more c b rest hpart hmore hc hnone =>
          have hstuck := stuck_of_part hmore hc
          have hlongest : ∀ other, other <+: part ++ b :: rest → other ≠ [] ∧ Begins other →
              other.length ≤ part.length :=
            fun other hother hin => length_le_of_begins part hstuck hnone hother hin.1 hin.2
          refine ⟨encode text, part ++ b :: rest, rfl,
            longest_encoding (stuck_of_refused rest hstuck hnone) text,
            .inr ⟨?_, part.length, .inl ?_, rfl⟩⟩
          · intro hbegins
            have hlength := hlongest _ (List.prefix_refl _) ⟨by simp, hbegins⟩
            rw [List.length_append, List.length_cons] at hlength
            omega
          · exact ⟨part, ⟨List.prefix_append _ _,
              ⟨hpart, (begins_iff hstuck hpart).mpr ⟨c, more, hc.symm⟩⟩, hlongest⟩, rfl⟩

example : decode [0x61, 0xF0, 0x90, 0x80, 0x28] = .error (.invalid 3 1) := rfl

example : decode [0x61, 0xE2, 0x82] = .error (.incomplete 1) := rfl

end QueryTidy.Utf8
