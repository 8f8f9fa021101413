import QueryTidy.Text.Basic

/-!
# UTF-8

Encoding of texts (`Utf8.encode`) and two ways of decoding bytes: exactly, with a description of the
first fault (`Utf8.decode`), and lossily, every maximal faulty part becoming one replacement
character (`Utf8.decodeLossy`). Both decoders take one byte at a time. Between the bytes of a
character they keep a `Pending` part: the bits read so far and what the next byte may be.
-/

namespace QueryTidy.Utf8

/-- The bytes of a character. -/
def encodeChar (c : Char) : Bytes :=
  let n := c.toNat
  if n < 0x80 then [UInt8.ofNat n]
  else if n < 0x800 then [UInt8.ofNat (0xC0 + n / 64), UInt8.ofNat (0x80 + n % 64)]
  else if n < 0x10000 then
    [UInt8.ofNat (0xE0 + n / 4096), UInt8.ofNat (0x80 + n / 64 % 64), UInt8.ofNat (0x80 + n % 64)]
  else
    [UInt8.ofNat (0xF0 + n / 262144), UInt8.ofNat (0x80 + n / 4096 % 64),
      UInt8.ofNat (0x80 + n / 64 % 64), UInt8.ofNat (0x80 + n % 64)]

/-- The bytes of a text. -/
def encode (t : Text) : Bytes :=
  t.flatMap encodeChar

/-- The beginning of a character: how many of its bytes were read, the number that their bits
form, how many bytes are owed, and the range of the next one. -/
structure Pending where
  seen : Nat
  bits : Nat
  owed : Nat
  low : Nat := 0x80
  high : Nat := 0xBF
  deriving DecidableEq, Repr

/-- What one byte leads to. -/
inductive Progress where
  /-- The byte ends a character. -/
  | complete (c : Char)
  /-- The byte belongs to a character of which more is owed. -/
  | more (part : Pending)
  /-- No character continues so. -/
  | refused
  deriving DecidableEq, Repr

/-- The first byte of a character. The ranges of the second byte leave out overlong forms, the
surrogates and numbers above the last code point. -/
def first (b : Nat) : Progress :=
  if b < 0x80 then .complete (Char.ofNat b)
  else if b < 0xC2 then .refused
  else if b < 0xE0 then .more ⟨1, b - 0xC0, 1, 0x80, 0xBF⟩
  else if b = 0xE0 then .more ⟨1, 0, 2, 0xA0, 0xBF⟩
  else if b = 0xED then .more ⟨1, 0xD, 2, 0x80, 0x9F⟩
  else if b < 0xF0 then .more ⟨1, b - 0xE0, 2, 0x80, 0xBF⟩
  else if b = 0xF0 then .more ⟨1, 0, 3, 0x90, 0xBF⟩
  else if b < 0xF4 then .more ⟨1, b - 0xF0, 3, 0x80, 0xBF⟩
  else if b = 0xF4 then .more ⟨1, 4, 3, 0x80, 0x8F⟩
  else .refused

/-- A further byte of a character. -/
def Pending.next (part : Pending) (b : Nat) : Progress :=
  if part.low ≤ b ∧ b ≤ part.high then
    let bits := part.bits * 64 + (b - 0x80)
    if part.owed ≤ 1 then .complete (Char.ofNat bits)
    else .more ⟨part.seen + 1, bits, part.owed - 1, 0x80, 0xBF⟩
  else .refused

/-- Why bytes are not the encoding of a text. -/
inductive DecodeError where
  /-- After a valid beginning of `index` bytes come `length` bytes that no character continues. -/
  | invalid (length index : Nat)
  /-- After a valid beginning of `index` bytes the input ends inside a character. -/
  | incomplete (index : Nat)
  deriving DecidableEq, Repr

/-- The wording of the error. -/
def DecodeError.message : DecodeError → Text
  | .invalid length index =>
      "invalid utf-8 sequence of ".toList ++ Text.ofNat length ++ " bytes from index ".toList
        ++ Text.ofNat index
  | .incomplete index => "incomplete utf-8 byte sequence from index ".toList ++ Text.ofNat index

/-- Decode from the given position of the input, with the characters found so far in reverse
order. `index` is the position at which the current character begins. -/
def decodeFrom (found : Text) (index : Nat) : Option Pending → Bytes → Except DecodeError Text
  | none, [] => .ok found.reverse
  | some _, [] => .error (.incomplete index)
  | none, b :: rest =>
      match first b.toNat with
      | .complete c => decodeFrom (c :: found) (index + 1) none rest
      | .more part => decodeFrom found index (some part) rest
      | .refused => .error (.invalid 1 index)
  | some part, b :: rest =>
      match part.next b.toNat with
      | .complete c => decodeFrom (c :: found) (index + part.seen + 1) none rest
      | .more part => decodeFrom found index (some part) rest
      | .refused => .error (.invalid part.seen index)

/-- The text of which the bytes are the encoding. -/
def decode (bytes : Bytes) : Except DecodeError Text :=
  decodeFrom [] 0 none bytes

/-- A stretch of bytes: a character, or bytes that belong to none. -/
inductive Chunk where
  | char (c : Char)
  | stray (bytes : Bytes)
  deriving DecidableEq, Repr

/-- The bytes as characters and stray parts, in order. `part` holds the bytes of the pending
character in reverse order. A refused byte after the beginning of a character is looked at again as
a first byte. -/
def chunksFrom (found : List Chunk) (part : Bytes) : Option Pending → Bytes → List Chunk
  | none, [] => found.reverse
  | some _, [] => (.stray part.reverse :: found).reverse
  | none, b :: rest =>
      match first b.toNat with
      | .complete c => chunksFrom (.char c :: found) [] none rest
      | .more pending => chunksFrom found [b] (some pending) rest
      | .refused => chunksFrom (.stray [b] :: found) [] none rest
  | some pending, b :: rest =>
      match pending.next b.toNat with
      | .complete c => chunksFrom (.char c :: found) [] none rest
      | .more pending => chunksFrom found (b :: part) (some pending) rest
      | .refused =>
          let found := .stray part.reverse :: found
          match first b.toNat with
          | .complete c => chunksFrom (.char c :: found) [] none rest
          | .more pending => chunksFrom found [b] (some pending) rest
          | .refused => chunksFrom (.stray [b] :: found) [] none rest

/-- The bytes as characters and maximal stray parts. -/
def chunks (bytes : Bytes) : List Chunk :=
  chunksFrom [] [] none bytes

/-- The character that stands for bytes that are not part of an encoding. -/
def replacement : Char := '\uFFFD'

/-- The text of the bytes in which every maximal part that belongs to no character is one
replacement character. -/
def decodeLossy (bytes : Bytes) : Text :=
  (chunks bytes).map fun
    | .char c => c
    | .stray _ => replacement

end QueryTidy.Utf8
