import QueryTidy.Proofs.Text.Decoding
import QueryTidy.Run.Content

/-!
# What becomes of the bytes of a file

The formatter is given the text whose encoding the bytes are. Bytes that are the encoding of no text
never reach it, whichever formatter it is, and the fault names the place behind the longest encoding
in front.
-/

namespace QueryTidy

/-- What becomes of a text that the formatter is asked for. -/
def Formatter.ask (formatter : Formatter) (path : Path) (text : Text) :
    Action (Except Fault Content) := do
  match ← formatter text with
  | .ok formatted => pure (.ok (Content.ofText formatted))
  | .error message => pure (.error (.parse path message))

variable {formatter : Formatter} {path : Path} {data : Bytes}

/-- Bytes that are decoded reach the formatter as the text. -/
theorem new_content_of_text {text : Text} (h : Utf8.decode data = .ok text) :
    newContent formatter path data = formatter.ask path text := by
  rw [newContent, h]
  rfl

/-- Bytes that are not decoded are a fault of the file, whatever the formatter is. -/
theorem new_content_of_error {e : Utf8.DecodeError} (h : Utf8.decode data = .error e) :
    newContent formatter path data =
      pure (.error (.parse path ("source is not valid UTF-8: ".toList ++ e.message))) := by
  rw [newContent, h]

/-- The formatter is asked for the text whose encoding the bytes are. When they are the encoding of
no text, it is not asked: the file has a fault that names the length of the longest encoding in
front, and says that the bytes behind it are incomplete when more bytes complete them to an
encoding, and otherwise how many of them are invalid. -/
theorem new_content_exact (formatter : Formatter) (path : Path) (data : Bytes) :
    (∀ text, data = Utf8.encode text → newContent formatter path data = formatter.ask path text) ∧
    ((∀ text, data ≠ Utf8.encode text) →
      ∃ front rest, data = front ++ rest ∧ Utf8.Longest Utf8.IsEncoding data front ∧
        (Utf8.Begins rest ∧ newContent formatter path data =
            pure (.error (.parse path ("source is not valid UTF-8: ".toList ++
              ("incomplete utf-8 byte sequence from index ".toList ++ Text.ofNat front.length)))) ∨
          ¬Utf8.Begins rest ∧ ∃ n, Utf8.IsFaultLength rest n ∧ newContent formatter path data =
            pure (.error (.parse path ("source is not valid UTF-8: ".toList ++
              ("invalid utf-8 sequence of ".toList ++ Text.ofNat n ++ " bytes from index ".toList ++
                Text.ofNat front.length)))))) := by
  constructor
  · intro text htext
    exact new_content_of_text (Utf8.decode_ok_iff.mpr htext)
  · intro hnone
    have hdata : ¬Utf8.IsEncoding data := by
      rintro ⟨text, htext⟩
      exact hnone text htext.symm
    obtain ⟨front, rest, hparts, hlongest, hfault⟩ := Utf8.decode_of_not_encoding hdata
    refine ⟨front, rest, hparts, hlongest, ?_⟩
    rcases hfault with ⟨hbegins, hdecode⟩ | ⟨hbegins, n, hlength, hdecode⟩
    · exact .inl ⟨hbegins, new_content_of_error hdecode⟩
    · exact .inr ⟨hbegins, n, hlength, new_content_of_error hdecode⟩

/-- A text with two bytes of a character of three bytes behind it. The formatter would crash, but is
not asked. -/
theorem cut_character_is_incomplete :
    let formatter : Formatter := fun _ => Action.crash
    let data : Bytes := [0x61, 0xE2, 0x82]
    (∀ text, data ≠ Utf8.encode text) ∧
      newContent formatter (Utf8.encode ['q']) data =
        pure (.error (.parse (Utf8.encode ['q'])
          "source is not valid UTF-8: incomplete utf-8 byte sequence from index 1".toList)) := by
  intro formatter data
  have hnone : ∀ text, data ≠ Utf8.encode text := by
    intro text htext
    cases Utf8.decode_ok_iff.mpr htext
  refine ⟨hnone, ?_⟩
  obtain ⟨front, rest, hparts, hlongest, hfault⟩ :=
    (new_content_exact formatter (Utf8.encode ['q']) data).2 hnone
  -- The longest encoding in front is the one of the letter.
  have hletter : 1 ≤ front.length := hlongest.longest [0x61] ⟨[0xE2, 0x82], rfl⟩ ⟨['a'], rfl⟩
  have hfront : front = [0x61] ∧ rest = [0xE2, 0x82] := by
    obtain ⟨text, htext⟩ := hlongest.holds
    have hdecode : Utf8.decode front = .ok text := Utf8.decode_ok_iff.mpr htext.symm
    have hbytes : [0x61, 0xE2, 0x82] = front ++ rest := hparts
    match front with
    | [_] =>
        cases hbytes
        exact ⟨rfl, rfl⟩
    | [_, _] =>
        cases hbytes
        cases hdecode
    | [_, _, _] =>
        cases hbytes
        cases hdecode
    | _ :: _ :: _ :: _ :: _ => cases hbytes
  obtain ⟨rfl, rfl⟩ := hfront
  rcases hfault with ⟨-, hrun⟩ | ⟨hbegins, -⟩
  · exact hrun
  · exact absurd ⟨[0xAC], ['€'], rfl⟩ hbegins

end QueryTidy
