import Mathlib.Data.List.Pairwise
import QueryTidy.Proofs.Query.Cutting
import QueryTidy.Query.Duration

/-!
# Durations in their units

The text of a duration is a list of counts with units (`Duration.partsOf`). The lexer cuts such a
text as one token (`scan_number_parts`), and reading it gives the whole milliseconds back as long as
every count fits 32 bits (`of_text_to_text`), which it does in a duration of less than `2 ^ 32`
seconds (`of_text_of_lt`).
-/

namespace QueryTidy.Duration

/-- The text of counts with units. -/
def spellParts : List (Nat × TimeUnit) → Text
  | [] => []
  | (n, u) :: parts => Text.ofNat n ++ u.symbol ++ spellParts parts

/-- The milliseconds of counts with units. -/
def totalOf : List (Nat × TimeUnit) → Nat
  | [] => 0
  | (n, u) :: parts => n * u.millis + totalOf parts

/-- The counts with units in which an amount of milliseconds is shown. -/
def partsOf : List TimeUnit → Nat → List (Nat × TimeUnit)
  | [], _ => []
  | unit :: units, rest =>
      if rest ≠ 0 ∧ unit.millis ≤ rest ∧ (unit.needsExact → rest % unit.millis = 0) then
        (rest / unit.millis, unit) :: partsOf units (rest % unit.millis)
      else partsOf units rest

/-- What is shown is the text of the parts. -/
theorem show_parts_eq (units : List TimeUnit) (n : Nat) :
    showParts units n = spellParts (partsOf units n) := by
  induction units generalizing n with
  | nil => rfl
  | cons unit units ih =>
      unfold showParts partsOf
      split
      · rw [ih]
        rfl
      · exact ih n

/-- The units of the parts are some of the given ones, in their order. -/
theorem parts_units_sublist (units : List TimeUnit) (n : Nat) :
    ((partsOf units n).map Prod.snd).Sublist units := by
  induction units generalizing n with
  | nil => exact .slnil
  | cons unit units ih =>
      unfold partsOf
      split
      · exact (ih _).cons_cons unit
      · exact (ih n).cons unit

/-- Every unit has a length. -/
theorem millis_pos (u : TimeUnit) : 0 < u.millis := by
  cases u <;> decide

/-- Nothing is shown of nothing. -/
theorem parts_of_zero (units : List TimeUnit) : partsOf units 0 = [] := by
  induction units with
  | nil => rfl
  | cons unit units ih => simp [partsOf, ih]

/-- The parts add up to the amount if milliseconds are among the units. -/
theorem total_parts_of {units : List TimeUnit} (h : TimeUnit.millisecond ∈ units) (n : Nat) :
    totalOf (partsOf units n) = n := by
  induction units generalizing n with
  | nil => cases h
  | cons unit units ih =>
      unfold partsOf
      split
      · rename_i htaken
        rcases List.mem_cons.1 h with rfl | hrest
        · have hone : TimeUnit.millis .millisecond = 1 := rfl
          rw [hone, Nat.mod_one, parts_of_zero, totalOf, totalOf, hone]
          omega
        · rw [totalOf, ih hrest, Nat.mul_comm, Nat.div_add_mod]
      · rename_i hleft
        rcases List.mem_cons.1 h with rfl | hrest
        · have hone : TimeUnit.millis .millisecond = 1 := rfl
          have hexact : TimeUnit.needsExact .millisecond = false := rfl
          have hzero : n = 0 := by
            by_contra hn
            exact hleft ⟨hn, by omega, by simp [hexact]⟩
          rw [hzero, parts_of_zero]
          rfl
        · exact ih hrest n

/-! ## Written parts -/

/-- The text of numbers in digits with units. -/
def writtenText : List (Text × TimeUnit) → Text
  | [] => []
  | (digits, u) :: parts => digits ++ u.symbol ++ writtenText parts

/-- Every number has digits. -/
def HaveDigits (parts : List (Text × TimeUnit)) : Prop :=
  ∀ part ∈ parts, part.1 ≠ [] ∧ ∀ c ∈ part.1, Text.isDigit c = true

instance (parts : List (Text × TimeUnit)) : Decidable (HaveDigits parts) :=
  decidable_of_iff (parts.all fun part => !part.1.isEmpty && part.1.all Text.isDigit)
    (by simp [HaveDigits])

/-- The parts of counts with units, in digits. -/
def inDigits (parts : List (Nat × TimeUnit)) : List (Text × TimeUnit) :=
  parts.map fun part => (Text.ofNat part.1, part.2)

/-- The text of counts with units is written in digits. -/
theorem spell_parts_eq (parts : List (Nat × TimeUnit)) :
    spellParts parts = writtenText (inDigits parts) := by
  induction parts with
  | nil => rfl
  | cons part parts ih =>
      rw [spellParts, ih]
      rfl

/-- The digits of counts are digits. -/
theorem in_digits_have_digits (parts : List (Nat × TimeUnit)) : HaveDigits (inDigits parts) := by
  intro part hpart
  obtain ⟨count, -, rfl⟩ := List.mem_map.1 hpart
  exact ⟨Text.of_nat_ne_nil _, fun c hc => Text.of_nat_digits hc⟩

/-- The parts after the first one have digits. -/
theorem HaveDigits.tail {part : Text × TimeUnit} {parts : List (Text × TimeUnit)}
    (h : HaveDigits (part :: parts)) : HaveDigits parts :=
  fun q hq => h q (List.mem_cons_of_mem _ hq)

/-- A text of parts begins with a digit. -/
theorem written_text_cons {part : Text × TimeUnit} {parts : List (Text × TimeUnit)}
    (h : HaveDigits (part :: parts)) :
    ∃ c tail, writtenText (part :: parts) = c :: tail ∧ Text.isDigit c = true := by
  obtain ⟨hne, hdigits⟩ := h part List.mem_cons_self
  obtain ⟨c, tail, hcons⟩ := List.exists_cons_of_ne_nil hne
  refine ⟨c, tail ++ part.2.symbol ++ writtenText parts, ?_,
    hdigits c (by rw [hcons]; exact List.mem_cons_self)⟩
  rw [writtenText, hcons]
  rfl

/-- A text has at least as many characters as parts. -/
theorem length_le_written_text {parts : List (Text × TimeUnit)} (h : HaveDigits parts) :
    parts.length ≤ (writtenText parts).length := by
  induction parts with
  | nil => simp
  | cons part parts ih =>
      have hpos := List.length_pos_iff.2 (h part List.mem_cons_self).1
      have hmore := ih h.tail
      simp only [writtenText, List.length_append, List.length_cons]
      omega

/-- A text has at least as many characters as counts. -/
theorem length_le_spell_parts (parts : List (Nat × TimeUnit)) :
    parts.length ≤ (spellParts parts).length := by
  have h := length_le_written_text (in_digits_have_digits parts)
  rwa [← spell_parts_eq, inDigits, List.length_map] at h

/-! ## Cutting -/

open Token

/-- What follows a unit is a further part or ends a word; it does not begin with an `s`. -/
theorem written_text_head {parts : List (Text × TimeUnit)} (h : HaveDigits parts) {rest : Text}
    (hrest : parts = [] → EndsName rest) :
    (writtenText parts ++ rest).head?.all fun c => !(c == 's') := by
  cases parts with
  | nil =>
      refine (hrest rfl).not_of fun c hc => ?_
      obtain rfl : c = 's' := by simpa using hc
      decide
  | cons part parts =>
      obtain ⟨c, tail, hcons, hc⟩ := written_text_cons h
      have hs : c ≠ 's' := by
        rintro rfl
        exact absurd hc (by decide)
      simp [hcons, hs]

/-- The letters of a unit are a letter that may begin one, and perhaps an `s`. -/
theorem take_unit (u : TimeUnit) {rest : Text} (hrest : rest.head?.all fun c => !(c == 's')) :
    ∃ c, u.symbol = c :: u.symbol.tail ∧ isFirstUnit c = true ∧
      (isUnit c = true ↔ u ≠ .year) ∧
      takeOne (· == 's') (u.symbol.tail ++ rest) = (u.symbol.tail, rest) := by
  have hnone := take_one_none hrest
  cases u
  case millisecond => exact ⟨'m', rfl, rfl, by decide, rfl⟩
  all_goals exact ⟨_, rfl, rfl, by decide, hnone⟩

/-- A further part is cut off with what comes after it; a year cannot be a further part. -/
theorem cut_parts_cons {digits : Text} (hne : digits ≠ [])
    (hdigits : ∀ c ∈ digits, Text.isDigit c = true) (u : TimeUnit) {after : Text}
    (hafter : after.head?.all fun c => !(c == 's')) (fuel : Nat) :
    cutParts (fuel + 1) (digits ++ u.symbol ++ after) =
      if u = .year then (false, digits, u.symbol ++ after)
      else
        let (complete, more, rest) := cutParts fuel after
        (complete, digits ++ u.symbol ++ more, rest) := by
  obtain ⟨c, hsymbol, -, hunit, hletters⟩ := take_unit u hafter
  have hnotdigit : Text.isDigit c = false := by
    cases u <;> cases hsymbol <;> rfl
  have htext : digits ++ u.symbol ++ after = digits ++ c :: (u.symbol.tail ++ after) := by
    rw [List.append_assoc, hsymbol]
    rfl
  obtain ⟨htake, hdrop⟩ := Text.take_run (c :: (u.symbol.tail ++ after)) hdigits
    (by simp [hnotdigit])
  rw [htext]
  conv_lhs => rw [cutParts]
  by_cases hyear : u = .year
  · have hc : isUnit c = false := by
      by_contra hc
      exact hunit.1 (by simpa using hc) hyear
    have hone : takeOne isUnit (c :: (u.symbol.tail ++ after)) =
        ([], c :: (u.symbol.tail ++ after)) := by simp [takeOne, hc]
    have hsymbol' : c :: (u.symbol.tail ++ after) = u.symbol ++ after := by
      conv_rhs => rw [hsymbol]
      rfl
    simp only [htake, hdrop, if_neg hne, hone, ↓reduceIte, if_pos hyear]
    rw [hsymbol']
  · have hone : takeOne isUnit (c :: (u.symbol.tail ++ after)) =
        ([c], u.symbol.tail ++ after) := by simp [takeOne, hunit.2 hyear]
    have hparts : digits ++ [c] ++ u.symbol.tail = digits ++ u.symbol := by
      conv_rhs => rw [hsymbol]
      simp
    simp only [htake, hdrop, if_neg hne, hone, List.cons_ne_nil, ↓reduceIte, hletters,
      if_neg hyear, hparts]

/-- Further parts without years are cut off whole. -/
theorem cut_parts_written {parts : List (Text × TimeUnit)} {rest : Text} {fuel : Nat}
    (h : HaveDigits parts) (hyear : ∀ part ∈ parts, part.2 ≠ .year) (hrest : EndsName rest)
    (hfuel : parts.length ≤ fuel) :
    cutParts fuel (writtenText parts ++ rest) = (true, writtenText parts, rest) := by
  induction parts generalizing fuel with
  | nil =>
      cases fuel with
      | zero => rfl
      | succ fuel =>
          have hdigit : rest.head?.all fun c => !Text.isDigit c :=
            hrest.not_of fun c hc => by simp [Text.isNameRest, hc]
          obtain ⟨htake, -⟩ := Text.take_run rest (List.forall_mem_nil _) hdigit
          rw [List.nil_append] at htake
          simp only [writtenText, List.nil_append, cutParts, htake, ↓reduceIte]
  | cons part parts ih =>
      obtain ⟨digits, u⟩ := part
      obtain ⟨hne, hdigits⟩ := h _ List.mem_cons_self
      cases fuel with
      | zero => simp at hfuel
      | succ fuel =>
          rw [List.length_cons] at hfuel
          have hmore := ih h.tail (fun q hq => hyear q (List.mem_cons_of_mem _ hq))
            (by omega : _ ≤ fuel)
          rw [writtenText, List.append_assoc,
            cut_parts_cons hne hdigits u (written_text_head h.tail fun _ => hrest),
            if_neg (hyear _ List.mem_cons_self)]
          simp only [hmore]

/-- Further parts with a year among them are no complete duration. -/
theorem cut_parts_year {parts : List (Text × TimeUnit)} {rest : Text} {fuel : Nat}
    (h : HaveDigits parts) (hyear : ∃ part ∈ parts, part.2 = .year) (hfuel : parts.length ≤ fuel) :
    (cutParts fuel (writtenText parts ++ rest)).1 = false := by
  induction parts generalizing fuel with
  | nil =>
      obtain ⟨part, hpart, -⟩ := hyear
      cases hpart
  | cons part parts ih =>
      obtain ⟨digits, u⟩ := part
      obtain ⟨hne, hdigits⟩ := h _ List.mem_cons_self
      cases fuel with
      | zero => simp at hfuel
      | succ fuel =>
          rw [List.length_cons] at hfuel
          by_cases hu : u = .year
          · subst hu
            obtain ⟨htake, hdrop⟩ :=
              Text.take_run (TimeUnit.year.symbol ++ (writtenText parts ++ rest))
              hdigits rfl
            have htext : writtenText ((digits, .year) :: parts) ++ rest =
                digits ++ (TimeUnit.year.symbol ++ (writtenText parts ++ rest)) := by
              simp [writtenText]
            rw [htext]
            unfold cutParts
            simp only [htake, hdrop, if_neg hne]
            rfl
          · have hyear' : ∃ part ∈ parts, part.2 = .year := by
              obtain ⟨q, hq, hqyear⟩ := hyear
              rcases List.mem_cons.1 hq with rfl | hq
              · exact absurd hqyear hu
              · exact ⟨q, hq, hqyear⟩
            have hnil : parts ≠ [] := by
              rintro rfl
              obtain ⟨q, hq, -⟩ := hyear'
              cases hq
            have hmore := ih h.tail hyear' (by omega : _ ≤ fuel)
            rw [writtenText, List.append_assoc,
              cut_parts_cons hne hdigits u (written_text_head h.tail fun h => absurd h hnil),
              if_neg hu]
            exact hmore

/-- The first part of a duration is cut off with the further parts, if these are complete and no
word goes on after them. -/
theorem scan_number_cons {digits : Text} (hdigits : ∀ c ∈ digits, Text.isDigit c = true)
    (u : TimeUnit) {after : Text} (hafter : after.head?.all fun c => !(c == 's')) :
    scanNumber (digits ++ u.symbol ++ after) =
      let (complete, more, rest) := cutParts (after.length + 1) after
      if complete && rest.head?.all fun c => !Text.isNameRest c then
        .ok (.duration (digits ++ u.symbol ++ more), rest)
      else .error (.badNumber (digits ++ u.symbol ++ more ++ rest.take 1)) := by
  obtain ⟨c, hsymbol, hunit, -, hletters⟩ := take_unit u hafter
  have htext : digits ++ u.symbol ++ after = digits ++ c :: (u.symbol.tail ++ after) := by
    rw [List.append_assoc, hsymbol]
    rfl
  have hletter : continuesWhole c = false ∧ ((c == '.' || c == 'e' || c == 'E') = false) ∧
      Text.isNameStart c = true := by
    cases u <;> cases hsymbol <;> decide
  have hcut : cutNumber (digits ++ c :: (u.symbol.tail ++ after)) =
      (digits, c :: (u.symbol.tail ++ after)) := by
    rw [cut_number_whole hdigits (by simp [hletter.1]),
      cut_places_none (by
        rw [List.head?_cons, Option.all_some, hletter.2.1]
        rfl), List.append_nil]
  have hone : takeOne isFirstUnit (c :: (u.symbol.tail ++ after)) =
      ([c], u.symbol.tail ++ after) := by
    simp [takeOne, hunit]
  have hparts : digits ++ [c] ++ u.symbol.tail = digits ++ u.symbol := by
    conv_rhs => rw [hsymbol]
    simp
  rw [htext]
  unfold scanNumber
  simp only [hcut, List.head?_cons, Option.all_some, hletter.2.2, Bool.true_or, Bool.not_true,
    Bool.false_eq_true, ↓reduceIte, hone, List.cons_ne_nil, hletters, hparts]

/-- The text of parts is cut as one duration if no further part is a year. -/
theorem scan_number_written {part : Text × TimeUnit} {parts : List (Text × TimeUnit)} {rest : Text}
    (h : HaveDigits (part :: parts)) (hyear : ∀ part ∈ parts, part.2 ≠ .year)
    (hrest : EndsName rest) :
    scanNumber (writtenText (part :: parts) ++ rest) =
      .ok (.duration (writtenText (part :: parts)), rest) := by
  obtain ⟨digits, u⟩ := part
  have hdigits := (h _ List.mem_cons_self).2
  have hlength := length_le_written_text h.tail
  have hmore : cutParts ((writtenText parts ++ rest).length + 1) (writtenText parts ++ rest) = _ :=
    cut_parts_written h.tail hyear hrest (by rw [List.length_append]; omega)
  have hend : rest.head?.all fun c => !Text.isNameRest c := hrest
  rw [writtenText, List.append_assoc,
    scan_number_cons hdigits u (written_text_head h.tail fun _ => hrest)]
  simp only [hmore, hend, Bool.and_self, ↓reduceIte]

/-- If the text of parts is cut as one token, no further part is a year. -/
theorem no_further_year {part : Text × TimeUnit} {parts : List (Text × TimeUnit)} {rest : Text}
    {cut : Token × Text} (h : HaveDigits (part :: parts))
    (hscan : scanNumber (writtenText (part :: parts) ++ rest) = .ok cut) :
    ∀ part ∈ parts, part.2 ≠ .year := by
  obtain ⟨digits, u⟩ := part
  have hdigits := (h _ List.mem_cons_self).2
  intro q hq hyear
  have hlength := length_le_written_text h.tail
  have hincomplete : (cutParts ((writtenText parts ++ rest).length + 1)
      (writtenText parts ++ rest)).1 = false :=
    cut_parts_year h.tail ⟨q, hq, hyear⟩ (by rw [List.length_append]; omega)
  rw [writtenText, List.append_assoc, scan_number_cons hdigits u
    (written_text_head h.tail fun hnil => absurd hq (by simp [hnil]))] at hscan
  simp only [hincomplete, Bool.false_and, Bool.false_eq_true, ↓reduceIte] at hscan
  cases hscan

/-- The text of counts with units is cut as one duration. -/
theorem scan_number_parts {n : Nat} {u : TimeUnit} {parts : List (Nat × TimeUnit)} {rest : Text}
    (hyear : ∀ part ∈ parts, part.2 ≠ .year) (hrest : EndsName rest) :
    scanNumber (spellParts ((n, u) :: parts) ++ rest) =
      .ok (.duration (spellParts ((n, u) :: parts)), rest) := by
  rw [spell_parts_eq]
  refine scan_number_written (in_digits_have_digits ((n, u) :: parts)) (fun q hq => ?_) hrest
  obtain ⟨part, hpart, rfl⟩ := List.mem_map.1 hq
  exact hyear part hpart

/-! ## Reading -/

/-- The milliseconds that are read from numbers with units, of which too large ones do not count. -/
def readTotal : List (Text × TimeUnit) → Nat
  | [] => 0
  | (digits, u) :: parts => partCount digits * u.millis + readTotal parts

/-- The letters of a unit are no digits. -/
theorem symbol_not_digit (u : TimeUnit) : ∀ c ∈ u.symbol, (!Text.isDigit c) = true :=
  List.all_eq_true.1 (by cases u <;> rfl)

/-- Different units have different letters. -/
theorem symbol_inj {u v : TimeUnit} (h : u.symbol = v.symbol) : u = v := by
  cases u <;> cases v <;> first | rfl | exact absurd h (by decide)

/-- The digits of the first number, then the letters of its unit, are taken from a text of parts. -/
theorem take_part {digits : Text} {u : TimeUnit} {parts : List (Text × TimeUnit)}
    (h : HaveDigits ((digits, u) :: parts)) :
    let text := writtenText ((digits, u) :: parts)
    text.takeWhile Text.isDigit = digits ∧
      (text.dropWhile Text.isDigit).takeWhile (fun c => !Text.isDigit c) = u.symbol ∧
      (text.dropWhile Text.isDigit).dropWhile (fun c => !Text.isDigit c) = writtenText parts := by
  have hdigits := (h _ List.mem_cons_self).2
  have htext : writtenText ((digits, u) :: parts) = digits ++ (u.symbol ++ writtenText parts) := by
    rw [writtenText, List.append_assoc]
  have hletter : (u.symbol ++ writtenText parts).head?.all fun c => !Text.isDigit c := by
    cases u <;> rfl
  have hdigit : (writtenText parts).head?.all fun c => !!Text.isDigit c := by
    cases parts with
    | nil => rfl
    | cons part parts =>
        obtain ⟨c, tail, hcons, hc⟩ := written_text_cons h.tail
        simp [hcons, hc]
  obtain ⟨htake, hdrop⟩ := Text.take_run (u.symbol ++ writtenText parts) hdigits hletter
  obtain ⟨htake', hdrop'⟩ := Text.take_run (p := fun c => !Text.isDigit c) (writtenText parts)
    (symbol_not_digit u) hdigit
  dsimp only
  rw [htext, htake, hdrop]
  exact ⟨rfl, htake', hdrop'⟩

/-- The text of parts determines the parts. -/
theorem written_text_inj {parts parts' : List (Text × TimeUnit)} (h : HaveDigits parts)
    (h' : HaveDigits parts') (htext : writtenText parts = writtenText parts') : parts = parts' := by
  induction parts generalizing parts' with
  | nil =>
      cases parts' with
      | nil => rfl
      | cons part parts' =>
          obtain ⟨c, tail, hcons, -⟩ := written_text_cons h'
          rw [hcons] at htext
          cases htext
  | cons part parts ih =>
      cases parts' with
      | nil =>
          obtain ⟨c, tail, hcons, -⟩ := written_text_cons h
          rw [hcons] at htext
          cases htext
      | cons part' parts' =>
          obtain ⟨hdigits, hsymbol, hmore⟩ := take_part h
          obtain ⟨hdigits', hsymbol', hmore'⟩ := take_part h'
          rw [htext] at hdigits hsymbol hmore
          have hfirst : part = part' :=
            Prod.ext (hdigits.symm.trans hdigits') (symbol_inj (hsymbol.symm.trans hsymbol'))
          rw [hfirst, ih h.tail h'.tail (hmore.symm.trans hmore')]

/-- A first part is read if its unit is the next one; otherwise the unit is passed over. -/
theorem read_parts_cons {digits : Text} {u : TimeUnit} {parts : List (Text × TimeUnit)}
    (h : HaveDigits ((digits, u) :: parts)) (unit : TimeUnit) (units : List TimeUnit) :
    readParts (unit :: units) (writtenText ((digits, u) :: parts)) =
      if u = unit then
        (readParts units (writtenText parts)).map (partCount digits * unit.millis + ·)
      else readParts units (writtenText ((digits, u) :: parts)) := by
  have hne := (h _ List.mem_cons_self).1
  obtain ⟨hdigits, hsymbol, hmore⟩ := take_part h
  conv_lhs => unfold readParts
  simp only [hdigits, hsymbol, hmore]
  by_cases hu : u = unit
  · rw [if_pos ⟨hne, congrArg _ hu⟩, if_pos hu]
  · rw [if_neg fun heq => hu (symbol_inj heq.2), if_neg hu]

/-- Parts in the order of the units are read as their numbers. -/
theorem read_written {units : List TimeUnit} {parts : List (Text × TimeUnit)}
    (hd : HaveDigits parts)
    (hnodup : units.Nodup) (h : (parts.map Prod.snd).Sublist units) :
    readParts units (writtenText parts) = some (readTotal parts) := by
  induction units generalizing parts with
  | nil =>
      have hnil : parts = [] := by simpa using h
      rw [hnil]
      rfl
  | cons unit units ih =>
      obtain ⟨hfresh, hnodup'⟩ := List.nodup_cons.1 hnodup
      cases parts with
      | nil => exact ih hd hnodup' (List.nil_sublist units)
      | cons part parts =>
          obtain ⟨digits, u⟩ := part
          rw [read_parts_cons hd]
          split
          · rename_i hu
            subst hu
            have hrest : (parts.map Prod.snd).Sublist units := by simpa using h
            rw [ih hd.tail hnodup' hrest]
            rfl
          · rename_i hu
            refine ih hd hnodup' ?_
            rw [List.map_cons] at h ⊢
            cases h with
            | cons _ hsub => exact hsub
            | cons_cons _ _ => exact absurd rfl hu

/-- What is read from parts, in whatever order, is the total of their numbers. -/
theorem read_written_total {units : List TimeUnit} {parts : List (Text × TimeUnit)} {n : Nat}
    (hd : HaveDigits parts) (h : readParts units (writtenText parts) = some n) :
    n = readTotal parts := by
  induction units generalizing parts n with
  | nil =>
      cases parts with
      | nil => exact (Option.some.inj h).symm
      | cons part parts =>
          obtain ⟨c, tail, hcons, -⟩ := written_text_cons hd
          rw [hcons] at h
          cases h
  | cons unit units ih =>
      cases parts with
      | nil => exact ih hd h
      | cons part parts =>
          obtain ⟨digits, u⟩ := part
          rw [read_parts_cons hd] at h
          split at h
          · rename_i hu
            obtain ⟨m, hm, rfl⟩ := Option.map_eq_some_iff.1 h
            rw [ih hd.tail hm, readTotal, hu]
          · exact ih hd h

/-- Counts in the order of the units are read. -/
theorem read_spell_parts {units : List TimeUnit} {parts : List (Nat × TimeUnit)}
    (hnodup : units.Nodup) (h : (parts.map Prod.snd).Sublist units) :
    readParts units (spellParts parts) = some (readTotal (inDigits parts)) := by
  rw [spell_parts_eq]
  refine read_written (in_digits_have_digits parts) hnodup ?_
  rwa [inDigits, List.map_map]

/-- A count that fits 32 bits is read as it is. -/
theorem part_count_of_lt {n : Nat} (h : n < 2 ^ 32) : partCount (Text.ofNat n) = n := by
  unfold partCount
  rw [Text.to_nat_of_nat, if_pos h]

/-- Counts that fit 32 bits are read as they are. -/
theorem read_total_eq {parts : List (Nat × TimeUnit)} (h : ∀ part ∈ parts, part.1 < 2 ^ 32) :
    readTotal (inDigits parts) = totalOf parts := by
  induction parts with
  | nil => rfl
  | cons part parts ih =>
      have hmore := ih fun q hq => h q (List.mem_cons_of_mem _ hq)
      show partCount (Text.ofNat part.1) * part.2.millis + readTotal (inDigits parts) = _
      rw [totalOf, part_count_of_lt (h part List.mem_cons_self), hmore]

/-- All units are there, each once, and each is longer than the next one. -/
theorem all_units :
    TimeUnit.all.Nodup ∧ TimeUnit.millisecond ∈ TimeUnit.all ∧
      TimeUnit.all.Pairwise (fun u v => v.millis < u.millis) := by
  decide

/-- The parts of a duration. -/
def parts (d : Duration) : List (Nat × TimeUnit) :=
  partsOf TimeUnit.all d.millis

/-- The text of a duration that is not zero is that of its parts. -/
theorem to_text_eq {d : Duration} (h : d.nanos ≠ 0) : d.toText = spellParts d.parts := by
  rw [toText, if_neg h, show_parts_eq, parts]

/-- The text of a duration of at least a millisecond denotes its whole milliseconds if its counts
fit 32 bits. -/
theorem of_text_to_text {d : Duration} (hd : 0 < d.millis)
    (h : ∀ part ∈ d.parts, part.1 < 2 ^ 32) : ofText d.toText = .ok (ofMillis d.millis) := by
  have hnanos : d.nanos ≠ 0 := by
    rintro hzero
    simp [millis, hzero] at hd
  have hread : readParts TimeUnit.all d.toText = some d.millis := by
    have hsub : (d.parts.map Prod.snd).Sublist TimeUnit.all :=
      parts_units_sublist TimeUnit.all d.millis
    rw [to_text_eq hnanos, read_spell_parts all_units.1 hsub, read_total_eq h, parts,
      total_parts_of all_units.2.1]
  obtain ⟨n, hn⟩ : ∃ n, d.millis = n + 1 := ⟨d.millis - 1, by omega⟩
  simp only [ofText, hread, hn]

/-- In less than `2 ^ 32` days every count fits 32 bits. -/
theorem parts_of_lt {units : List TimeUnit} {n : Nat}
    (hsorted : units.Pairwise (fun u v => v.millis < u.millis))
    (hn : n < 2 ^ 32 * TimeUnit.day.millis)
    (hdays : TimeUnit.day ∉ units → n < TimeUnit.day.millis) :
    ∀ part ∈ partsOf units n, part.1 < 2 ^ 32 := by
  have hday : TimeUnit.day.millis = 86400000 := rfl
  induction units generalizing n with
  | nil => simp [partsOf]
  | cons unit units ih =>
      obtain ⟨hless, hsorted'⟩ := List.pairwise_cons.1 hsorted
      have hcount : n / unit.millis < 2 ^ 32 := by
        by_cases hlong : TimeUnit.day.millis ≤ unit.millis
        · rw [Nat.div_lt_iff_lt_mul (millis_pos unit)]
          exact lt_of_lt_of_le hn (Nat.mul_le_mul_left _ hlong)
        · -- Units shorter than a day come last, when the days have been taken out.
          have hn' := hdays fun h => by
            rcases List.mem_cons.1 h with h | h
            · exact hlong (by rw [h])
            · exact hlong (hless _ h).le
          exact lt_of_le_of_lt (Nat.div_le_self _ _) (by omega)
      unfold partsOf
      split
      · intro part hpart
        rcases List.mem_cons.1 hpart with rfl | hrest
        · exact hcount
        · refine ih hsorted' (lt_of_le_of_lt (Nat.mod_le _ _) hn) (fun h => ?_) part hrest
          by_cases hunit : unit = .day
          · rw [hunit]
            exact Nat.mod_lt _ (millis_pos _)
          · refine lt_of_le_of_lt (Nat.mod_le _ _) (hdays fun hmem => ?_)
            rcases List.mem_cons.1 hmem with h' | h'
            · exact hunit h'.symm
            · exact h h'
      · rename_i hleft
        refine ih hsorted' hn fun h => ?_
        by_cases hunit : unit = .day
        · by_contra hmore
          have hexact : TimeUnit.needsExact .day = false := rfl
          exact hleft ⟨by omega, by rw [hunit]; omega, by simp [hunit, hexact]⟩
        · refine hdays fun hmem => ?_
          rcases List.mem_cons.1 hmem with h' | h'
          · exact hunit h'.symm
          · exact h h'

/-- The text of a duration of at least a millisecond and less than `2 ^ 32` seconds denotes its
whole milliseconds. -/
theorem of_text_of_lt {d : Duration} (hd : 0 < d.millis) (hless : d.nanos < 2 ^ 32 * 1000000000) :
    ofText d.toText = .ok (ofMillis d.millis) := by
  refine of_text_to_text hd (parts_of_lt all_units.2.2 ?_ ?_)
  · have hday : TimeUnit.day.millis = 86400000 := rfl
    unfold millis
    omega
  · exact fun h => absurd (by decide) h

/-- The text of a duration of at least a millisecond is one token. -/
theorem scan_number_duration {d : Duration} (hd : 0 < d.millis) {rest : Text}
    (hrest : Token.EndsName rest) :
    Token.scanNumber (d.toText ++ rest) = .ok (.duration d.toText, rest) ∧
      ∃ c tail, d.toText = c :: tail ∧ Text.isDigit c = true := by
  have hnanos : d.nanos ≠ 0 := by
    rintro hzero
    simp [millis, hzero] at hd
  rw [to_text_eq hnanos]
  cases hparts : d.parts with
  | nil =>
      have htotal := total_parts_of all_units.2.1 d.millis
      rw [← parts, hparts, totalOf] at htotal
      omega
  | cons part rest' =>
      obtain ⟨n, u⟩ := part
      refine ⟨scan_number_parts (fun q hq hyear => ?_) hrest, ?_⟩
      · -- The years stand first.
        have hsub := parts_units_sublist TimeUnit.all d.millis
        rw [← parts, hparts, List.map_cons] at hsub
        have hsorted := List.Pairwise.sublist hsub all_units.2.2
        have hless := (List.pairwise_cons.1 hsorted).1 q.2 (List.mem_map_of_mem hq)
        rw [hyear] at hless
        have hmost : u.millis ≤ TimeUnit.millis .year := by cases u <;> decide
        exact absurd hless (not_lt.2 hmost)
      · obtain ⟨c, tail, hcons⟩ := List.exists_cons_of_ne_nil (Text.of_nat_ne_nil n)
        exact ⟨c, tail ++ u.symbol ++ spellParts rest', by rw [spellParts, hcons]; rfl,
          Text.of_nat_digits (n := n) (by rw [hcons]; exact List.mem_cons_self)⟩

end QueryTidy.Duration
