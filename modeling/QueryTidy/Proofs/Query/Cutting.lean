import QueryTidy.Proofs.Number.Display
import QueryTidy.Query.Lexer

/-!
# Cutting texts that were put together

`Token.Cuts` relates the state of the lexer and a text to the tokens at the beginning of the text,
the state after them and the rest. It is built from single steps, so that what is known of two texts
is known of their concatenation. The lemmas below say what one step does at the beginning of each
kind of token, whatever follows, provided that it does not continue the token.
-/

namespace QueryTidy.Token

/-- The lexer cuts tokens from the beginning of a text and leaves a state and a rest. -/
inductive Cuts : LexState → Text → List Token → LexState → Text → Prop where
  | done (s : LexState) (t : Text) : Cuts s t [] s t
  | next {s s' s'' : LexState} {t t' t'' : Text} {token : Token} {tokens : List Token} :
      step s t = .emit token s' t' → Cuts s' t' tokens s'' t'' →
        Cuts s t (token :: tokens) s'' t''

variable {s s' s'' : LexState} {t t' t'' : Text} {token : Token} {tokens tokens' : List Token}

/-- One step cuts one token. -/
theorem Cuts.one (h : step s t = .emit token s' t') : Cuts s t [token] s' t' :=
  .next h (.done _ _)

/-- After some tokens further ones are cut. -/
theorem Cuts.append (h : Cuts s t tokens s' t') (h' : Cuts s' t' tokens' s'' t'') :
    Cuts s t (tokens ++ tokens') s'' t'' := by
  induction h with
  | done s t => exact h'
  | next hstep _ ih => exact .next hstep (ih h')

/-! ## Whole texts -/

/-- With enough fuel, what is cut from a text that then ends is what the lexer yields. -/
theorem Cuts.scan_from {fuel : Nat} (h : Cuts s t tokens s' t') (hstop : step s' t' = .stop)
    (hfuel : tokens.length < fuel) : scanFrom fuel s t = .ok tokens := by
  induction h generalizing fuel with
  | done s t =>
      cases fuel with
      | zero => omega
      | succ fuel => simp only [scanFrom, hstop]
  | next hstep _ ih =>
      cases fuel with
      | zero => omega
      | succ fuel =>
          rw [List.length_cons] at hfuel
          simp only [scanFrom, hstep, ih hstop (Nat.lt_of_succ_lt_succ hfuel)]

/-! ## Blank space -/

/-- The characters of blank space. -/
theorem is_space_cases {c : Char} (h : isSpace c = true) :
    c = ' ' ∨ c = '\t' ∨ c = '\n' ∨ c = '\x0c' ∨ c = '\r' := by
  simpa [isSpace, or_assoc] using h

/-- A character that passes a test which blank space and the comment sign fail. -/
theorem not_blank_of {p : Char → Bool} {c : Char} (hc : p c = true)
    (hp : [' ', '\t', '\n', '\x0c', '\r', '#'].all fun d => !p d) :
    isSpace c = false ∧ c ≠ '#' := by
  simp only [List.all_cons, List.all_nil, Bool.and_true, Bool.and_eq_true,
    Bool.not_eq_true'] at hp
  obtain ⟨h1, h2, h3, h4, h5, h6⟩ := hp
  constructor
  · by_contra hspace
    rcases is_space_cases (by simpa using hspace) with rfl | rfl | rfl | rfl | rfl <;> simp_all
  · rintro rfl
    simp_all

/-- Nothing is dropped before a character that is neither blank space nor the comment sign. -/
theorem drop_blank_cons {c : Char} (h : isSpace c = false ∧ c ≠ '#') (rest : Text) :
    dropBlank false (c :: rest) = c :: rest := by
  simp [dropBlank, h.1, h.2]

/-- Blank space in front is dropped. -/
theorem drop_blank_append {blank : Text} (h : ∀ c ∈ blank, isSpace c = true) (rest : Text) :
    dropBlank false (blank ++ rest) = dropBlank false rest := by
  induction blank with
  | nil => rfl
  | cons c blank ih =>
      have hc := h c List.mem_cons_self
      rw [List.cons_append, dropBlank, if_neg (by simp), if_pos hc,
        ih fun d hd => h d (List.mem_cons_of_mem _ hd)]

/-- The mode is one in which comments are known: the plain one or that between braces. -/
def KnowsComments (s : LexState) : Prop :=
  s.mode = .plain ∨ s.mode = .braces

/-- A space is blank space. -/
theorem blank_space : ∀ c ∈ [' '], isSpace c = true :=
  List.forall_mem_singleton.2 rfl

/-- A line end is blank space. -/
theorem blank_line : ∀ c ∈ ['\n'], isSpace c = true :=
  List.forall_mem_singleton.2 rfl

/-- Blank space in front of tokens does not count, except between brackets. -/
theorem Cuts.blank (blank : Text) (hs : KnowsComments s) (hblank : ∀ c ∈ blank, isSpace c = true)
    (h : Cuts s t (token :: tokens) s' t') : Cuts s (blank ++ t) (token :: tokens) s' t' := by
  cases h with
  | next hstep hrest =>
      refine .next ?_ hrest
      obtain ⟨depth, mode⟩ := s
      rcases hs with hmode | hmode
      all_goals
        obtain rfl : mode = _ := hmode
        simp only [step] at hstep ⊢
        rwa [drop_blank_append hblank]

/-! ## Words -/

/-- The character does not continue a word or a number. -/
def endsWord (c : Char) : Bool :=
  !isWordRest c && c != '.'

/-- The text does not continue a word or a number before it. -/
def Ends (rest : Text) : Prop :=
  rest.head?.all endsWord = true

/-- A character that begins a word outside braces. -/
def isWordStart (c : Char) : Bool :=
  Text.isNameStart c || c == ':'

/-- A word outside braces: letters, digits, underscores and colons, no digit first. -/
structure IsWord (word : Text) : Prop where
  start : word.head?.any isWordStart = true
  all : ∀ c ∈ word, isWordRest c = true

/-- A name: a word without colons. -/
structure IsName (name : Text) : Prop where
  start : name.head?.any Text.isNameStart = true
  all : ∀ c ∈ name, Text.isNameRest c = true

/-- A name is a word. -/
theorem IsName.is_word {name : Text} (h : IsName name) : IsWord name where
  start := by
    cases name with
    | nil => simpa using h.start
    | cons c rest =>
        have hc : Text.isNameStart c = true := by simpa using h.start
        simp [isWordStart, hc]
  all c hc := by simp [isWordRest, h.all c hc]

/-- The first character of a word is no digit. -/
theorem not_digit_of_start {c : Char} (h : isWordStart c = true) :
    Text.isDigit c = false := by
  by_contra hdigit
  rw [Bool.not_eq_false] at hdigit
  simp only [isWordStart, Text.isNameStart, Text.isLetter, Text.isDigit, Bool.or_eq_true,
    Bool.and_eq_true, decide_eq_true_eq, beq_iff_eq, Char.le_def,
    UInt32.le_iff_toNat_le] at h hdigit
  have h0 : '0'.val.toNat = 48 := rfl
  have h9 : '9'.val.toNat = 57 := rfl
  have ha : 'a'.val.toNat = 97 := rfl
  have hA : 'A'.val.toNat = 65 := rfl
  rcases h with ((h | h) | rfl) | rfl
  · omega
  · omega
  · exact absurd hdigit (by decide)
  · exact absurd hdigit (by decide)

/-- What ends a word or a number does not continue a word. -/
theorem Ends.word_rest {rest : Text} (h : Ends rest) : rest.head?.all (fun c => !isWordRest c) := by
  cases rest with
  | nil => rfl
  | cons c rest =>
      have hc : isWordRest c = false ∧ c ≠ '.' := by simpa [Ends, endsWord] using h
      simp [hc.1]

/-- A word is cut whole. -/
theorem step_word {depth : Nat} {word rest : Text} (hword : IsWord word) (hrest : Ends rest) :
    step ⟨depth, .plain⟩ (word ++ rest) = .emit (ofWord word) ⟨depth, .plain⟩ rest := by
  cases word with
  | nil => simpa using hword.start
  | cons c tail =>
      have hc : isWordStart c = true := by simpa using hword.start
      have hblank := not_blank_of hc (by decide)
      have hc' : Text.isNameStart c = true ∨ c = ':' := by simpa [isWordStart] using hc
      obtain ⟨htake, hdrop⟩ := Text.take_run rest hword.all hrest.word_rest
      rw [List.cons_append] at htake hdrop
      simp only [step, List.cons_append, drop_blank_cons hblank, plainStep,
        not_digit_of_start hc, Bool.false_eq_true, ↓reduceIte, if_pos hc', htake, hdrop]

/-- A name between braces is cut whole, but for an `or` before a space. -/
theorem step_label {depth : Nat} {name rest : Text} (hname : IsName name)
    (hrest : rest.head?.all fun c => !Text.isNameRest c) (hspace : rest.head? ≠ some ' ') :
    step ⟨depth, .braces⟩ (name ++ rest) = .emit (.identifier name) ⟨depth, .braces⟩ rest := by
  cases name with
  | nil => simpa using hname.start
  | cons c tail =>
      have hc : Text.isNameStart c = true := by simpa using hname.start
      have hblank := not_blank_of hc (by decide)
      obtain ⟨htake, hdrop⟩ := Text.take_run rest hname.all hrest
      rw [List.cons_append] at htake hdrop
      simp only [step, List.cons_append, drop_blank_cons hblank, braceStep, hc, ↓reduceIte, htake,
        hdrop]
      rw [if_neg fun h => hspace h.2]

/-- The word between alternatives is cut before a space. -/
theorem step_alternative (depth : Nat) (rest : Text) :
    step ⟨depth, .braces⟩ ("or".toList ++ ' ' :: rest) =
      .emit .alternative ⟨depth, .braces⟩ (' ' :: rest) := by
  rfl

/-! ## Strings -/

/-- The raw text of a string literal can stand between double quotes. -/
def Quotable (raw : Text) : Prop :=
  scanString '"' [] (raw ++ ['"']) = .ok (raw, [])

instance (raw : Text) : Decidable (Quotable raw) :=
  inferInstanceAs (Decidable (_ = _))

/-- A character other than a backslash ends a string literal or belongs to it. -/
theorem scan_string_cons {quote c : Char} (hc : c ≠ '\\') (found rest : Text) :
    scanString quote found (c :: rest) =
      if c = quote then .ok (found.reverse, rest) else scanString quote (c :: found) rest := by
  rw [scanString]
  · exact fun h => absurd h hc
  · exact fun _ _ h => absurd h hc

/-- A string literal that is read ends at its quote, and neither what was found before nor what
stands after the quote has an influence on it. -/
theorem scan_string_body {quote : Char} {found raw t rest : Text} (hquote : quote ≠ '\\')
    (h : scanString quote found t = .ok (raw, rest)) :
    ∃ body, raw = found.reverse ++ body ∧ t = body ++ quote :: rest ∧
      ∀ found' after : Text,
        scanString quote found' (body ++ quote :: after) = .ok (found'.reverse ++ body, after) := by
  induction found, t using scanString.induct quote with
  | case1 => simp [scanString] at h
  | case2 => simp [scanString] at h
  | case3 found c t hc ih =>
      rw [scanString, if_pos hc] at h
      obtain ⟨body, hraw, ht, hframe⟩ := ih h
      refine ⟨'\\' :: c :: body, ?_, ?_, fun found' after => ?_⟩
      · rw [hraw]
        simp
      · rw [ht]
        rfl
      · rw [List.cons_append, List.cons_append, scanString, if_pos hc, hframe]
        simp
  | case4 found c t hc =>
      rw [scanString, if_neg hc] at h
      cases h
  | case5 found t _ _ =>
      rw [scan_string_cons hquote, if_pos rfl] at h
      cases h
      refine ⟨[], by simp, rfl, fun found' after => ?_⟩
      rw [List.nil_append, scan_string_cons hquote, if_pos rfl, List.append_nil]
  | case6 found c t hlast hmore hc ih =>
      have hbackslash : c ≠ '\\' := by
        intro hc'
        cases t with
        | nil => exact hlast hc' rfl
        | cons d t => exact hmore d t hc' rfl
      rw [scan_string_cons hbackslash, if_neg hc] at h
      obtain ⟨body, hraw, ht, hframe⟩ := ih h
      refine ⟨c :: body, ?_, ?_, fun found' after => ?_⟩
      · rw [hraw]
        simp
      · rw [ht]
        rfl
      · rw [List.cons_append, scan_string_cons hbackslash, if_neg hc, hframe]
        simp

/-- A text that can stand between double quotes is read there, whatever follows. -/
theorem Quotable.scan {raw : Text} (h : Quotable raw) (rest : Text) :
    scanString '"' [] (raw ++ '"' :: rest) = .ok (raw, rest) := by
  obtain ⟨body, hraw, -, hframe⟩ := scan_string_body (by decide) h
  rw [List.reverse_nil, List.nil_append] at hraw
  rw [hraw, hframe]
  rfl

/-- What is read between double quotes can stand there. -/
theorem quotable_of_scan {t raw rest : Text} (h : scanString '"' [] t = .ok (raw, rest)) :
    Quotable raw := by
  obtain ⟨body, hraw, -, hframe⟩ := scan_string_body (by decide) h
  rw [List.reverse_nil, List.nil_append] at hraw
  rw [Quotable, hraw, hframe]
  rfl

/-- A string literal in double quotes is cut whole. -/
theorem step_string {depth : Nat} {raw : Text} (hraw : Quotable raw) (rest : Text) :
    step ⟨depth, .plain⟩ ('"' :: (raw ++ '"' :: rest)) =
      .emit (.string raw) ⟨depth, .plain⟩ rest := by
  have hstep : step ⟨depth, .plain⟩ ('"' :: (raw ++ '"' :: rest)) =
      emitString ⟨depth, .plain⟩ '"' (raw ++ '"' :: rest) := rfl
  rw [hstep, emitString, hraw.scan]

/-- A value in double quotes is cut whole between braces. -/
theorem step_value {depth : Nat} {raw : Text} (hraw : Quotable raw) (rest : Text) :
    step ⟨depth, .braces⟩ ('"' :: (raw ++ '"' :: rest)) =
      .emit (.string raw) ⟨depth, .braces⟩ rest := by
  have hstep : step ⟨depth, .braces⟩ ('"' :: (raw ++ '"' :: rest)) =
      emitString ⟨depth, .braces⟩ '"' (raw ++ '"' :: rest) := rfl
  rw [hstep, emitString, hraw.scan]

/-! ## Numbers -/

/-- What ends a name is not taken for a part of it. -/
def EndsName (rest : Text) : Prop :=
  rest.head?.all (fun c => !Text.isNameRest c) = true

/-- What ends a word ends a name. -/
theorem Ends.name {rest : Text} (h : Ends rest) : EndsName rest := by
  cases rest with
  | nil => rfl
  | cons c rest =>
      have hc : isWordRest c = false ∧ c ≠ '.' := by simpa [Ends, endsWord] using h
      have hname : Text.isNameRest c = false ∧ c ≠ ':' := by simpa [isWordRest] using hc.1
      simp [EndsName, hname.1]

/-- A character that does not pass the test of names passes no narrower one. -/
theorem EndsName.not_of {rest : Text} (h : EndsName rest) {p : Char → Bool}
    (hp : ∀ c, p c = true → Text.isNameRest c = true) : rest.head?.all fun c => !p c :=
  Text.head_fails h hp

/-- What ends a number is not taken for a part of it. -/
theorem Ends.not_of {rest : Text} (h : Ends rest) {p : Char → Bool}
    (hp : ∀ c, p c = true → endsWord c = false) : rest.head?.all fun c => !p c := by
  refine Text.head_fails (q := fun c => !endsWord c) ?_ fun c hc => by rw [hp c hc]; rfl
  simpa [Ends] using h

/-- No character is cut off before one that fails the test. -/
theorem take_one_none {p : Char → Bool} {t : Text} (h : t.head?.all fun c => !p c) :
    takeOne p t = ([], t) := by
  cases t with
  | nil => rfl
  | cons c t =>
      have hc : p c = false := by simpa using h
      simp [takeOne, hc]

/-- What `cutNumber` does after the decimal digits of a whole part. -/
def cutPlaces (t : Text) : Text × Text :=
  let (point, t) := takeOne (· == '.') t
  let (places, t) :=
    if point = [] then ([], t) else (t.takeWhile Text.isDigit, t.dropWhile Text.isDigit)
  let (e, t) := takeOne (fun c => c == 'e' || c == 'E') t
  let (plusMinus, t) := if e = [] then ([], t) else takeOne (fun c => c == '+' || c == '-') t
  let (exponent, t) :=
    if e = [] then ([], t) else (t.takeWhile Text.isDigit, t.dropWhile Text.isDigit)
  (point ++ places ++ e ++ plusMinus ++ exponent, t)

/-- A character that goes on with the digits of a number or makes it hexadecimal. -/
def continuesWhole (c : Char) : Bool :=
  Text.isDigit c || c == 'x' || c == 'X'

/-- No digit makes a number hexadecimal. -/
theorem not_x_of_digit {c : Char} (h : Text.isDigit c = true) : (c == 'x' || c == 'X') = false := by
  have hne : c ≠ 'x' ∧ c ≠ 'X' := by
    constructor
    all_goals
      rintro rfl
      exact absurd h (by decide)
  simp [hne]

/-- The digits of a whole part are cut off, and the places after them. -/
theorem cut_number_whole {whole rest : Text} (hwhole : ∀ c ∈ whole, Text.isDigit c = true)
    (hrest : rest.head?.all fun c => !continuesWhole c) :
    cutNumber (whole ++ rest) = (whole ++ (cutPlaces rest).1, (cutPlaces rest).2) := by
  have hdigit : rest.head?.all fun c => !Text.isDigit c :=
    Text.head_fails hrest fun c hc => by simp [continuesWhole, hc]
  have hx : rest.head?.all fun c => !(c == 'x' || c == 'X') :=
    Text.head_fails hrest fun c hc => by rw [continuesWhole, Bool.or_assoc, hc, Bool.or_true]
  unfold cutNumber
  by_cases hlead : ∃ tail, whole = '0' :: tail
  · -- A leading zero is cut off on its own.
    obtain ⟨tail, rfl⟩ := hlead
    obtain ⟨htake, hdrop⟩ := Text.take_run rest
      (fun c hc => hwhole c (List.mem_cons_of_mem _ hc)) hdigit
    have hzero : takeOne (· == '0') (('0' :: tail) ++ rest) = (['0'], tail ++ rest) := rfl
    have hzerox : (tail ++ rest).head?.all fun c => !(c == 'x' || c == 'X') :=
      Text.head_fails_append (fun c hc => not_x_of_digit (hwhole c (List.mem_cons_of_mem _ hc))) hx
    simp only [hzero, List.cons_ne_self, ↓reduceIte, take_one_none hzerox, htake, hdrop]
    simp [cutPlaces, List.append_assoc]
  · obtain ⟨htake, hdrop⟩ := Text.take_run rest hwhole hdigit
    have hzero : takeOne (· == '0') (whole ++ rest) = ([], whole ++ rest) := by
      refine take_one_none ?_
      cases whole with
      | nil =>
          refine Text.head_fails hdigit fun c hc => ?_
          obtain rfl : c = '0' := by simpa using hc
          decide
      | cons c whole =>
          have hc : c ≠ '0' := fun h => hlead ⟨whole, by rw [h]⟩
          simp [hc]
    simp only [hzero, ↓reduceIte, htake, hdrop]
    simp [cutPlaces, List.append_assoc]

/-- Nothing is cut off for places before a character that begins neither places nor an exponent. -/
theorem cut_places_none {rest : Text}
    (hrest : rest.head?.all fun c => !(c == '.' || c == 'e' || c == 'E')) :
    cutPlaces rest = ([], rest) := by
  have hpoint : rest.head?.all fun c => !(c == '.') :=
    Text.head_fails hrest fun c hc => by rw [Bool.or_assoc, hc, Bool.true_or]
  have he : rest.head?.all fun c => !(c == 'e' || c == 'E') :=
    Text.head_fails hrest fun c hc => by rw [Bool.or_assoc, hc, Bool.or_true]
  unfold cutPlaces
  simp only [take_one_none hpoint, ↓reduceIte, take_one_none he, List.append_nil]

/-- The characters that could go on with a number are no ends of words. -/
theorem number_rest_of_ends {c : Char}
    (h : (continuesWhole c || (c == '.' || c == 'e' || c == 'E')) = true) : endsWord c = false := by
  simp only [continuesWhole, Bool.or_eq_true, beq_iff_eq] at h
  rcases h with ((h | rfl) | rfl) | (rfl | rfl) | rfl
  · simp [endsWord, isWordRest, Text.isNameRest, h]
  all_goals decide

/-- A number in positional notation is cut off as a number. -/
theorem cut_number_numeral {whole rest : Text} {places : Option Text}
    (hwhole : ∀ c ∈ whole, Text.isDigit c = true) (hplaces : ArePlaces places)
    (hrest : Ends rest) :
    cutNumber (numeral whole places ++ rest) = (numeral whole places, rest) := by
  have hcontinues : rest.head?.all fun c => !continuesWhole c :=
    hrest.not_of fun c hc => number_rest_of_ends (by simp [hc])
  have hexp : rest.head?.all fun c => !(c == '.' || c == 'e' || c == 'E') :=
    hrest.not_of fun c hc => number_rest_of_ends (by rw [hc, Bool.or_true])
  cases places with
  | none =>
      rw [numeral, cut_number_whole hwhole hcontinues, cut_places_none hexp, List.append_nil]
  | some digits =>
      have hdigit : rest.head?.all fun c => !Text.isDigit c :=
        hrest.not_of fun c hc => number_rest_of_ends (by simp [continuesWhole, hc])
      have he : rest.head?.all fun c => !(c == 'e' || c == 'E') :=
        hrest.not_of fun c hc => number_rest_of_ends (by
          rw [Bool.or_assoc, hc, Bool.or_true, Bool.or_true])
      obtain ⟨htake, hdrop⟩ := Text.take_run (p := Text.isDigit) rest hplaces hdigit
      rw [Option.getD_some] at htake hdrop
      have hcut : cutPlaces ('.' :: (digits ++ rest)) = ('.' :: digits, rest) := by
        have hpoint : takeOne (· == '.') ('.' :: (digits ++ rest)) = (['.'], digits ++ rest) := rfl
        unfold cutPlaces
        simp only [hpoint, List.cons_ne_nil, ↓reduceIte, htake, hdrop, take_one_none he,
          List.append_nil]
        rfl
      rw [numeral, List.append_assoc, List.cons_append, cut_number_whole hwhole (by rfl), hcut]

/-- A number in positional notation is cut whole. -/
theorem scan_number_numeral {whole rest : Text} {places : Option Text}
    (hwhole : ∀ c ∈ whole, Text.isDigit c = true) (hplaces : ArePlaces places)
    (hrest : Ends rest) :
    scanNumber (numeral whole places ++ rest) =
      .ok (.number (numeral whole places), rest) := by
  have hnext : rest.head?.all fun c => !(Text.isNameStart c || c == '.') := by
    refine hrest.not_of fun c hc => ?_
    rw [Bool.or_eq_true, beq_iff_eq] at hc
    rcases hc with h | rfl
    · simp [endsWord, isWordRest, Text.isNameRest, h]
    · decide
  unfold scanNumber
  simp only [cut_number_numeral hwhole hplaces hrest, hnext, ↓reduceIte]

/-- A number in positional notation begins with a digit. -/
theorem numeral_eq_cons {whole : Text} (hwhole : IsWhole whole) (places : Option Text) :
    ∃ c tail, numeral whole places = c :: tail ∧ Text.isDigit c = true := by
  obtain ⟨c, tail, hcons⟩ := List.exists_cons_of_ne_nil hwhole.nonempty
  have hc := hwhole.digits c (by rw [hcons]; exact List.mem_cons_self)
  cases places with
  | none => exact ⟨c, tail, hcons, hc⟩
  | some digits => exact ⟨c, tail ++ '.' :: digits, by rw [numeral, hcons]; rfl, hc⟩

/-- A step at a digit reads a number or a duration. -/
theorem step_digit {depth : Nat} {c : Char} (hc : Text.isDigit c = true) (rest : Text) :
    step ⟨depth, .plain⟩ (c :: rest) = emitRead ⟨depth, .plain⟩ (scanNumber (c :: rest)) := by
  have hblank := not_blank_of hc (by decide)
  simp only [step, drop_blank_cons hblank, plainStep, hc, ↓reduceIte]

/-- A number in positional notation is one token. -/
theorem step_numeral {depth : Nat} {whole rest : Text} {places : Option Text}
    (hwhole : IsWhole whole) (hplaces : ArePlaces places) (hrest : Ends rest) :
    step ⟨depth, .plain⟩ (numeral whole places ++ rest) =
      .emit (.number (numeral whole places)) ⟨depth, .plain⟩ rest := by
  have hscan := scan_number_numeral hwhole.digits hplaces hrest
  obtain ⟨c, tail, hcons, hc⟩ := numeral_eq_cons hwhole places
  rw [hcons, List.cons_append] at hscan ⊢
  rw [step_digit hc, hscan]
  rfl

end QueryTidy.Token
