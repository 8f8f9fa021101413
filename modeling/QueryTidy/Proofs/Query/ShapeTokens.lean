import QueryTidy.Proofs.Query.Progress
import QueryTidy.Proofs.Query.Shape

/-!
# The tokens of a text

What is known of every token that the lexer cuts from a text: words outside braces are spelled like
words, names between braces like names, and the raw texts of string literals have a property that
is known of the literals in the text.
-/

namespace QueryTidy

namespace Token

/-- The token is one of a text: a word stands for itself, and a string literal has the property. The
flag says whether the token stands between braces. -/
def SpelledIn (p : Text → Prop) (braces : Bool) : Token → Prop
  | .identifier t => if braces then IsName t else IsWord t ∧ ofWord t = .identifier t
  | .metricName t => IsWord t ∧ ofWord t = .metricName t
  | .reserved w t => IsWord t ∧ ofWord t = .reserved w t
  | .string raw => p raw
  | _ => True

/-- All tokens are ones of a text. -/
def Spelled (p : Text → Prop) : Bool → List Token → Prop
  | _, [] => True
  | braces, token :: tokens => token.SpelledIn p braces ∧ Spelled p (token.after braces) tokens

variable {p : Text → Prop} {q : Char → Prop} {depth : Nat} {s s' : LexState} {t rest : Text}
  {token : Token}

/-- A token of a text and the state after it. -/
def StepSpelled (p : Text → Prop) (braces : Bool) (token : Token) (s' : LexState) : Prop :=
  token.SpelledIn p braces ∧ inBraces s' = token.after braces

/-- The token of a word keeps its text. -/
theorem of_word_cases (word : Text) :
    (∃ w, ofWord word = .reserved w word) ∨ ofWord word = .number word ∨
      ofWord word = .metricName word ∨ ofWord word = .identifier word := by
  unfold ofWord
  split
  · exact .inl ⟨_, rfl⟩
  · split
    · exact .inr (.inl rfl)
    · split
      · exact .inr (.inr (.inl rfl))
      · exact .inr (.inr (.inr rfl))

/-- The token of a word is one of a text. -/
theorem of_word_spelled {word : Text} (h : IsWord word) :
    (ofWord word).SpelledIn p false ∧ (ofWord word).after false = false := by
  rcases of_word_cases word with ⟨w, hword⟩ | hword | hword | hword
  · rw [hword]
    exact ⟨⟨h, hword⟩, rfl⟩
  · rw [hword]
    exact ⟨trivial, rfl⟩
  · rw [hword]
    exact ⟨⟨h, hword⟩, rfl⟩
  · rw [hword]
    exact ⟨⟨h, hword⟩, rfl⟩

/-- The longest run of characters of a word at a text that begins one is a word. -/
theorem take_word {c : Char} {t : Text} (h : Text.isNameStart c = true ∨ c = ':') :
    IsWord ((c :: t).takeWhile isWordRest) where
  start := by
    have hrest : isWordRest c = true := by
      rcases h with h | rfl
      · simp [isWordRest, Text.isNameRest, h]
      · rfl
    rw [List.takeWhile_cons_of_pos hrest]
    simpa [isWordStart] using h
  all _ hc := List.all_eq_true.1 List.all_takeWhile _ hc

/-- The longest run of characters of a name at a text that begins one is a name. -/
theorem take_name {c : Char} {t : Text} (h : Text.isNameStart c = true) :
    IsName ((c :: t).takeWhile Text.isNameRest) where
  start := by
    have hrest : Text.isNameRest c = true := by simp [Text.isNameRest, h]
    rw [List.takeWhile_cons_of_pos hrest]
    simpa using h
  all _ hc := List.all_eq_true.1 List.all_takeWhile _ hc

/-- A number or a duration is a token of a text. -/
theorem emit_read_spelled (h : emitRead s (scanNumber t) = .emit token s' rest) (braces : Bool)
    (hbraces : inBraces s = braces) : StepSpelled p braces token s' := by
  have hkind : ∀ read, scanNumber t = .ok read →
      (∃ text, read.1 = .number text) ∨ ∃ text, read.1 = .duration text := by
    intro read hread
    unfold scanNumber at hread
    dsimp only at hread
    split at hread
    · cases hread
      exact .inl ⟨_, rfl⟩
    · split at hread
      · cases hread
      · split at hread
        · cases hread
          exact .inr ⟨_, rfl⟩
        · cases hread
  cases hscan : scanNumber t with
  | error e =>
      rw [hscan] at h
      cases h
  | ok read =>
      rw [hscan] at h
      cases h
      rcases hkind _ hscan with ⟨text, htext⟩ | ⟨text, htext⟩
      · rw [htext]
        exact ⟨trivial, hbraces⟩
      · rw [htext]
        exact ⟨trivial, hbraces⟩

/-- A string literal is a token of a text. -/
theorem emit_string_spelled {quote : Char} (hquote : q quote)
    (hstring : ∀ c, q c → ∀ t raw rest, scanString c [] t = .ok (raw, rest) → p raw)
    (h : emitString s quote t = .emit token s' rest) (braces : Bool)
    (hbraces : inBraces s = braces) : StepSpelled p braces token s' := by
  unfold emitString at h
  split at h
  · rename_i raw after hscan
    cases h
    exact ⟨hstring quote hquote _ _ _ hscan, hbraces⟩
  · cases h

/-- The next string literal, if one begins the text, has one of the given quotes. -/
def Quoted (q : Char → Prop) (t : Text) : Prop :=
  ∀ c tail, dropBlank false t = c :: tail → isQuote c = true → q c

/-- A step of the lexer yields a token of a text. -/
theorem step_spelled
    (hstring : ∀ c, q c → ∀ t raw rest, scanString c [] t = .ok (raw, rest) → p raw)
    (hquoted : Quoted q t) (h : step s t = .emit token s' rest) :
    StepSpelled p (inBraces s) token s' := by
  cases step_emits h with
  | number _ _ hbraces hread => exact emit_read_spelled hread _ hbraces
  | @word c tail _ _ hc hbraces =>
      obtain ⟨hspelled, hafter⟩ := of_word_spelled (p := p) (take_word (t := tail) hc)
      rw [hbraces]
      exact ⟨hspelled, hafter.symm⟩
  | name _ hc hbraces =>
      rw [hbraces]
      exact ⟨take_name hc, rfl⟩
  | alternative _ _ hbraces =>
      rw [hbraces]
      exact ⟨trivial, rfl⟩
  | string hdrop hquote hbraces hread =>
      exact emit_string_spelled (hquoted _ _ hdrop hquote) hstring hread _ hbraces
  | sign _ hafter => exact ⟨trivial, hafter⟩
  | longSign _ hafter => exact ⟨trivial, hafter⟩

/-- All string literals of a text have the given quotes: whenever the lexer has cut some tokens, it
finds such a quote or none. -/
def QuotedFrom (q : Char → Prop) (s : LexState) (t : Text) : Prop :=
  ∀ tokens s' rest, Cuts s t tokens s' rest → Quoted q rest

/-- The tokens of a text are spelled as they are. -/
theorem scan_from_spelled {fuel : Nat} {tokens : List Token}
    (hstring : ∀ c, q c → ∀ t raw rest, scanString c [] t = .ok (raw, rest) → p raw)
    (hquoted : QuotedFrom q s t) (h : scanFrom fuel s t = .ok tokens) :
    Spelled p (inBraces s) tokens := by
  induction fuel generalizing s t tokens with
  | zero =>
      cases h
      trivial
  | succ fuel ih =>
      simp only [scanFrom] at h
      split at h
      · cases h
        trivial
      · cases h
      · rename_i token s' rest hstep
        split at h
        · rename_i tokens hmore
          cases h
          obtain ⟨hspelled, hafter⟩ := step_spelled hstring (hquoted _ _ _ (.done _ _)) hstep
          refine ⟨hspelled, ?_⟩
          rw [← hafter]
          exact ih (fun tokens s'' rest' hcuts => hquoted _ _ _ (.next hstep hcuts)) hmore
        · cases h

/-- The tokens of a text are spelled as they are. -/
theorem scan_spelled {tokens : List Token}
    (hstring : ∀ c, q c → ∀ t raw rest, scanString c [] t = .ok (raw, rest) → p raw)
    (hquoted : QuotedFrom q ⟨0, .plain⟩ t) (h : scan t = .ok tokens) :
    Spelled p false tokens :=
  scan_from_spelled hstring hquoted h

end Token

end QueryTidy
