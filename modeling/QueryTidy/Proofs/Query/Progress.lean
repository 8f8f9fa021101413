import QueryTidy.Proofs.Query.Cutting

/-!
# Progress of the lexer

How a step of the lexer cuts a token off a text is said once (`Emits`, `step_emits`). Every token
takes at least one character of the text, so the length of a text bounds the number of its tokens,
and the fuel of the lexer is enough.
-/

namespace QueryTidy.Token

/-! ## Numbers and durations -/

/-- What is cut off and what is left make up the text. -/
theorem take_one_append (p : Char → Bool) (t : Text) : (takeOne p t).1 ++ (takeOne p t).2 = t := by
  cases t with
  | nil => rfl
  | cons c t =>
      simp only [takeOne]
      split <;> rfl

/-- The same holds if nothing is cut off in some case. -/
theorem cut_append {c : Prop} [Decidable c] {t : Text} {cut : Text × Text}
    (h : cut.1 ++ cut.2 = t) :
    (if c then ([], t) else cut).1 ++ (if c then ([], t) else cut).2 = t := by
  split
  · rfl
  · exact h

/-- A number that is cut off and the rest make up the text. -/
theorem cut_number_append (t : Text) : (cutNumber t).1 ++ (cutNumber t).2 = t := by
  have hrun : ∀ (p : Char → Bool) (t : Text),
      (t.takeWhile p, t.dropWhile p).1 ++ (t.takeWhile p, t.dropWhile p).2 = t :=
    fun p t => List.takeWhile_append_dropWhile
  unfold cutNumber
  have hzero := take_one_append (· == '0') t
  generalize takeOne (· == '0') t = cut at hzero ⊢
  obtain ⟨zero, t₁⟩ := cut
  dsimp only at hzero ⊢
  have hx := cut_append (c := zero = []) (take_one_append (fun c => c == 'x' || c == 'X') t₁)
  generalize (if zero = [] then ([], t₁) else takeOne (fun c => c == 'x' || c == 'X') t₁) = cut
    at hx ⊢
  obtain ⟨x, t₂⟩ := cut
  dsimp only at hx ⊢
  generalize (if x = [] then Text.isDigit else Text.isHexDigit) = digit
  have hwhole := hrun digit t₂
  generalize t₂.takeWhile digit = whole at hwhole ⊢
  generalize t₂.dropWhile digit = t₃ at hwhole ⊢
  have hpoint := take_one_append (· == '.') t₃
  generalize takeOne (· == '.') t₃ = cut at hpoint ⊢
  obtain ⟨point, t₄⟩ := cut
  dsimp only at hwhole hpoint ⊢
  have hplaces := cut_append (c := point = []) (hrun digit t₄)
  generalize (if point = [] then ([], t₄) else (t₄.takeWhile digit, t₄.dropWhile digit)) = cut
    at hplaces ⊢
  obtain ⟨places, t₅⟩ := cut
  dsimp only at hplaces ⊢
  have he := take_one_append (fun c => c == 'e' || c == 'E') t₅
  generalize takeOne (fun c => c == 'e' || c == 'E') t₅ = cut at he ⊢
  obtain ⟨e, t₆⟩ := cut
  dsimp only at he ⊢
  have hsign := cut_append (c := e = []) (take_one_append (fun c => c == '+' || c == '-') t₆)
  generalize (if e = [] then ([], t₆) else takeOne (fun c => c == '+' || c == '-') t₆) = cut
    at hsign ⊢
  obtain ⟨sign, t₇⟩ := cut
  dsimp only at hsign ⊢
  have hexponent := cut_append (c := e = []) (hrun Text.isDigit t₇)
  generalize (if e = [] then ([], t₇) else
    (t₇.takeWhile Text.isDigit, t₇.dropWhile Text.isDigit)) = cut at hexponent ⊢
  obtain ⟨exponent, t₈⟩ := cut
  dsimp only at hexponent ⊢
  rw [← hzero, ← hx, ← hwhole, ← hpoint, ← hplaces, ← he, ← hsign, ← hexponent]
  simp only [List.append_assoc]

/-- Parts of a duration that are cut off and the rest make up the text. -/
theorem cut_parts_append (fuel : Nat) (t : Text) :
    (cutParts fuel t).2.1 ++ (cutParts fuel t).2.2 = t := by
  induction fuel generalizing t with
  | zero => rfl
  | succ fuel ih =>
      have hdigits : t.takeWhile Text.isDigit ++ t.dropWhile Text.isDigit = t :=
        List.takeWhile_append_dropWhile
      unfold cutParts
      dsimp only
      split
      · rfl
      · have hunit := take_one_append isUnit (t.dropWhile Text.isDigit)
        generalize takeOne isUnit (t.dropWhile Text.isDigit) = cut at hunit ⊢
        obtain ⟨unit, t₁⟩ := cut
        dsimp only at hunit ⊢
        split
        · rename_i hnone
          rw [hnone, List.nil_append] at hunit
          rw [hunit]
          exact hdigits
        · have hs := take_one_append (· == 's') t₁
          generalize takeOne (· == 's') t₁ = cut at hs ⊢
          obtain ⟨s, t₂⟩ := cut
          dsimp only at hs ⊢
          have hmore := ih t₂
          generalize cutParts fuel t₂ = cut at hmore ⊢
          obtain ⟨complete, more, t₃⟩ := cut
          dsimp only at hmore ⊢
          simp only [List.append_assoc, hmore, hs, hunit]
          exact hdigits

/-- A number or a duration stands in front of what is left, and a number that is cut off in front of
its rest. -/
theorem scan_number_append {t rest : Text} {token : Token} (h : scanNumber t = .ok (token, rest)) :
    ∃ more, (cutNumber t).1 ++ (more ++ rest) = t := by
  have hcut := cut_number_append t
  unfold scanNumber at h
  generalize cutNumber t = cut at h hcut ⊢
  obtain ⟨digits, t₁⟩ := cut
  dsimp only at h hcut ⊢
  split at h
  · cases h
    exact ⟨[], hcut⟩
  · have hunit := take_one_append isFirstUnit t₁
    generalize takeOne isFirstUnit t₁ = cut at h hunit
    obtain ⟨unit, t₂⟩ := cut
    dsimp only at h hunit
    split at h
    · cases h
    · have hs := take_one_append (· == 's') t₂
      generalize takeOne (· == 's') t₂ = cut at h hs
      obtain ⟨s, t₃⟩ := cut
      dsimp only at h hs
      have hmore := cut_parts_append (t₃.length + 1) t₃
      generalize cutParts (t₃.length + 1) t₃ = cut at h hmore
      obtain ⟨complete, more, t₄⟩ := cut
      dsimp only at h hmore
      split at h
      · cases h
        refine ⟨unit ++ (s ++ more), ?_⟩
        rw [List.append_assoc, List.append_assoc, hmore, hs, hunit, hcut]
      · cases h

/-- A number that begins with a digit, or with a point before a digit, has characters. -/
theorem cut_number_pos {c : Char} {t : Text} (h : Text.isDigit c = true ∨ c = '.') :
    0 < (cutNumber (c :: t)).1.length := by
  by_contra hzero
  have hnil : (cutNumber (c :: t)).1 = [] := List.length_eq_zero_iff.1 (by omega)
  unfold cutNumber at hnil
  dsimp only at hnil
  simp only [List.append_eq_nil_iff] at hnil
  obtain ⟨⟨⟨⟨⟨⟨⟨hz, -⟩, hwhole⟩, hpoint⟩, -⟩, -⟩, -⟩, -⟩ := hnil
  have hnotzero : (c == '0') = false := by
    by_contra hc
    have hc' : c = '0' := by simpa using hc
    simp [takeOne, hc'] at hz
  have hone : takeOne (· == '0') (c :: t) = ([], c :: t) := by
    simp [takeOne, hnotzero]
  simp only [hone, ↓reduceIte] at hwhole hpoint
  rcases h with hdigit | rfl
  · rw [List.takeWhile_cons_of_pos hdigit] at hwhole
    cases hwhole
  · have hdot : ('.' :: t).dropWhile Text.isDigit = '.' :: t := rfl
    rw [hdot] at hpoint
    cases hpoint

/-! ## Steps -/

variable {depth : Nat} {s s' : LexState} {t rest : Text} {token : Token}

/-- Some characters at the beginning of a text are taken, and the rest is left. -/
def Leaves (t rest : Text) : Prop :=
  ∃ front, front ≠ [] ∧ front ++ rest = t

/-- What is left is shorter. -/
theorem Leaves.length (h : Leaves t rest) : rest.length < t.length := by
  obtain ⟨front, hne, rfl⟩ := h
  have hpos := List.length_pos_iff.2 hne
  rw [List.length_append]
  omega

/-- What is left stands at the end of the text. -/
theorem Leaves.suffix (h : Leaves t rest) : rest <:+ t := by
  obtain ⟨front, -, rfl⟩ := h
  exact List.suffix_append _ _

/-- What is left of the end of a text is left of the text. -/
theorem Leaves.of_suffix {t' : Text} (h : Leaves t' rest) (hend : t' <:+ t) : Leaves t rest := by
  obtain ⟨front, hne, rfl⟩ := h
  obtain ⟨before, rfl⟩ := hend
  exact ⟨before ++ front, by simp [hne], List.append_assoc _ _ _⟩

/-- One character is taken. -/
theorem Leaves.one (c : Char) (rest : Text) : Leaves (c :: rest) rest :=
  ⟨[c], List.cons_ne_nil _ _, rfl⟩

/-- Two characters are taken. -/
theorem Leaves.two (c d : Char) (rest : Text) : Leaves (c :: d :: rest) rest :=
  ⟨[c, d], List.cons_ne_nil _ _, rfl⟩

/-- A run of characters is taken if the first one is. -/
theorem Leaves.run {p : Char → Bool} {c : Char} (h : p c = true) (t : Text) :
    Leaves (c :: t) ((c :: t).dropWhile p) := by
  refine ⟨(c :: t).takeWhile p, ?_, List.takeWhile_append_dropWhile⟩
  rw [List.takeWhile_cons_of_pos h]
  exact List.cons_ne_nil _ _

/-- What is left when blank space and comments are dropped is the end of the text. -/
theorem drop_blank_suffix (inComment : Bool) (t : Text) : dropBlank inComment t <:+ t := by
  induction t generalizing inComment with
  | nil => exact List.suffix_refl _
  | cons c t ih =>
      unfold dropBlank
      split
      · exact (ih _).trans (List.suffix_cons _ _)
      · split
        · exact (ih _).trans (List.suffix_cons _ _)
        · split
          · exact (ih _).trans (List.suffix_cons _ _)
          · exact List.suffix_refl _

/-- A number or a duration takes characters. -/
theorem emit_read_leaves {c : Char} (h : Text.isDigit c = true ∨ c = '.')
    (hstep : emitRead s (scanNumber (c :: t)) = .emit token s' rest) : Leaves (c :: t) rest := by
  cases hscan : scanNumber (c :: t) with
  | error e =>
      rw [hscan] at hstep
      cases hstep
  | ok read =>
      rw [hscan] at hstep
      cases hstep
      obtain ⟨more, happend⟩ := scan_number_append hscan
      have hpos := cut_number_pos (t := t) h
      refine ⟨(cutNumber (c :: t)).1 ++ more, ?_, ?_⟩
      · exact List.append_ne_nil_of_left_ne_nil (List.length_pos_iff.1 hpos) _
      · rw [List.append_assoc]
        exact happend

/-- A string literal takes characters. -/
theorem emit_string_leaves {quote : Char} (hquote : isQuote quote = true)
    (hstep : emitString s quote t = .emit token s' rest) : Leaves (quote :: t) rest := by
  unfold emitString at hstep
  split at hstep
  · rename_i raw after hscan
    cases hstep
    have hslash : quote ≠ '\\' := by
      rintro rfl
      cases hquote
    obtain ⟨body, -, rfl, -⟩ := scan_string_body hslash hscan
    exact ⟨quote :: (body ++ [quote]), List.cons_ne_nil _ _, by simp⟩
  · cases hstep

/-- Whether what follows the token stands between braces. -/
def after (braces : Bool) : Token → Bool
  | .sign .leftBrace => true
  | .sign .rightBrace => false
  | _ => braces

/-- The state is one between braces. -/
def inBraces (s : LexState) : Bool :=
  match s.mode with
  | .braces => true
  | _ => false

/-- How a step cuts a token off a text, behind blank space and comments: a number or a duration, a
word, between braces a name or the word between alternatives, a string literal, or a sign of one
character or of two. -/
inductive Emits (s : LexState) (t : Text) : Token → LexState → Text → Prop where
  | number {c : Char} {tail rest : Text} {token : Token} {r s' : LexState} :
      c :: tail <:+ t → Text.isDigit c = true ∨ c = '.' → inBraces r = inBraces s →
        emitRead r (scanNumber (c :: tail)) = .emit token s' rest → Emits s t token s' rest
  | word {c : Char} {tail : Text} {depth : Nat} :
      c :: tail <:+ t → Text.isNameStart c = true ∨ c = ':' → inBraces s = false →
        Emits s t (ofWord ((c :: tail).takeWhile isWordRest)) ⟨depth, .plain⟩
          ((c :: tail).dropWhile isWordRest)
  | name {c : Char} {tail : Text} {depth : Nat} :
      c :: tail <:+ t → Text.isNameStart c = true → inBraces s = true →
        Emits s t (.identifier ((c :: tail).takeWhile Text.isNameRest)) ⟨depth, .braces⟩
          ((c :: tail).dropWhile Text.isNameRest)
  | alternative {c : Char} {tail : Text} {depth : Nat} :
      c :: tail <:+ t → Text.isNameStart c = true → inBraces s = true →
        Emits s t .alternative ⟨depth, .braces⟩ ((c :: tail).dropWhile Text.isNameRest)
  | string {quote : Char} {tail rest : Text} {token : Token} {r s' : LexState} :
      dropBlank false t = quote :: tail → isQuote quote = true → inBraces r = inBraces s →
        emitString r quote tail = .emit token s' rest → Emits s t token s' rest
  | sign {c : Char} {tail : Text} {sign : Sign} {s' : LexState} :
      c :: tail <:+ t → inBraces s' = after (inBraces s) (.sign sign) →
        Emits s t (.sign sign) s' tail
  | longSign {c d : Char} {tail : Text} {sign : Sign} {s' : LexState} :
      c :: d :: tail <:+ t → inBraces s' = after (inBraces s) (.sign sign) →
        Emits s t (.sign sign) s' tail

/-- A step outside braces and brackets cuts off a token so. -/
theorem plain_step_emits (h : step ⟨depth, .plain⟩ t = .emit token s' rest) :
    Emits ⟨depth, .plain⟩ t token s' rest := by
  have hsuffix := drop_blank_suffix false t
  simp only [step] at h
  cases hdrop : dropBlank false t with
  | nil =>
      rw [hdrop] at h
      simp only [plainStep] at h
      split at h <;> cases h
  | cons c tail =>
      rw [hdrop] at h hsuffix
      simp only [plainStep] at h
      split at h
      · rename_i hc
        exact .number hsuffix (.inl hc) rfl h
      · split at h
        · rename_i hc
          cases h
          exact .word hsuffix hc rfl
        · split at h
          · rename_i hc
            exact .string hdrop hc rfl h
          · split at h
            -- A point before a digit begins a number; a parenthesis may be closed if one is open.
            case h_19 =>
              split at h
              · exact .number hsuffix (.inr rfl) rfl h
              · cases h
            case h_21 =>
              split at h
              · cases h
              · cases h
                exact .sign hsuffix rfl
            all_goals first
              | (cases h
                 exact .sign hsuffix rfl)
              | (cases h
                 exact .longSign hsuffix rfl)
              | cases h

/-- A step between braces cuts off a token so. -/
theorem brace_step_emits (h : step ⟨depth, .braces⟩ t = .emit token s' rest) :
    Emits ⟨depth, .braces⟩ t token s' rest := by
  have hsuffix := drop_blank_suffix false t
  simp only [step] at h
  cases hdrop : dropBlank false t with
  | nil =>
      rw [hdrop] at h
      cases h
  | cons c tail =>
      rw [hdrop] at h hsuffix
      simp only [braceStep] at h
      split at h
      · rename_i hc
        split at h
        · cases h
          exact .alternative hsuffix hc rfl
        · cases h
          exact .name hsuffix hc rfl
      · split at h
        · rename_i hc
          exact .string hdrop hc rfl h
        · split at h
          all_goals first
            | (cases h
               exact .sign hsuffix rfl)
            | (cases h
               exact .longSign hsuffix rfl)
            | cases h

/-- A step between brackets cuts off a token so. -/
theorem bracket_step_emits {fresh colon : Bool}
    (h : step ⟨depth, .brackets fresh colon⟩ t = .emit token s' rest) :
    Emits ⟨depth, .brackets fresh colon⟩ t token s' rest := by
  have hsuffix : t.dropWhile isSpace <:+ t := List.dropWhile_suffix _
  simp only [step] at h
  cases hdrop : t.dropWhile isSpace with
  | nil =>
      rw [hdrop] at h
      cases h
  | cons c tail =>
      rw [hdrop] at h hsuffix
      simp only [bracketStep] at h
      split at h
      · rename_i hc
        refine .number hsuffix (.inl hc) ?_ h
        rfl
      · split at h
        · split at h
          · cases h
          · split at h
            · cases h
            · cases h
              exact .sign hsuffix rfl
        · split at h
          · cases h
            exact .sign hsuffix rfl
          · split at h <;> cases h

/-- Every step that yields a token cuts it off so. -/
theorem step_emits (h : step s t = .emit token s' rest) : Emits s t token s' rest := by
  obtain ⟨depth, mode⟩ := s
  cases mode with
  | plain => exact plain_step_emits h
  | braces => exact brace_step_emits h
  | brackets fresh colon => exact bracket_step_emits h

/-- Every token takes characters. -/
theorem step_leaves (h : step s t = .emit token s' rest) : Leaves t rest := by
  cases step_emits h with
  | number hsuffix hc _ hread => exact (emit_read_leaves hc hread).of_suffix hsuffix
  | @word c tail _ hsuffix hc =>
      have hrest : isWordRest c = true := by
        rcases hc with hc | rfl
        · simp [isWordRest, Text.isNameRest, hc]
        · rfl
      exact (Leaves.run hrest tail).of_suffix hsuffix
  | @name c tail _ hsuffix hc | @alternative c tail _ hsuffix hc =>
      have hrest : Text.isNameRest c = true := by simp [Text.isNameRest, hc]
      exact (Leaves.run hrest tail).of_suffix hsuffix
  | string hdrop hquote _ hstring =>
      exact (emit_string_leaves hquote hstring).of_suffix (hdrop ▸ drop_blank_suffix false t)
  | sign hsuffix => exact (Leaves.one _ _).of_suffix hsuffix
  | longSign hsuffix => exact (Leaves.two _ _ _).of_suffix hsuffix

/-- A text has at least as many characters as tokens. -/
theorem Cuts.length_le {tokens : List Token} (h : Cuts s t tokens s' rest) :
    tokens.length + rest.length ≤ t.length := by
  induction h with
  | done s t => simp
  | next hstep _ ih =>
      have hlength := (step_leaves hstep).length
      rw [List.length_cons]
      omega

/-- What is left after some tokens is the end of the text. -/
theorem Cuts.suffix {tokens : List Token} (h : Cuts s t tokens s' rest) : rest <:+ t := by
  induction h with
  | done s t => exact List.suffix_refl _
  | next hstep _ ih => exact ih.trans (step_leaves hstep).suffix

/-- A text of which the tokens are cut, up to an end where the text may end, has just these
tokens. -/
theorem Cuts.scan {tokens : List Token} (h : Cuts ⟨0, .plain⟩ t tokens s' rest)
    (hstop : step s' rest = .stop) : Token.scan t = .ok tokens := by
  have hlength := h.length_le
  exact h.scan_from hstop (by omega)

end QueryTidy.Token
