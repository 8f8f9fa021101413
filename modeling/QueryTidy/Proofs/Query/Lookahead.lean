import QueryTidy.Proofs.Query.Progress

/-!
# Looking ahead

The lexer looks at most one character past a token, and a line end there is to it as the end of the
text: it continues neither a word nor a number, a duration or a sign. So a token that is cut off a
text is also cut off the text with a line end and anything else after it (`Token.step_line`), and
the tokens of a whole text stay what they are (`Token.scan_line`). For a number or a duration this
follows the way in which it is cut, one part after the other; a part that is cut off leaves what
follows the line end in the rest (`Token.withRest`).
-/

namespace QueryTidy.Token

variable {p : Char → Bool} {t rest after : Text} {depth : Nat} {s s' : LexState} {token : Token}

/-- What is cut off, with more text after the rest. -/
def withRest (more : Text) (cut : Text × Text) : Text × Text :=
  (cut.1, cut.2 ++ more)

/-- The parts of what is cut off with more text after the rest. -/
theorem with_rest_mk (more front rest : Text) :
    withRest more (front, rest) = (front, rest ++ more) :=
  rfl

/-! ## Parts -/

/-- A run of characters of which a line end is none is cut off in front of it. -/
theorem run_line (hp : p '\n' = false) (t after : Text) :
    (t ++ '\n' :: after).takeWhile p = t.takeWhile p ∧
      (t ++ '\n' :: after).dropWhile p = t.dropWhile p ++ '\n' :: after := by
  induction t with
  | nil => simp [hp]
  | cons c t ih =>
      cases hc : p c with
      | true => simp [hc, ih]
      | false => simp [hc]

/-- A test that a line end passes has the same answer for the first character if a line end follows
the text. -/
theorem head_line (hp : p '\n' = true) (t after : Text) :
    (t ++ '\n' :: after).head?.all p = t.head?.all p := by
  cases t with
  | nil => simp [hp]
  | cons c t => rfl

/-- One character is cut off as it is without a line end after the text. -/
theorem take_one_line (hp : p '\n' = false) (t after : Text) :
    takeOne p (t ++ '\n' :: after) = withRest ('\n' :: after) (takeOne p t) := by
  cases t with
  | nil => simp [takeOne, withRest, hp]
  | cons c t =>
      cases hc : p c with
      | true => simp [takeOne, withRest, hc]
      | false => simp [takeOne, withRest, hc]

/-- The same holds for a cut that is made in some case only. -/
theorem cut_line {c : Prop} [Decidable c] {cut cut' : Text × Text}
    (h : cut' = withRest ('\n' :: after) cut) :
    (if c then ([], t ++ '\n' :: after) else cut') =
      withRest ('\n' :: after) (if c then ([], t) else cut) := by
  split
  · rfl
  · exact h

/-- A number is cut off as it is without a line end after the text. -/
theorem cut_number_line (t after : Text) :
    cutNumber (t ++ '\n' :: after) = withRest ('\n' :: after) (cutNumber t) := by
  have hrun : ∀ {p : Char → Bool}, p '\n' = false → ∀ t : Text,
      ((t ++ '\n' :: after).takeWhile p, (t ++ '\n' :: after).dropWhile p) =
        withRest ('\n' :: after) (t.takeWhile p, t.dropWhile p) := by
    intro p hp t
    obtain ⟨htake, hdrop⟩ := run_line hp t after
    rw [htake, hdrop]
    rfl
  have hone := fun (p : Char → Bool) (hp : p '\n' = false) (t : Text) => take_one_line hp t after
  unfold cutNumber
  rw [hone (· == '0') rfl t]
  generalize takeOne (· == '0') t = cut
  obtain ⟨zero, t₁⟩ := cut
  rw [with_rest_mk]
  dsimp only
  rw [cut_line (hone (fun c => c == 'x' || c == 'X') rfl t₁)]
  generalize (if zero = [] then ([], t₁) else takeOne (fun c => c == 'x' || c == 'X') t₁) = cut
  obtain ⟨x, t₂⟩ := cut
  rw [with_rest_mk]
  dsimp only
  generalize hchoice : (if x = [] then Text.isDigit else Text.isHexDigit) = digit
  have hdigit : digit '\n' = false := by
    rw [← hchoice]
    split <;> rfl
  obtain ⟨hwhole, hrest⟩ := run_line hdigit t₂ after
  rw [hwhole, hrest, hone (· == '.') rfl]
  generalize takeOne (· == '.') (t₂.dropWhile digit) = cut
  obtain ⟨point, t₄⟩ := cut
  rw [with_rest_mk]
  dsimp only
  rw [cut_line (hrun hdigit t₄)]
  generalize (if point = [] then ([], t₄) else (t₄.takeWhile digit, t₄.dropWhile digit)) = cut
  obtain ⟨places, t₅⟩ := cut
  rw [with_rest_mk]
  dsimp only
  rw [hone (fun c => c == 'e' || c == 'E') rfl]
  generalize takeOne (fun c => c == 'e' || c == 'E') t₅ = cut
  obtain ⟨e, t₆⟩ := cut
  rw [with_rest_mk]
  dsimp only
  rw [cut_line (hone (fun c => c == '+' || c == '-') rfl t₆)]
  generalize (if e = [] then ([], t₆) else takeOne (fun c => c == '+' || c == '-') t₆) = cut
  obtain ⟨sign, t₇⟩ := cut
  rw [with_rest_mk]
  dsimp only
  rw [cut_line (hrun (p := Text.isDigit) rfl t₇)]
  rfl

/-- What is left after one character is cut off is no longer than the text. -/
theorem take_one_length (p : Char → Bool) (t : Text) : (takeOne p t).2.length ≤ t.length := by
  have happend := congrArg List.length (take_one_append p t)
  rw [List.length_append] at happend
  omega

/-- The further parts of a duration are cut off as they are without a line end after the text, with
any fuel that is enough for them. -/
theorem cut_parts_line {fuel fuel' : Nat} (after : Text) (h : t.length < fuel)
    (h' : t.length < fuel') :
    cutParts fuel' (t ++ '\n' :: after) =
      ((cutParts fuel t).1, withRest ('\n' :: after) (cutParts fuel t).2) := by
  induction fuel generalizing fuel' t with
  | zero => omega
  | succ fuel ih =>
      obtain ⟨fuel', rfl⟩ : ∃ n, fuel' = n + 1 := ⟨fuel' - 1, by omega⟩
      obtain ⟨hdigits, hrest⟩ := run_line (p := Text.isDigit) rfl t after
      unfold cutParts
      dsimp only
      rw [hdigits, hrest]
      split
      · rfl
      · rename_i hsome
        have hshorter : (t.dropWhile Text.isDigit).length < t.length := by
          have hsplit := congrArg List.length
            (List.takeWhile_append_dropWhile (p := Text.isDigit) (l := t))
          have hpos := List.length_pos_iff.mpr hsome
          rw [List.length_append] at hsplit
          omega
        have hlength := take_one_length isUnit (t.dropWhile Text.isDigit)
        rw [take_one_line rfl]
        generalize takeOne isUnit (t.dropWhile Text.isDigit) = cut at hlength ⊢
        obtain ⟨unit, t₁⟩ := cut
        rw [with_rest_mk]
        dsimp only at hlength ⊢
        split
        · rfl
        · have hlength' := take_one_length (· == 's') t₁
          rw [take_one_line rfl]
          generalize takeOne (· == 's') t₁ = cut at hlength' ⊢
          obtain ⟨s, t₂⟩ := cut
          rw [with_rest_mk]
          dsimp only at hlength' ⊢
          rw [ih (show t₂.length < fuel by omega) (show t₂.length < fuel' by omega)]
          rfl

/-- A number or a duration is read as it is without a line end after the text. -/
theorem scan_number_line (after : Text) (h : scanNumber t = .ok (token, rest)) :
    scanNumber (t ++ '\n' :: after) = .ok (token, rest ++ '\n' :: after) := by
  unfold scanNumber at h ⊢
  rw [cut_number_line]
  generalize cutNumber t = cut at h ⊢
  obtain ⟨digits, t₁⟩ := cut
  rw [with_rest_mk]
  dsimp only at h ⊢
  rw [head_line rfl]
  split at h
  · rename_i hend
    rw [if_pos hend]
    cases h
    rfl
  · rename_i hmore
    rw [if_neg hmore, take_one_line rfl]
    generalize takeOne isFirstUnit t₁ = cut at h ⊢
    obtain ⟨unit, t₂⟩ := cut
    rw [with_rest_mk]
    dsimp only at h ⊢
    split at h
    · cases h
    · rename_i hunit
      rw [if_neg hunit, take_one_line rfl]
      generalize takeOne (· == 's') t₂ = cut at h ⊢
      obtain ⟨s, t₃⟩ := cut
      rw [with_rest_mk]
      dsimp only at h ⊢
      rw [cut_parts_line after (Nat.lt_succ_self t₃.length) (by rw [List.length_append]; omega)]
      generalize cutParts (t₃.length + 1) t₃ = cut at h ⊢
      obtain ⟨complete, more, t₄⟩ := cut
      rw [with_rest_mk]
      dsimp only at h ⊢
      rw [head_line rfl]
      split at h
      · rename_i hend
        rw [if_pos hend]
        cases h
        rfl
      · cases h

/-! ## Steps -/

/-- A step that reads a number or a duration is the same with a line end after the text. -/
theorem emit_read_line (after : Text)
    (h : emitRead s (scanNumber t) = .emit token s' rest) :
    emitRead s (scanNumber (t ++ '\n' :: after)) = .emit token s' (rest ++ '\n' :: after) := by
  cases hscan : scanNumber t with
  | error e =>
      rw [hscan] at h
      cases h
  | ok read =>
      obtain ⟨token', rest'⟩ := read
      rw [hscan] at h
      cases h
      rw [scan_number_line after hscan]
      rfl

/-- A step that reads a string literal is the same with anything after the text. -/
theorem emit_string_line {quote : Char} (hquote : isQuote quote = true) (after : Text)
    (h : emitString s quote t = .emit token s' rest) :
    emitString s quote (t ++ '\n' :: after) = .emit token s' (rest ++ '\n' :: after) := by
  unfold emitString at h ⊢
  split at h
  · rename_i raw left hscan
    obtain ⟨rfl, rfl, rfl⟩ := LexStep.emit.inj h
    have hslash : quote ≠ '\\' := by
      rintro rfl
      cases hquote
    obtain ⟨body, hraw, rfl, hframe⟩ := scan_string_body hslash hscan
    rw [List.append_assoc, List.cons_append, hframe [] (left ++ '\n' :: after), hraw]
  · cases h

/-- A text that does not begin with a character does not do so with a line end after it, either. -/
theorem not_cons_line {d : Char} (hd : d ≠ '\n') (h : ∀ tail, t = d :: tail → False)
    (after : Text) : ∀ tail, t ++ '\n' :: after = d :: tail → False := by
  intro tail htail
  cases t with
  | nil => exact hd (List.cons.inj htail).1.symm
  | cons c t => exact h t (by rw [(List.cons.inj htail).1])

/-- A step in the plain mode is the same with a line end after the text. -/
theorem plain_step_line (after : Text) (h : plainStep depth t = .emit token s' rest) :
    plainStep depth (t ++ '\n' :: after) = .emit token s' (rest ++ '\n' :: after) := by
  cases t with
  | nil =>
      simp only [plainStep] at h
      split at h <;> cases h
  | cons c t =>
      simp only [plainStep] at h
      rw [List.cons_append]
      split at h
      · rename_i hdigit
        have hread := emit_read_line after h
        rw [List.cons_append] at hread
        simp only [plainStep, hdigit, ↓reduceIte, hread]
      · rename_i hdigit
        split at h
        · rename_i hword
          obtain ⟨htake, hdrop⟩ := run_line (p := isWordRest) rfl (c :: t) after
          rw [List.cons_append] at htake hdrop
          cases h
          simp only [plainStep, hdigit, hword, Bool.false_eq_true, ↓reduceIte, htake, hdrop]
        · rename_i hword
          split at h
          · rename_i hquote
            have hstring := emit_string_line hquote after h
            simp only [plainStep, hdigit, hword, hquote, Bool.false_eq_true, ↓reduceIte, hstring]
          · rename_i hquote
            split at h
            -- The signs before which the next character counts, and those that may be out of place.
            case h_11 =>
              rename_i hequal htilde
              have hequal' := not_cons_line (by decide) hequal after
              have htilde' := not_cons_line (by decide) htilde after
              cases h
              simp only [plainStep, hdigit, hword, hquote, Bool.false_eq_true, ↓reduceIte]
              rfl
            case h_16 | h_18 =>
              rename_i hequal
              have hequal' := not_cons_line (by decide) hequal after
              cases h
              simp only [plainStep, hdigit, hword, hquote, Bool.false_eq_true, ↓reduceIte]
              rfl
            case h_19 =>
              split at h
              · rename_i hd
                have hread := emit_read_line after h
                rw [List.cons_append, List.cons_append] at hread
                simp only [List.cons_append, plainStep, hdigit, hword, hquote, hd,
                  Bool.false_eq_true, ↓reduceIte, hread]
              · cases h
            case h_21 =>
              split at h
              · cases h
              · rename_i hdepth
                cases h
                obtain ⟨n, rfl⟩ := Nat.exists_eq_succ_of_ne_zero hdepth
                rfl
            all_goals first
              | cases h
                rfl
              | cases h

/-- A step between braces is the same with a line end after the text. -/
theorem brace_step_line (after : Text) (h : braceStep depth t = .emit token s' rest) :
    braceStep depth (t ++ '\n' :: after) = .emit token s' (rest ++ '\n' :: after) := by
  cases t with
  | nil => cases h
  | cons c t =>
      simp only [braceStep] at h
      rw [List.cons_append]
      split at h
      · rename_i hword
        obtain ⟨htake, hdrop⟩ := run_line (p := Text.isNameRest) rfl (c :: t) after
        rw [List.cons_append] at htake hdrop
        -- A line end after the word is no space, so the word is not taken for another one.
        have hspace : ∀ left : Text,
            (left ++ '\n' :: after).head? = some ' ' ↔ left.head? = some ' ' := by
          intro left
          cases left with
          | nil => simp
          | cons d left => rfl
        simp only [braceStep, hword, ↓reduceIte, htake, hdrop, hspace]
        split at h
        · rename_i halternative
          cases h
          rw [if_pos halternative]
        · rename_i hname
          cases h
          rw [if_neg hname]
      · rename_i hword
        split at h
        · rename_i hquote
          have hstring := emit_string_line hquote after h
          simp only [braceStep, hword, hquote, Bool.false_eq_true, ↓reduceIte, hstring]
        · rename_i hquote
          split at h
          case h_3 =>
            rename_i htilde
            have htilde' := not_cons_line (by decide) htilde after
            cases h
            simp only [braceStep, hword, hquote, Bool.false_eq_true, ↓reduceIte]
            rfl
          all_goals first
            | cases h
              rfl
            | cases h

/-- A step between brackets is the same with a line end after the text. -/
theorem bracket_step_line {fresh colon : Bool} (after : Text)
    (h : bracketStep depth fresh colon t = .emit token s' rest) :
    bracketStep depth fresh colon (t ++ '\n' :: after) =
      .emit token s' (rest ++ '\n' :: after) := by
  cases t with
  | nil => cases h
  | cons c t =>
      rw [List.cons_append]
      simp only [bracketStep] at h ⊢
      split at h
      · rename_i hdigit
        have hread := emit_read_line after h
        rw [List.cons_append] at hread
        rw [if_pos hdigit, hread]
      · rename_i hdigit
        rw [if_neg hdigit]
        split at h
        · rename_i hcolon
          rw [if_pos hcolon]
          split at h
          · cases h
          · rename_i hfresh
            rw [if_neg hfresh]
            split at h
            · cases h
            · rename_i hfirst
              rw [if_neg hfirst]
              cases h
              rfl
        · rename_i hcolon
          rw [if_neg hcolon]
          split at h
          · rename_i hclose
            rw [if_pos hclose]
            cases h
            rfl
          · split at h <;> cases h

/-- Blank space and comments are dropped as they are without a line end after the text. If nothing
is left of the text, they are dropped after the line end, too, which closes a comment. -/
theorem drop_blank_line (inComment : Bool) (t after : Text) :
    dropBlank inComment (t ++ '\n' :: after) =
      if dropBlank inComment t = [] then dropBlank false after
      else dropBlank inComment t ++ '\n' :: after := by
  induction t generalizing inComment with
  | nil => cases inComment <;> rfl
  | cons c t ih =>
      simp only [List.cons_append, dropBlank]
      by_cases hcomment : inComment = true
      · simp only [hcomment, ↓reduceIte, ih]
      · by_cases hspace : isSpace c = true
        · simp only [hcomment, hspace, Bool.false_eq_true, ↓reduceIte, ih]
        · by_cases hsign : c = '#'
          · subst hsign
            simp only [hcomment, hspace, Bool.false_eq_true, ↓reduceIte, ih]
          · simp only [hcomment, hspace, hsign, Bool.false_eq_true, ↓reduceIte, reduceCtorEq,
              List.cons_append]

/-- A token is cut off a text with a line end after it as it is cut off the text. -/
theorem step_line (after : Text) (h : step s t = .emit token s' rest) :
    step s (t ++ '\n' :: after) = .emit token s' (rest ++ '\n' :: after) := by
  obtain ⟨depth, mode⟩ := s
  cases mode with
  | plain =>
      simp only [step] at h ⊢
      cases hdrop : dropBlank false t with
      | nil =>
          rw [hdrop] at h
          simp only [plainStep] at h
          split at h <;> cases h
      | cons c left =>
          rw [hdrop] at h
          rw [drop_blank_line, hdrop, if_neg (List.cons_ne_nil c left)]
          exact plain_step_line after h
  | braces =>
      simp only [step] at h ⊢
      cases hdrop : dropBlank false t with
      | nil =>
          rw [hdrop] at h
          cases h
      | cons c left =>
          rw [hdrop] at h
          rw [drop_blank_line, hdrop, if_neg (List.cons_ne_nil c left)]
          exact brace_step_line after h
  | brackets fresh colon =>
      simp only [step] at h ⊢
      cases t with
      | nil => cases h
      | cons c t =>
          have hfirst : (c :: t ++ '\n' :: after).head? = (c :: t).head? := rfl
          rw [hfirst, List.dropWhile_append]
          cases hdrop : (c :: t).dropWhile isSpace with
          | nil =>
              rw [hdrop] at h
              cases h
          | cons d left =>
              rw [hdrop] at h
              exact bracket_step_line after h

/-- Tokens are cut off a text with a line end after it as they are cut off the text. -/
theorem Cuts.line_end {tokens : List Token} (h : Cuts s t tokens s' rest) (after : Text) :
    Cuts s (t ++ '\n' :: after) tokens s' (rest ++ '\n' :: after) := by
  induction h with
  | done s t => exact .done _ _
  | next hstep _ ih => exact .next (step_line after hstep) ih

end QueryTidy.Token
