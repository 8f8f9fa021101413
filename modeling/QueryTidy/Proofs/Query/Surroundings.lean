import QueryTidy.Proofs.Query.Lookahead
import QueryTidy.Query.Format

/-!
# What surrounds a query

Blank space and comments around a query are never significant (`Token.Blank` is their grammar). In
front they are dropped before the first token, so that any text has the same tokens, or the same
fault, with them as without them (`Token.scan_blank_append`). After an accepted text the lexer is in
the plain mode with all parentheses closed, and nothing but blank space and perhaps an open comment
is left; a line end closes the comment, and what is blank after it is dropped (`Token.scan_line`).
The canonical form is made from the tokens, hence the two laws of `Query.format`.
-/

namespace QueryTidy

namespace Token

/-- A text of blank space and comments; each comment has the line end that closes it. -/
inductive Blank : Text → Prop
  | nil : Blank []
  | space {c : Char} {w : Text} : isSpace c = true → Blank w → Blank (c :: w)
  | comment {body w : Text} {c : Char} : (∀ d ∈ body, isLineEnd d = false) → isLineEnd c = true →
      Blank w → Blank ('#' :: (body ++ c :: w))

/-- A text with blank space and comments in front of it, or around it: what comes after the text
begins with a line end. -/
inductive Surrounded (s : Text) : Text → Prop
  | front {w : Text} : Blank w → Surrounded s (w ++ s)
  | around {w w' : Text} : Blank w → Blank w' → Surrounded s (w ++ (s ++ '\n' :: w'))

variable {s s' : LexState} {t w rest : Text} {depth : Nat} {tokens : List Token}

/-! ## In front -/

/-- A comment is dropped through its line end. -/
theorem drop_comment {body : Text} {c : Char} (hbody : ∀ d ∈ body, isLineEnd d = false)
    (hc : isLineEnd c = true) (t : Text) :
    dropBlank true (body ++ c :: t) = dropBlank false t := by
  induction body with
  | nil => simp [dropBlank, hc]
  | cons d body ih =>
      have hd := hbody d List.mem_cons_self
      rw [List.cons_append, dropBlank, if_pos rfl, hd]
      exact ih fun e he => hbody e (List.mem_cons_of_mem _ he)

/-- Blank space and comments in front of a text are dropped. -/
theorem Blank.drop (h : Blank w) (t : Text) : dropBlank false (w ++ t) = dropBlank false t := by
  induction h with
  | nil => rfl
  | @space c w hc _ ih => rw [List.cons_append, dropBlank, if_neg (by simp), if_pos hc, ih]
  | @comment body w c hbody hc _ ih =>
      have hsign : isSpace '#' = false := rfl
      rw [List.cons_append, dropBlank, if_neg (by simp), if_neg (by simp [hsign]), if_pos rfl,
        List.append_assoc, List.cons_append, drop_comment hbody hc, ih]

/-- With enough fuel the tokens of a text do not depend on it. -/
theorem scan_from_enough {fuel fuel' : Nat} (h : t.length < fuel) (h' : t.length < fuel') :
    scanFrom fuel s t = scanFrom fuel' s t := by
  induction fuel generalizing fuel' s t with
  | zero => omega
  | succ fuel ih =>
      obtain ⟨fuel', rfl⟩ : ∃ n, fuel' = n + 1 := ⟨fuel' - 1, by omega⟩
      simp only [scanFrom]
      cases hstep : step s t with
      | stop => rfl
      | fail e => rfl
      | emit token s' rest =>
          have hshorter := (step_leaves hstep).length
          simp only [ih (s := s') (show rest.length < fuel by omega)
            (show rest.length < fuel' by omega)]

/-- A text has the same tokens, or the same fault, with blank space and comments in front. -/
theorem scan_blank_append (h : Blank w) (t : Text) : scan (w ++ t) = scan t := by
  have hstep : step ⟨0, .plain⟩ (w ++ t) = step ⟨0, .plain⟩ t := by
    simp only [step, h.drop]
  simp only [scan, scanFrom, hstep]
  cases hfirst : step ⟨0, .plain⟩ t with
  | stop => rfl
  | fail e => rfl
  | emit token s rest =>
      have hshorter := (step_leaves hfirst).length
      have hlength : (w ++ t).length = w.length + t.length := List.length_append
      simp only [scan_from_enough (s := s) (show rest.length < (w ++ t).length by omega)
        (show rest.length < t.length by omega)]

/-! ## Where a text ends -/

/-- A step that reads a number or a duration does not end the text. -/
theorem emit_read_ne_stop (read : Except LexError (Token × Text)) : emitRead s read ≠ .stop := by
  cases read <;> exact LexStep.noConfusion

/-- A step that reads a string literal does not end the text. -/
theorem emit_string_ne_stop (quote : Char) : emitString s quote t ≠ .stop := by
  unfold emitString
  split <;> exact LexStep.noConfusion

/-- A text that goes on does not end in the plain mode. -/
theorem plain_step_ne_stop (c : Char) (t : Text) : plainStep depth (c :: t) ≠ .stop := by
  simp only [plainStep]
  split
  · exact emit_read_ne_stop _
  · split
    · exact LexStep.noConfusion
    · split
      · exact emit_string_ne_stop _
      · split
        case h_19 =>
          split
          · exact emit_read_ne_stop _
          · exact LexStep.noConfusion
        case h_21 => split <;> exact LexStep.noConfusion
        all_goals exact LexStep.noConfusion

/-- No text ends between braces. -/
theorem brace_step_ne_stop (t : Text) : braceStep depth t ≠ .stop := by
  cases t with
  | nil => exact LexStep.noConfusion
  | cons c t =>
      simp only [braceStep]
      split
      · split <;> exact LexStep.noConfusion
      · split
        · exact emit_string_ne_stop _
        · split <;> exact LexStep.noConfusion

/-- No text ends between brackets. -/
theorem bracket_step_ne_stop {fresh colon : Bool} (t : Text) :
    bracketStep depth fresh colon t ≠ .stop := by
  cases t with
  | nil => exact LexStep.noConfusion
  | cons c t =>
      simp only [bracketStep]
      split
      · exact emit_read_ne_stop _
      · split
        · split
          · exact LexStep.noConfusion
          · split <;> exact LexStep.noConfusion
        · split
          · exact LexStep.noConfusion
          · split <;> exact LexStep.noConfusion

/-- A text ends in the plain mode, with all parentheses closed, where only blank space and comments
are left. -/
theorem step_eq_stop (h : step s t = .stop) : s = ⟨0, .plain⟩ ∧ dropBlank false t = [] := by
  obtain ⟨depth, mode⟩ := s
  cases mode with
  | braces => exact absurd h (brace_step_ne_stop _)
  | brackets fresh colon => exact absurd h (bracket_step_ne_stop _)
  | plain =>
      simp only [step] at h
      cases hdrop : dropBlank false t with
      | cons c left =>
          rw [hdrop] at h
          exact absurd h (plain_step_ne_stop c left)
      | nil =>
          rw [hdrop] at h
          simp only [plainStep] at h
          split at h
          · rename_i hdepth
            exact ⟨by rw [hdepth], rfl⟩
          · cases h

/-- The tokens of a text are cut off it, up to where it ends. -/
theorem cuts_of_scan_from {fuel : Nat} (h : scanFrom fuel s t = .ok tokens)
    (hfuel : t.length < fuel) :
    ∃ s' rest, Cuts s t tokens s' rest ∧ step s' rest = .stop := by
  induction fuel generalizing s t tokens with
  | zero => omega
  | succ fuel ih =>
      simp only [scanFrom] at h
      cases hstep : step s t with
      | stop =>
          rw [hstep] at h
          cases h
          exact ⟨s, t, .done s t, hstep⟩
      | fail e =>
          rw [hstep] at h
          cases h
      | emit token s' rest =>
          rw [hstep] at h
          dsimp only at h
          split at h
          · rename_i more hmore
            cases h
            have hshorter := (step_leaves hstep).length
            obtain ⟨s'', rest', hcuts, hstop⟩ := ih hmore (by omega)
            exact ⟨s'', rest', .next hstep hcuts, hstop⟩
          · cases h

/-! ## After -/

/-- A text has the same tokens with a line end, blank space and comments after it. -/
theorem scan_line (h : scan t = .ok tokens) (hw : Blank w) :
    scan (t ++ '\n' :: w) = .ok tokens := by
  obtain ⟨s, rest, hcuts, hstop⟩ := cuts_of_scan_from h (Nat.lt_succ_self _)
  obtain ⟨rfl, hrest⟩ := step_eq_stop hstop
  refine (hcuts.line_end w).scan ?_
  have hdrop : dropBlank false (rest ++ '\n' :: w) = [] := by
    rw [drop_blank_line, if_pos hrest, ← List.append_nil w, hw.drop]
    rfl
  simp only [step, hdrop]
  rfl

end Token

namespace Query

open Token (Blank Surrounded)

variable {s s' w shown : Text}

/-- Blank space and comments in front of a text make no difference to what comes of it. -/
theorem format_blank_append (h : Blank w) (s : Text) : format (w ++ s) = format s := by
  unfold format Expr.parse
  rw [Token.scan_blank_append h]

/-- An accepted text is accepted with a line end, blank space and comments after it, too, and has
the same canonical form. -/
theorem format_line (hformat : format s = .formatted shown) (hw : Blank w) :
    format (s ++ '\n' :: w) = .formatted shown := by
  unfold format Expr.parse at hformat ⊢
  cases hscan : Token.scan s with
  | error e =>
      rw [hscan] at hformat
      cases hformat
  | ok tokens =>
      rw [hscan] at hformat
      rw [Token.scan_line hscan hw]
      exact hformat

/-- An accepted text has the same canonical form with blank space and comments around it. -/
theorem format_surrounded (hformat : format s = .formatted shown) (h : Surrounded s s') :
    format s' = .formatted shown := by
  cases h with
  | front hw => rw [format_blank_append hw, hformat]
  | around hw hw' => rw [format_blank_append hw, format_line hformat hw']

end Query

end QueryTidy
