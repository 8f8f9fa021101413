import QueryTidy.Proofs.Query.CutClauses
import QueryTidy.Proofs.Query.Progress

/-!
# Cutting canonical texts

The canonical text of a query whose parts are all `Part.Plain` is cut into the tokens of the query,
whether it is written on one line or over several. `Laid` says so of a text and its tokens; there is
one lemma for each way in which the printer puts texts together.
-/

namespace QueryTidy

open Token (Cuts Ends)

/-! ## Blanks in front -/

namespace Token

variable {depth : Nat} {s s' : LexState} {t rest : Text} {token : Token} {tokens : List Token}

/-- Tokens after blank space are there without it. -/
theorem Cuts.of_blank (blank : Text) (hblank : ∀ c ∈ blank, isSpace c = true)
    (h : Cuts ⟨depth, .plain⟩ (blank ++ t) (token :: tokens) s rest) :
    Cuts ⟨depth, .plain⟩ t (token :: tokens) s rest := by
  cases h with
  | next hstep hrest =>
      refine .next ?_ hrest
      simp only [step] at hstep ⊢
      rwa [drop_blank_append hblank] at hstep

/-- No token begins with a blank. -/
theorem step_blank {c : Char} (hblank : Text.isBlank c = true) (hspace : isSpace c = false) :
    ∃ e, step ⟨depth, .plain⟩ (c :: t) = .fail e := by
  have hvisible : ¬(0x21 ≤ c.toNat ∧ c.toNat ≤ 0x7E) := by
    intro h
    rw [not_blank_of_visible h] at hblank
    cases hblank
  have hne : ∀ d : Char, 0x21 ≤ d.toNat ∧ d.toNat ≤ 0x7E → c ≠ d := by
    rintro d hd rfl
    exact hvisible hd
  have hstart : isWordStart c = false := by
    by_contra h
    exact hvisible (word_start_visible (by simpa using h))
  have hname : ¬(Text.isNameStart c = true ∨ c = ':') := by
    simpa [isWordStart] using hstart
  have hdigit : Text.isDigit c = false := by
    by_contra h
    have h' : Text.isDigit c = true := by simpa using h
    simp only [Text.isDigit, Bool.and_eq_true, decide_eq_true_eq, Char.le_def,
      UInt32.le_iff_toNat_le] at h'
    have h0 : '0'.val.toNat = 48 := rfl
    have h9 : '9'.val.toNat = 57 := rfl
    refine hvisible ?_
    unfold Char.toNat
    omega
  have hquote : isQuote c = false := by
    simp [isQuote, hne '"' (by decide), hne '\'' (by decide), hne '\x60' (by decide)]
  have hdrop := drop_blank_cons ⟨hspace, hne '#' (by decide)⟩ t
  simp only [step, hdrop, plainStep, hdigit, if_neg hname, hquote, Bool.false_eq_true, ↓reduceIte]
  split
  all_goals first
    | exact absurd hblank (by decide)
    | exact ⟨_, rfl⟩

/-- Tokens after blanks are there without them. -/
theorem Cuts.trim_start (h : Cuts ⟨depth, .plain⟩ t (token :: tokens) s rest) :
    Cuts ⟨depth, .plain⟩ (Text.trimStart t) (token :: tokens) s rest := by
  induction t with
  | nil => exact h
  | cons c t ih =>
      rw [Text.trimStart, List.dropWhile_cons]
      split
      · rename_i hblank
        cases hspace : isSpace c with
        | true => exact ih (h.of_blank [c] (by simp [hspace]))
        | false =>
            obtain ⟨e, hstep⟩ := step_blank hblank hspace
            cases h with
            | next hnext _ =>
                rw [hstep] at hnext
                cases hnext
      · exact h

end Token

/-! ## Texts with their tokens -/

/-- The text consists of tokens, of which there are some, wherever it stands. -/
structure Laid (t : Text) (tokens : List Token) : Prop where
  nonempty : tokens ≠ []
  cuts : ∀ (depth : Nat) (rest : Text), Ends rest →
    Cuts ⟨depth, .plain⟩ (t ++ rest) tokens ⟨depth, .plain⟩ rest

namespace Laid

variable {t u : Text} {tokens tokens' : List Token}

/-- Blank space in front does not count. -/
theorem blank (h : Laid t tokens) {blank : Text}
    (hblank : ∀ c ∈ blank, Token.isSpace c = true) : Laid (blank ++ t) tokens where
  nonempty := h.nonempty
  cuts depth rest hrest := by
    have hcut := h.cuts depth rest hrest
    obtain ⟨token, tail, rfl⟩ := List.exists_cons_of_ne_nil h.nonempty
    rw [List.append_assoc]
    exact hcut.blank blank (.inl rfl) hblank

/-- An indentation consists of blank space. -/
theorem indent_space (level : Nat) : ∀ c ∈ Expr.indent level, Token.isSpace c = true := by
  intro c hc
  rw [List.eq_of_mem_replicate hc]
  rfl

/-- A text may be indented. -/
theorem indent (h : Laid t tokens) (level : Nat) : Laid (Expr.indent level ++ t) tokens :=
  h.blank (indent_space level)

/-- A text may be followed by another one. -/
theorem append (h : Laid t tokens)
    (hu : ∀ (depth : Nat) (rest : Text), Ends rest →
      Ends (u ++ rest) ∧ Cuts ⟨depth, .plain⟩ (u ++ rest) tokens' ⟨depth, .plain⟩ rest) :
    Laid (t ++ u) (tokens ++ tokens') where
  nonempty := by simp [h.nonempty]
  cuts depth rest hrest := by
    rw [List.append_assoc]
    exact (h.cuts depth _ (hu depth rest hrest).1).append (hu depth rest hrest).2

/-- A minus sign may stand before a text, without the blanks in front of the text. -/
theorem minus (h : Laid t tokens) : Laid ('-' :: Text.trimStart t) (.sign .minus :: tokens) where
  nonempty := List.cons_ne_nil _ _
  cuts depth rest hrest := by
    refine .next (Token.step_minus _ _) ?_
    obtain ⟨token, tail, rfl⟩ := List.exists_cons_of_ne_nil h.nonempty
    have hsome : Text.trimStart t ≠ [] := by
      intro hnil
      have hcut := (h.cuts depth [] rfl).trim_start
      rw [List.append_nil, hnil] at hcut
      cases hcut with
      | next hstep _ =>
          revert hstep
          simp only [Token.step, Token.dropBlank, Token.plainStep]
          split <;> exact LexStep.noConfusion
    have htrim : Text.trimStart (t ++ rest) = Text.trimStart t ++ rest := by
      rw [Text.trimStart, List.dropWhile_append, if_neg]
      · rfl
      · exact fun h => hsome (List.isEmpty_iff.1 h)
    have hcut := (h.cuts depth rest hrest).trim_start
    rwa [htrim] at hcut

/-- What ends a word may have blank space before it. -/
theorem ends_blank {blank rest : Text} (hblank : ∀ c ∈ blank, Token.isSpace c = true)
    (hrest : Ends rest) : Ends (blank ++ rest) := by
  cases blank with
  | nil => exact hrest
  | cons c blank =>
      rcases Token.is_space_cases (hblank c List.mem_cons_self) with rfl | rfl | rfl | rfl | rfl
      all_goals rfl

end Laid

/-- The text consists of tokens if an opening parenthesis follows. -/
def Heads (head : Text) (tokens : List Token) : Prop :=
  ∀ (depth : Nat) (t : Text) (inner : List Token) (s : LexState) (rest : Text),
    Cuts ⟨depth, .plain⟩ ('(' :: t) (.sign .leftParen :: inner) s rest →
      Cuts ⟨depth, .plain⟩ (head ++ '(' :: t) (tokens ++ .sign .leftParen :: inner) s rest

/-- Nothing may stand before an opening parenthesis. -/
theorem heads_nil : Heads [] [] :=
  fun _ _ _ _ _ h => h

/-- A word may stand before an opening parenthesis. -/
theorem heads_word {word : Text} (h : Token.IsWord word) : Heads word [Token.ofWord word] :=
  fun _ _ _ _ _ hcut => .next (Token.step_word h rfl) hcut

/-- The operator and the labels of an aggregation stand before an opening parenthesis. -/
theorem heads_aggregate (op : AggregateOp) {grouping : Option Grouping}
    (h : ∀ g ∈ grouping, (Part.grouping g).Plain) :
    Heads (op.word ++ Grouping.toText grouping)
      (.reserved (.aggregate op) op.word :: grouping.toList.flatMap Grouping.tokens) := by
  intro depth t inner s rest hcut
  rw [List.append_assoc]
  cases grouping with
  | none => exact .next (Token.step_reserved (.aggregate op) rfl) hcut
  | some g =>
      have hends : Ends (Grouping.toText (some g) ++ '(' :: t) := by
        rw [grouping_to_text (h g rfl).2]
        rfl
      have hgroup : Cuts ⟨depth, .plain⟩ _ _ _ _ := cuts_grouping (h g rfl) ('(' :: t)
      have hclause := hgroup.append hcut.space
      have hword : (Reserved.aggregate op).word = op.word := rfl
      simpa [hword] using Cuts.next (Token.step_reserved (.aggregate op) hends) hclause

/-- Texts between parentheses, separated by commas, with blank space in three places. -/
theorem Laid.enclosed {head : Text} {tokens : List Token} (hhead : Heads head tokens)
    (first between last : Text) (hfirst : ∀ c ∈ first, Token.isSpace c = true)
    (hbetween : ∀ c ∈ between, Token.isSpace c = true)
    (hlast : ∀ c ∈ last, Token.isSpace c = true) {items : List (Text × List Token)}
    (hitems : ∀ item ∈ items, Laid item.1 item.2) :
    Laid (head ++ '(' ::
        (first ++ (Text.join (',' :: between) (items.map Prod.fst) ++ (last ++ [')']))))
      (tokens ++ .sign .leftParen ::
        (Token.commas (items.map Prod.snd) ++ [.sign .rightParen])) where
  nonempty := by simp
  cuts depth rest hrest := by
    have hclose : Cuts ⟨depth + 1, .plain⟩ (last ++ ')' :: rest) [.sign .rightParen]
        ⟨depth, .plain⟩ rest :=
      Cuts.blank last (.inl rfl) hlast (.one (Token.step_close _ _))
    have hinner := (Token.cuts_commas (s := ⟨depth + 1, .plain⟩) (.inl rfl) between hbetween Ends
      (fun _ => rfl) items (fun item hitem => ⟨(hitems item hitem).nonempty,
        (hitems item hitem).cuts (depth + 1)⟩) (last ++ ')' :: rest)
      (ends_blank hlast rfl)).append hclose
    have htext : head ++ '(' :: (first ++ (Text.join (',' :: between) (items.map Prod.fst) ++
        (last ++ [')']))) ++ rest =
          head ++ '(' :: (first ++ (Text.join (',' :: between) (items.map Prod.fst) ++
            (last ++ ')' :: rest))) := by
      simp
    rw [htext]
    refine hhead _ _ _ _ _ (.next (Token.step_open _ _) ?_)
    obtain ⟨token, tail, hcons⟩ := List.exists_cons_of_ne_nil
      (List.append_ne_nil_of_right_ne_nil (Token.commas (items.map Prod.snd))
        (List.cons_ne_nil (Token.sign .rightParen) []))
    rw [hcons] at hinner ⊢
    exact hinner.blank first (.inl rfl) hfirst

/-- Texts between parentheses on one line. -/
theorem Laid.one_line {head : Text} {tokens : List Token} (hhead : Heads head tokens)
    (items : List (Text × List Token)) (hitems : ∀ item ∈ items, Laid item.1 item.2) :
    Laid (head ++ '(' :: (commaList (items.map Prod.fst) ++ [')']))
      (tokens ++ .sign .leftParen ::
        (Token.commas (items.map Prod.snd) ++ [.sign .rightParen])) :=
  Laid.enclosed hhead [] [' '] [] (by simp) Token.blank_space (by simp) hitems

/-- Texts between parentheses on lines of their own. -/
theorem Laid.block {head : Text} {tokens : List Token} (hhead : Heads head tokens)
    (level : Nat) (items : List (Text × List Token))
    (hitems : ∀ item ∈ items, Laid item.1 item.2) :
    Laid (Expr.block level head (items.map Prod.fst))
      (tokens ++ .sign .leftParen ::
        (Token.commas (items.map Prod.snd) ++ [.sign .rightParen])) := by
  have hlast : ∀ c ∈ '\n' :: Expr.indent level, Token.isSpace c = true := by
    intro c hc
    rcases List.mem_cons.1 hc with rfl | hc
    · rfl
    · exact Laid.indent_space level c hc
  have hlaid := (Laid.enclosed hhead ['\n'] ['\n'] ('\n' :: Expr.indent level)
    Token.blank_line Token.blank_line hlast hitems).indent level
  have htext : Expr.block level head (items.map Prod.fst) =
      Expr.indent level ++ (head ++ '(' :: (['\n'] ++
        (Text.join (',' :: ['\n']) (items.map Prod.fst) ++
          ('\n' :: Expr.indent level ++ [')'])))) := by
    simp [Expr.block]
  rwa [htext]

/-! ## Queries -/

/-- The name of a function is an identifier. -/
theorem function_word {f : Signature} (h : Signature.ofName? f.name = some f) :
    Token.IsWord f.name ∧ Token.ofWord f.name = .identifier f.name := by
  have hall : Signature.all.all (fun f => f.name.head?.any Token.isWordStart &&
      (f.name.all Token.isWordRest &&
        decide (Token.ofWord f.name = .identifier f.name))) = true := by
    decide +kernel
  have hf := List.all_eq_true.1 hall f (List.mem_of_find?_eq_some h)
  simp only [Bool.and_eq_true, decide_eq_true_eq, List.all_eq_true] at hf
  exact ⟨⟨hf.1, hf.2.1⟩, hf.2.2⟩

/-- A selector that obeys its rules has tokens. -/
theorem head_tokens_ne_nil {s : Selector} (h : s.check = .ok ()) : s.headTokens ≠ [] := by
  unfold Selector.headTokens
  cases hname : s.name with
  | some name => simp
  | none =>
      have hmatchers : s.selection.matchers ≠ [] := by
        intro hnil
        simp [Selector.check, hname, hnil, require] at h
      simp [Selection.isEmpty, hmatchers]

/-- The timing of a selector does not continue a word before it. -/
theorem ends_timing (t : Timing) {rest : Text} (hrest : Ends rest) : Ends (t.toText ++ rest) := by
  obtain ⟨offset, instant⟩ := t
  cases instant with
  | some i => rfl
  | none =>
      cases offset with
      | some o => rfl
      | none => exact hrest

/-- A number is cut whole. -/
theorem laid_number {value : Binary64} (hread : value.IsCanonical) :
    Laid value.literal value.tokens where
  nonempty := by
    unfold Binary64.tokens
    split <;> simp
  cuts _ _ := cuts_number hread

/-- A string literal is cut whole. -/
theorem laid_string {raw : Text} (hread : Token.Quotable raw) :
    Laid ('"' :: (raw ++ ['"'])) [.string raw] where
  nonempty := List.cons_ne_nil _ _
  cuts depth rest _ := by simpa using Cuts.one (Token.step_string hread rest)

/-- A selector is cut whole. -/
theorem laid_vector {s : Selector} (hcheck : s.check = .ok ())
    (hplain : ∀ part ∈ s.parts, part.Plain) :
    Laid (s.head ++ s.timing.toText) (s.headTokens ++ s.timing.tokens) := by
  obtain ⟨⟨hname, hread⟩, hshown⟩ := hplain _ List.mem_cons_self
  refine Laid.append ⟨head_tokens_ne_nil hcheck, fun _ _ => cuts_head hname hread hshown⟩ ?_
  exact fun _ _ hrest => ⟨ends_timing _ hrest,
    cuts_timing (fun part hpart => hplain part (List.mem_cons_of_mem _ hpart)) hrest⟩

/-- A selector with a range is cut whole. -/
theorem laid_matrix {s : Selector} {range : Duration} (hcheck : s.check = .ok ())
    (hplain : ∀ part ∈ s.parts, part.Plain) (hrange : (Part.span range).Plain) :
    Laid (s.head ++ '[' :: (range.toText ++ ']' :: s.timing.toText))
      (s.headTokens ++ (Expr.rangeTokens range ++ s.timing.tokens)) := by
  obtain ⟨⟨hname, hread⟩, hshown⟩ := hplain _ List.mem_cons_self
  refine Laid.append ⟨head_tokens_ne_nil hcheck, fun _ _ => cuts_head hname hread hshown⟩ ?_
  intro depth rest hrest
  refine ⟨rfl, ?_⟩
  have htiming : Cuts ⟨depth, .plain⟩ _ _ _ _ :=
    cuts_timing (fun part hpart => hplain part (List.mem_cons_of_mem _ hpart)) hrest
  simpa using (cuts_range hrange.2.1 (s.timing.toText ++ rest)).append htiming

/-- The range, the step and the timing of a subquery are cut whole. -/
theorem cuts_subquery_text {range : Duration} {step : Option Duration} {timing : Timing}
    (hrange : (Part.span range).Plain) (hstep : ∀ d ∈ step, (Part.step d).Plain)
    (htiming : ∀ part ∈ timing.parts, part.Plain) {depth : Nat} {rest : Text} (hrest : Ends rest) :
    Cuts ⟨depth, .plain⟩ (Expr.subqueryText range step timing ++ rest)
      (Expr.subqueryTokens range step ++ timing.tokens) ⟨depth, .plain⟩ rest := by
  have hbrackets : Cuts ⟨depth, .plain⟩ _ _ _ _ :=
    cuts_subquery hrange.2.1 (fun d hd => (hstep d hd).2.1) (timing.toText ++ rest)
  simpa [Expr.subqueryText] using hbrackets.append (cuts_timing htiming hrest)

/-- Blank space between the parts of a binary operation. -/
def Separates (blank : Text) : Prop :=
  (∀ c ∈ blank, Token.isSpace c = true) ∧ ∃ c t, blank = c :: t ∧ (c = ' ' ∨ c = '\n')

/-- What begins with such blank space ends a word. -/
theorem Separates.ends {blank : Text} (h : Separates blank) (rest : Text) :
    Ends (blank ++ rest) := by
  obtain ⟨-, c, t, rfl, rfl | rfl⟩ := h <;> rfl

/-- The texts of two operands are put together with an operator and its modifier, with blank space
before the operator and before the right operand. -/
theorem laid_binary {left right before after : Text} {tokens tokens' : List Token} (op : BinaryOp)
    {m : Modifier} (hleft : Laid left tokens) (hright : Laid right tokens')
    (hm : (Part.modifier m).Plain) (hbefore : Separates before) (hafter : Separates after) :
    Laid (left ++ (before ++ (op.word ++ (m.toText ++ (after ++ right)))))
      (tokens ++ op.token :: (m.tokens ++ tokens')) := by
  refine hleft.append fun depth rest hrest => ?_
  simp only [List.append_assoc]
  have hcut := (hright.blank hafter.1).cuts depth rest hrest
  rw [List.append_assoc] at hcut
  have hmodifier := (cuts_modifier hm (hafter.ends (right ++ rest))).append hcut
  have hstep : Token.step ⟨depth, .plain⟩
      (op.word ++ (m.toText ++ (after ++ (right ++ rest)))) =
        .emit op.token ⟨depth, .plain⟩ (m.toText ++ (after ++ (right ++ rest))) := by
    obtain ⟨-, c, t, hcons, hc⟩ := hafter
    rcases modifier_text_cases m with htext | ⟨u, htext⟩
    · rw [htext, hcons]
      exact step_operator op hc _
    · rw [htext]
      exact step_operator op (.inl rfl) _
  exact ⟨hbefore.ends _, .blank before (.inl rfl) hbefore.1 (.next hstep hmodifier)⟩

namespace Expr

/-- The texts of queries on one line each. -/
theorem one_lines_eq (es : List Expr) : oneLines es = es.map oneLine := by
  induction es with
  | nil => rfl
  | cons e es ih => rw [oneLines, ih, List.map_cons]

/-- The layouts of queries. -/
theorem layouts_eq (level : Nat) (es : List Expr) : layouts level es = es.map (layout level) := by
  induction es with
  | nil => rfl
  | cons e es ih => rw [layouts, ih, List.map_cons]

/-- The text of an aggregation has its parameter and its operand as arguments. -/
theorem one_line_aggregate (op : AggregateOp) (grouping : Option Grouping) (param : Option Expr)
    (inner : Expr) :
    oneLine (.aggregate op grouping param inner) =
      op.word ++ Grouping.toText grouping ++ '(' ::
        (commaList ((param.toList ++ [inner]).map oneLine) ++ [')']) := by
  cases param <;> simp [oneLine, commaList, Text.join]

/-- The layout of an aggregation has its parameter and its operand on lines of their own, unless it
fits on one line. -/
theorem layout_aggregate (k : Nat) (op : AggregateOp) (grouping : Option Grouping)
    (param : Option Expr) (inner : Expr) :
    layout k (.aggregate op grouping param inner) =
      if isLong (.aggregate op grouping param inner) then
        block k (op.word ++ Grouping.toText grouping)
          ((param.toList ++ [inner]).map (layout (k + 1)))
      else indent k ++ oneLine (.aggregate op grouping param inner) := by
  cases param <;> rw [layout] <;> rfl

/-- A query that encloses others in parentheses, on one line or on lines of their own, consists of
the tokens before the parenthesis and of theirs. -/
theorem laid_enclosing {e : Expr} {head : Text} {before : List Token} (hhead : Heads head before)
    (es : List Expr)
    (hes : ∀ inner ∈ es, Laid inner.oneLine inner.tokens ∧ ∀ k, Laid (inner.layout k) inner.tokens)
    (htokens : e.tokens = before ++ .sign .leftParen ::
      (Token.commas (es.map tokens) ++ [.sign .rightParen]))
    (hline : e.oneLine = head ++ '(' :: (commaList (es.map oneLine) ++ [')']))
    (hlayout : ∀ k, e.layout k =
      if e.isLong then block k head (es.map (layout (k + 1))) else indent k ++ e.oneLine) :
    Laid e.oneLine e.tokens ∧ ∀ k, Laid (e.layout k) e.tokens := by
  have hone : Laid e.oneLine e.tokens := by
    have h := Laid.one_line hhead (es.map fun inner => (inner.oneLine, inner.tokens)) (by
      simpa using fun inner hinner => (hes inner hinner).1)
    rw [List.map_map, List.map_map] at h
    rw [hline, htokens]
    exact h
  refine ⟨hone, fun k => ?_⟩
  rw [hlayout]
  split
  · have h := Laid.block hhead k (es.map fun inner => (inner.layout (k + 1), inner.tokens)) (by
      simpa using fun inner hinner => (hes inner hinner).2 (k + 1))
    rw [List.map_map, List.map_map] at h
    rw [htokens]
    exact h
  · exact hone.indent k

/-- The text of a binary operation on one line and its layout consist of the tokens of its operands,
its operator and a modifier with the same text. -/
theorem laid_operation {left right : Expr} {tokens tokens' : List Token} (op : BinaryOp)
    {m m' : Modifier} (hm : (Part.modifier m').Plain) (htext : m.toText = m'.toText)
    (hleft : Laid left.oneLine tokens ∧ ∀ k, Laid (left.layout k) tokens)
    (hright : Laid right.oneLine tokens' ∧ ∀ k, Laid (right.layout k) tokens') :
    Laid (oneLine (.binary op m left right)) (tokens ++ op.token :: (m'.tokens ++ tokens')) ∧
      ∀ k, Laid (layout k (.binary op m left right))
        (tokens ++ op.token :: (m'.tokens ++ tokens')) := by
  have hspace : Separates [' '] := ⟨Token.blank_space, ' ', [], rfl, .inl rfl⟩
  have hline := laid_binary op hleft.1 hright.1 hm hspace hspace
  have hone : oneLine (.binary op m left right) =
      oneLine left ++ ([' '] ++ (op.word ++ (m'.toText ++ ([' '] ++ oneLine right)))) := by
    simp [oneLine, htext]
  rw [← hone] at hline
  refine ⟨hline, fun k => ?_⟩
  rw [layout]
  split
  · have hbreak : Separates ('\n' :: indent k) := by
      refine ⟨fun c hc => ?_, '\n', _, rfl, .inr rfl⟩
      rcases List.mem_cons.1 hc with rfl | hc
      · rfl
      · exact Laid.indent_space k c hc
    have hnewline : Separates ['\n'] := ⟨Token.blank_line, '\n', [], rfl, .inr rfl⟩
    have hlines := laid_binary op (hleft.2 (k + 1)) (hright.2 (k + 1)) hm hbreak hnewline
    simpa [htext] using hlines
  · exact hline.indent k

/-- The text of a query on one line and its layout consist of the tokens of the query. -/
theorem Reads.laid {level : Nat} {e : Expr} (h : e.Reads level)
    (hplain : ∀ part ∈ e.parts, part.Plain) :
    Laid e.oneLine e.tokens ∧ ∀ k, Laid (e.layout k) e.tokens := by
  induction h with
  | @number _ value _ =>
      have hone := laid_number (hplain (.number value) List.mem_cons_self).1
      exact ⟨hone, hone.indent⟩
  | @string _ raw =>
      have hone := laid_string (hplain (.string raw) List.mem_cons_self).1
      exact ⟨hone, hone.indent⟩
  | vector hcheck =>
      have hone := laid_vector hcheck hplain
      exact ⟨hone, hone.indent⟩
  | @matrix _ s range hcheck =>
      have hone := laid_matrix hcheck (fun part hpart => hplain part (List.mem_cons_of_mem _ hpart))
        (hplain _ List.mem_cons_self)
      have htext : oneLine (.matrix s range) =
          s.head ++ '[' :: (range.toText ++ ']' :: s.timing.toText) := by
        simp [oneLine]
      rw [← htext] at hone
      exact ⟨hone, hone.indent⟩
  | @subquery _ inner range step timing _ _ ih =>
      obtain ⟨hinner, hrange, hstep, htiming⟩ := forall_parts_subquery.1 hplain
      have hclause : ∀ (depth : Nat) (rest : Text), Ends rest →
          Ends (subqueryText range step timing ++ rest) ∧
            Cuts ⟨depth, .plain⟩ (subqueryText range step timing ++ rest)
              (subqueryTokens range step ++ timing.tokens) ⟨depth, .plain⟩ rest :=
        fun _ _ hrest => ⟨rfl, cuts_subquery_text hrange hstep htiming hrest⟩
      obtain ⟨hone, hlayout⟩ := ih hinner
      exact ⟨hone.append hclause, fun k => (hlayout k).append hclause⟩
  | @paren _ inner _ ih =>
      refine laid_enclosing heads_nil [inner] (by simpa using ih hplain) ?_ rfl fun k => ?_
      · simp [tokens, Token.commas]
      · rw [layout]
        rfl
  | @negative _ inner _ _ _ _ ih =>
      obtain ⟨hone, hlayout⟩ := ih hplain
      exact ⟨⟨List.cons_ne_nil _ _, fun depth rest hrest =>
          .next (Token.step_minus _ _) (hone.cuts depth rest hrest)⟩,
        fun k => (hlayout k).minus.indent k⟩
  | @binary _ op m left right _ _ _ _ _ ihleft ihright =>
      obtain ⟨hm, hleft, hright⟩ := forall_parts_binary.1 hplain
      exact laid_operation op hm rfl (ihleft hleft) (ihright hright)
  | @call _ f args hf _ _ ih =>
      have hhead := heads_word (function_word hf).1
      rw [(function_word hf).2] at hhead
      refine laid_enclosing hhead args (fun arg harg => ?_) ?_ ?_ fun k => ?_
      · exact ih arg harg (forall_parts_call.1 hplain arg harg)
      · rw [tokens, tokens_all_eq]
        rfl
      · simp [oneLine, one_lines_eq]
      · rw [layout, layouts_eq]
  | @aggregate _ op grouping param inner _ _ _ _ ihparam ih =>
      obtain ⟨hgrouping, hparam, hinner⟩ := forall_parts_aggregate.1 hplain
      have hhead := heads_aggregate op hgrouping
      refine laid_enclosing hhead (param.toList ++ [inner]) (fun arg harg => ?_)
        (tokens_aggregate op grouping param inner) (one_line_aggregate op grouping param inner)
        fun k => layout_aggregate k op grouping param inner
      rcases List.mem_append.1 harg with hp | hlast
      · have hp := Option.mem_toList.1 hp
        exact ihparam arg hp (hparam arg hp)
      · obtain rfl := List.mem_singleton.1 hlast
        exact ih hinner

/-- The canonical text of a query, with blank space after it, has the tokens of the query. -/
theorem Reads.scan_pretty {level : Nat} {e : Expr} (h : e.Reads level)
    (hplain : ∀ part ∈ e.parts, part.Plain) {blank : Text}
    (hblank : ∀ c ∈ blank, Token.isSpace c = true) :
    Token.scan (e.pretty ++ blank) = .ok e.tokens := by
  have hends : Ends blank := by
    rw [← List.append_nil blank]
    exact Laid.ends_blank hblank rfl
  refine (((h.laid hplain).2 0).cuts 0 blank hends).scan ?_
  have hdrop := Token.drop_blank_append hblank []
  rw [List.append_nil] at hdrop
  simp only [Token.step, hdrop, Token.dropBlank, Token.plainStep, ↓reduceIte]

end Expr

end QueryTidy
