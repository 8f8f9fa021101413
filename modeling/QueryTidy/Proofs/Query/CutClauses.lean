import QueryTidy.Proofs.Query.CutParts

/-!
# Cutting clauses

The clauses of a query are the texts that stand beside its operands: the ranges and steps in
brackets, the timing after a selector, the modifier after an operator, the labels of an aggregation.
Each is cut into its tokens, as is a literal.
-/

namespace QueryTidy

open Token (Cuts Ends EndsName)

variable {depth : Nat} {rest : Text}

/-! ## Clauses that begin with a space -/

/-- Texts with a space before each of them. -/
def spaced (clauses : List (Text × List Token)) : Text :=
  clauses.flatMap fun clause => ' ' :: clause.1

/-- Clauses with a space before each are cut one after the other. -/
theorem cuts_spaced {clauses : List (Text × List Token)}
    (h : ∀ clause ∈ clauses, clause.2 ≠ [] ∧
      ∀ rest, Ends rest → Cuts ⟨depth, .plain⟩ (clause.1 ++ rest) clause.2 ⟨depth, .plain⟩ rest)
    (hrest : Ends rest) :
    Cuts ⟨depth, .plain⟩ (spaced clauses ++ rest) (clauses.flatMap Prod.snd)
      ⟨depth, .plain⟩ rest := by
  induction clauses with
  | nil => exact .done _ _
  | cons clause clauses ih =>
      obtain ⟨hne, hcut⟩ := h clause List.mem_cons_self
      have hmore := ih fun c hc => h c (List.mem_cons_of_mem _ hc)
      have hends : Ends (spaced clauses ++ rest) := by
        cases clauses with
        | nil => exact hrest
        | cons next clauses => rfl
      have hfirst := (hcut _ hends).append hmore
      obtain ⟨token, tokens, hcons⟩ := List.exists_cons_of_ne_nil hne
      have htext : spaced (clause :: clauses) ++ rest =
          ' ' :: (clause.1 ++ (spaced clauses ++ rest)) := by
        simp [spaced]
      rw [htext, List.flatMap_cons]
      rw [hcons] at hfirst ⊢
      exact hfirst.space

/-- Clauses with a space after each have the same text as those with a space before each, but for
the outermost spaces. -/
theorem trim_clauses {clauses : List Text}
    (h : ∀ clause ∈ clauses, ∃ body c, clause = body ++ [c] ∧ Text.isBlank c = false) :
    (let written := clauses.flatMap fun clause => clause ++ [' ']
      if written.isEmpty then [] else ' ' :: Text.trimEnd written) =
        clauses.flatMap fun clause => ' ' :: clause := by
  have hshift : (clauses.flatMap fun clause => ' ' :: clause) ++ [' '] =
      ' ' :: clauses.flatMap fun clause => clause ++ [' '] := by
    induction clauses with
    | nil => rfl
    | cons clause clauses ih =>
        rw [List.flatMap_cons, List.flatMap_cons, List.append_assoc,
          ih fun c hc => h c (List.mem_cons_of_mem _ hc)]
        simp
  have hlast : clauses = [] ∨ ∃ body c, (clauses.flatMap fun clause => ' ' :: clause) =
      ' ' :: (body ++ [c]) ∧ Text.isBlank c = false := by
    rcases List.eq_nil_or_concat clauses with rfl | ⟨front, clause, rfl⟩
    · exact .inl rfl
    · obtain ⟨body, c, hclause, hc⟩ := h clause (by simp)
      right
      cases front with
      | nil => exact ⟨body, c, by simp [hclause], hc⟩
      | cons first front =>
          exact ⟨first ++ (front.flatMap fun clause => ' ' :: clause) ++ ' ' :: body, c,
            by simp [hclause], hc⟩
  rcases hlast with rfl | ⟨body, c, htext, hc⟩
  · rfl
  · rw [htext, List.cons_append, List.cons.injEq] at hshift
    have hspace : Text.isBlank ' ' = true := by decide
    have htrim : Text.trimEnd (body ++ [c] ++ [' ']) = body ++ [c] := by
      simp [Text.trimEnd, Text.dropEndWhile, hspace, hc]
    simp only [← hshift.2, htrim, htext]
    simp

/-! ## Timing -/

namespace Instant

/-- The digits of an evaluation time, if there are any, are a number in positional notation. -/
theorem digits_numeral {negative : Bool} {millis : Nat} (h : digits negative millis ≠ []) :
    ∃ whole places, digits negative millis = numeral whole places ∧ IsWhole whole ∧
      ArePlaces places := by
  have hfixed : ∀ v : Binary64, v.fixed 3 ≠ [] →
      ∃ whole places, v.fixed 3 = numeral whole places ∧ IsWhole whole ∧ ArePlaces places := by
    intro v hv
    cases v with
    | nan => exact absurd rfl hv
    | infinite negative => exact absurd rfl hv
    | finite negative m e =>
        refine ⟨_, some _, rfl, is_whole_of_nat _, fun c hc => ?_⟩
        rcases List.mem_append.1 hc with hc | hc
        · rw [List.eq_of_mem_replicate hc]
          rfl
        · exact Text.of_nat_digits hc
  revert h
  unfold digits
  split
  · exact hfixed _
  · exact fun h => absurd rfl h

/-- The text of an evaluation time that is a number. -/
theorem to_text_time (negative : Bool) (millis : Nat) :
    (time negative millis).toText = "@ ".toList ++ digits negative millis := by
  unfold digits
  delta toText
  rfl

/-- The digits of an evaluation time that is read again are a number. -/
theorem digits_ne_nil {negative : Bool} {millis : Nat}
    (h : (time negative millis).reread.isSome = true) : digits negative millis ≠ [] := by
  intro hnil
  rw [reread, hnil] at h
  exact absurd h (by decide)

end Instant

/-- An evaluation time is cut whole. -/
theorem cuts_instant {i : Instant} (h : i.reread.isSome = true) (hrest : Ends rest) :
    Cuts ⟨depth, .plain⟩ (i.toText ++ rest) i.tokens ⟨depth, .plain⟩ rest := by
  have hparens : Cuts ⟨depth, .plain⟩ ("()".toList ++ rest)
      [.sign .leftParen, .sign .rightParen] ⟨depth, .plain⟩ rest :=
    .next (Token.step_open _ _) (.one (Token.step_close _ _))
  have hat : ∀ {t : Text} {token : Token} {tokens : List Token},
      Cuts ⟨depth, .plain⟩ t (token :: tokens) ⟨depth, .plain⟩ rest →
        Cuts ⟨depth, .plain⟩ ("@ ".toList ++ t) (.sign .at :: token :: tokens)
          ⟨depth, .plain⟩ rest :=
    fun h => .next rfl h.space
  cases i with
  | start =>
      have htext : Instant.start.toText ++ rest =
          "@ ".toList ++ (Reserved.start.word ++ ("()".toList ++ rest)) := rfl
      rw [htext]
      exact hat (.next (Token.step_reserved .start rfl) hparens)
  | finish =>
      have htext : Instant.finish.toText ++ rest =
          "@ ".toList ++ (Reserved.finish.word ++ ("()".toList ++ rest)) := rfl
      rw [htext]
      exact hat (.next (Token.step_reserved .finish rfl) hparens)
  | time negative millis =>
      obtain ⟨whole, places, htext, hwhole, hplaces⟩ :=
        Instant.digits_numeral (Instant.digits_ne_nil h)
      have hnumber : Cuts ⟨depth, .plain⟩ (Instant.digits negative millis ++ rest)
          [.number (Instant.digits negative millis)] ⟨depth, .plain⟩ rest := by
        rw [htext]
        exact .one (Token.step_numeral hwhole hplaces hrest)
      rw [Instant.to_text_time, List.append_assoc]
      exact hat hnumber

/-- An offset is cut whole. -/
theorem cuts_offset {o : Offset} (h : 0 < o.span.millis) (hrest : Ends rest) :
    Cuts ⟨depth, .plain⟩ (o.toText ++ rest) o.tokens ⟨depth, .plain⟩ rest := by
  have hspan : Cuts ⟨depth, .plain⟩ (o.span.toText ++ rest) [.duration o.span.toText]
      ⟨depth, .plain⟩ rest :=
    .one (step_duration h hrest.name)
  have hword : ∀ {t : Text} {token : Token} {tokens : List Token},
      Cuts ⟨depth, .plain⟩ t (token :: tokens) ⟨depth, .plain⟩ rest →
        Cuts ⟨depth, .plain⟩ (Reserved.offset.word ++ ' ' :: t)
          (.reserved .offset Reserved.offset.word :: token :: tokens) ⟨depth, .plain⟩ rest :=
    fun h => .next (Token.step_reserved .offset rfl) h.space
  have htext : o.toText ++ rest =
      Reserved.offset.word ++
        ' ' :: ((if o.negative then ['-'] else []) ++ (o.span.toText ++ rest)) := by
    rw [← List.append_assoc]
    rfl
  rw [htext, Offset.tokens]
  cases o.negative with
  | false => exact hword hspan
  | true => exact hword (.next (Token.step_minus _ _) hspan)

/-- The clauses of a timing. -/
def Timing.clauses (t : Timing) : List (Text × List Token) :=
  t.instant.toList.map (fun i => (i.toText, i.tokens)) ++
    t.offset.toList.map fun o => (o.toText, o.tokens)

/-- The timing of a selector or a subquery is cut whole. -/
theorem cuts_timing {t : Timing} (h : ∀ part ∈ t.parts, part.Plain) (hrest : Ends rest) :
    Cuts ⟨depth, .plain⟩ (t.toText ++ rest) t.tokens ⟨depth, .plain⟩ rest := by
  have htext : t.toText = spaced t.clauses := by
    obtain ⟨offset, instant⟩ := t
    cases offset <;> cases instant <;> simp [Timing.toText, Timing.clauses, spaced]
  have htokens : t.tokens = t.clauses.flatMap Prod.snd := by
    simp [Timing.tokens, Timing.clauses, List.flatMap_map]
  rw [htext, htokens]
  refine cuts_spaced (fun clause hclause => ?_) hrest
  rcases List.mem_append.1 hclause with hmem | hmem
  · obtain ⟨i, hi, rfl⟩ := List.mem_map.1 hmem
    have hplain : (Part.instant i).Plain :=
      h _ (List.mem_append_left _ (List.mem_map_of_mem hi))
    have hsome : i.reread.isSome = true := by rw [hplain.2]; rfl
    exact ⟨by cases i <;> simp [Instant.tokens], fun rest hrest => cuts_instant hsome hrest⟩
  · obtain ⟨o, ho, rfl⟩ := List.mem_map.1 hmem
    have hplain : (Part.span o.span).Plain :=
      h _ (List.mem_append_right _ (List.mem_map.2 ⟨o, ho, rfl⟩))
    exact ⟨by simp [Offset.tokens], fun rest hrest => cuts_offset hplain.2.1 hrest⟩

/-! ## Modifiers -/

/-- A word with labels after it. -/
def Reserved.labelText (w : Reserved) (labels : List Text) : Text :=
  w.word ++ ' ' :: labelList labels

/-- Labels after a word are cut whole. -/
theorem cuts_label_text (w : Reserved) {labels : List Text} (h : ∀ l ∈ labels, IsLabel l)
    (rest : Text) :
    Cuts ⟨depth, .plain⟩ (w.labelText labels ++ rest) (w.labelTokens labels)
      ⟨depth, .plain⟩ rest := by
  rw [Reserved.labelText, List.append_assoc]
  exact .next (Token.step_reserved w rfl) (cuts_labels h rest).space

/-- A list of labels ends with a parenthesis. -/
theorem label_text_ends (w : Reserved) (labels : List Text) :
    ∃ body c, w.labelText labels = body ++ [c] ∧ Text.isBlank c = false :=
  ⟨w.word ++ ' ' :: '(' :: commaList labels, ')', by simp [Reserved.labelText, labelList],
    by decide⟩

namespace Modifier

/-- The clauses of a modifier. -/
def clauses (m : Modifier) : List (Text × List Token) :=
  (if m.bool then [(Reserved.bool.word, [.reserved .bool Reserved.bool.word])] else []) ++
    (m.matching.toList.map
        (fun k => (k.reserved.labelText k.labels, k.reserved.labelTokens k.labels)) ++
      m.group.toList.map fun group =>
        (group.1.reserved.labelText group.2, group.1.reserved.labelTokens group.2))

/-- The tokens of a modifier are those of its clauses. -/
theorem tokens_eq (m : Modifier) : m.tokens = m.clauses.flatMap Prod.snd := by
  obtain ⟨bool, matching, group⟩ := m
  cases bool <;> simp [tokens, clauses, List.flatMap_map]

/-- The clauses of a modifier do not end with blanks. -/
theorem clauses_end (m : Modifier) :
    ∀ clause ∈ m.clauses.map Prod.fst,
      ∃ body c, clause = body ++ [c] ∧ Text.isBlank c = false := by
  intro clause hclause
  obtain ⟨pair, hpair, rfl⟩ := List.mem_map.1 hclause
  rcases List.mem_append.1 hpair with hmem | hmem
  · cases hbool : m.bool with
    | false => simp [hbool] at hmem
    | true =>
        obtain rfl : pair = _ := by simpa [hbool] using hmem
        exact ⟨"boo".toList, 'l', rfl, by decide⟩
  · rcases List.mem_append.1 hmem with hmem | hmem
    all_goals
      obtain ⟨k, -, rfl⟩ := List.mem_map.1 hmem
      exact label_text_ends _ _

/-- A modifier that is written in full has its clauses with a space before each. -/
theorem to_text_eq {m : Modifier} (h : ∀ k ∈ m.matching, k.Shown) :
    m.toText = spaced m.clauses := by
  have hmatching : matchingText m.matching =
      (m.matching.toList.map fun k => k.reserved.labelText k.labels).flatMap
        fun clause => clause ++ [' '] := by
    cases hm : m.matching with
    | none => rfl
    | some k =>
        cases k with
        | on labels =>
            simp only [Option.toList_some, List.map_cons, List.map_nil, List.flatMap_cons,
              List.flatMap_nil, List.append_nil]
            rfl
        | ignoring labels =>
            have hne : labels ≠ [] := by
              rintro rfl
              exact h _ hm rfl
            simp only [matchingText, List.isEmpty_iff, if_neg hne, Option.toList_some,
              List.map_cons, List.map_nil, List.flatMap_cons, List.flatMap_nil, List.append_nil,
              List.append_assoc]
            rfl
  have hgroup : groupText m.group =
      (m.group.toList.map fun group => group.1.reserved.labelText group.2).flatMap
        fun clause => clause ++ [' '] := by
    cases m.group with
    | none => rfl
    | some group =>
        obtain ⟨side, labels⟩ := group
        simp only [Option.toList_some, List.map_cons, List.map_nil, List.flatMap_cons,
          List.flatMap_nil, List.append_nil, List.append_assoc, List.cons_append, groupText]
        cases side <;> rfl
  have hbool : (if m.bool then "bool ".toList else []) =
      (if m.bool then [Reserved.bool.word] else []).flatMap fun clause => clause ++ [' '] := by
    cases m.bool <;> rfl
  have hwritten : (if m.bool then "bool ".toList else []) ++ matchingText m.matching ++
      groupText m.group = (m.clauses.map Prod.fst).flatMap fun clause => clause ++ [' '] := by
    rw [hmatching, hgroup, hbool, ← List.flatMap_append, ← List.flatMap_append]
    cases hm : m.bool <;> simp [clauses, hm, Function.comp_def]
  have htrim := trim_clauses m.clauses_end
  delta toText
  rw [hwritten]
  refine htrim.trans ?_
  rw [spaced, List.flatMap_map]

end Modifier

/-- A modifier is cut whole. -/
theorem cuts_modifier {m : Modifier} (h : (Part.modifier m).Plain) (hrest : Ends rest) :
    Cuts ⟨depth, .plain⟩ (m.toText ++ rest) m.tokens ⟨depth, .plain⟩ rest := by
  obtain ⟨⟨hlabels, -⟩, hshown⟩ := h
  rw [Modifier.to_text_eq hshown, Modifier.tokens_eq]
  refine cuts_spaced (fun clause hclause => ?_) hrest
  rcases List.mem_append.1 hclause with hmem | hmem
  · cases hbool : m.bool with
    | false => simp [hbool] at hmem
    | true =>
        obtain rfl : clause = _ := by simpa [hbool] using hmem
        exact ⟨List.cons_ne_nil _ _, fun rest hrest => .one (Token.step_reserved .bool hrest)⟩
  · rcases List.mem_append.1 hmem with hmem | hmem
    · obtain ⟨k, hk, rfl⟩ := List.mem_map.1 hmem
      refine ⟨List.cons_ne_nil _ _, fun rest _ => ?_⟩
      have hread : ∀ l ∈ k.labels, IsLabel l := fun l hl =>
        hlabels l (List.mem_append_left _ (List.mem_flatMap.2 ⟨k, hk, hl⟩))
      exact cuts_label_text k.reserved hread rest
    · obtain ⟨group, hgroup, rfl⟩ := List.mem_map.1 hmem
      refine ⟨List.cons_ne_nil _ _, fun rest _ => ?_⟩
      have hread : ∀ l ∈ group.2, IsLabel l := fun l hl =>
        hlabels l (List.mem_append_right _ (List.mem_flatMap.2 ⟨group, hgroup, hl⟩))
      exact cuts_label_text group.1.reserved hread rest

/-- The text of a modifier goes on after an operator with a space. -/
theorem modifier_text_cases (m : Modifier) : m.toText = [] ∨ ∃ t, m.toText = ' ' :: t := by
  have h : ∀ written : Text, (if written.isEmpty then [] else ' ' :: Text.trimEnd written) = [] ∨
      ∃ t, (if written.isEmpty then [] else ' ' :: Text.trimEnd written) = ' ' :: t := by
    intro written
    split
    · exact .inl rfl
    · exact .inr ⟨_, rfl⟩
  exact h _

/-- The labels of an aggregation that are written have a space before and after them. -/
theorem grouping_to_text {g : Grouping} (h : g ≠ .keeping []) :
    Grouping.toText (some g) = ' ' :: (g.reserved.labelText g.labels ++ [' ']) := by
  cases g with
  | keeping labels =>
      cases labels with
      | nil => exact absurd rfl h
      | cons label labels => rfl
  | dropping labels => rfl

/-- The labels of an aggregation are cut whole, up to the space after them. -/
theorem cuts_grouping {g : Grouping} (h : (Part.grouping g).Plain) (t : Text) :
    Cuts ⟨depth, .plain⟩ (Grouping.toText (some g) ++ t) g.tokens ⟨depth, .plain⟩ (' ' :: t) := by
  rw [grouping_to_text h.2, List.cons_append, List.append_assoc]
  exact (cuts_label_text g.reserved h.1 (' ' :: t)).space

/-! ## Brackets -/

/-- A range is cut whole. -/
theorem cuts_range {range : Duration} (h : 0 < range.millis) (rest : Text) :
    Cuts ⟨depth, .plain⟩ ('[' :: (range.toText ++ ']' :: rest)) (Expr.rangeTokens range)
      ⟨depth, .plain⟩ rest :=
  .next rfl (.next (step_bracket_duration h rfl) (.one rfl))

/-- The range and the step of a subquery are cut whole. -/
theorem cuts_subquery {range : Duration} {step : Option Duration} (hrange : 0 < range.millis)
    (hstep : ∀ d ∈ step, 0 < d.millis) (rest : Text) :
    Cuts ⟨depth, .plain⟩
      ('[' :: (range.toText ++ ':' :: ((step.map Duration.toText).getD [] ++ ']' :: rest)))
      (Expr.subqueryTokens range step) ⟨depth, .plain⟩ rest := by
  refine .next rfl (.next (step_bracket_duration hrange rfl) (.next rfl ?_))
  cases step with
  | none => exact .one rfl
  | some d => exact .next (step_bracket_duration (hstep d rfl) rfl) (.one rfl)

/-! ## Literals and operators -/

/-- A number without a sign is cut whole. -/
theorem step_literal {v : Binary64} (h : v.IsCanonical) (hsign : v.isNegative = false)
    (hrest : Ends rest) :
    Token.step ⟨depth, .plain⟩ (v.literal ++ rest) =
      .emit (.number v.literal) ⟨depth, .plain⟩ rest := by
  cases v with
  | nan => exact Token.step_word ⟨rfl, List.all_eq_true.1 rfl⟩ hrest
  | infinite negative =>
      obtain rfl : negative = false := hsign
      exact Token.step_word ⟨rfl, List.all_eq_true.1 rfl⟩ hrest
  | finite negative m e =>
      obtain rfl : negative = false := hsign
      obtain ⟨whole, places, htext, hwhole, hplaces, -⟩ := display_eq_numeral h
      have hliteral : (Binary64.finite false m e).literal = numeral whole places := htext
      rw [hliteral]
      exact Token.step_numeral hwhole hplaces hrest

/-- The text of a negative number is a minus sign and the text of the opposite number. -/
theorem literal_of_negative {v : Binary64} (h : v.isNegative = true) :
    v.literal = '-' :: v.neg.literal := by
  cases v with
  | nan => cases h
  | infinite negative =>
      obtain rfl : negative = true := h
      rfl
  | finite negative m e =>
      obtain rfl : negative = true := h
      simp [Binary64.literal, Binary64.neg, Binary64.display]

/-- A number is cut whole. -/
theorem cuts_number {v : Binary64} (h : v.IsCanonical) (hrest : Ends rest) :
    Cuts ⟨depth, .plain⟩ (v.literal ++ rest) v.tokens ⟨depth, .plain⟩ rest := by
  unfold Binary64.tokens
  split
  · rename_i hsign
    rw [literal_of_negative hsign]
    exact .next (Token.step_minus _ _) (.one (step_literal (Binary64.neg_canonical h)
      (Binary64.neg_unsigned hsign) hrest))
  · rename_i hsign
    exact .one (step_literal h (by simpa using hsign) hrest)

/-- An operator is cut whole before blank space. -/
theorem step_operator (op : BinaryOp) {c : Char} (hc : c = ' ' ∨ c = '\n') (t : Text) :
    Token.step ⟨depth, .plain⟩ (op.word ++ c :: t) =
      .emit op.token ⟨depth, .plain⟩ (c :: t) := by
  have hends : Ends (c :: t) := by
    rcases hc with rfl | rfl <;> rfl
  cases op
  case or => exact Token.step_reserved .or hends
  case and => exact Token.step_reserved .and hends
  case «unless» => exact Token.step_reserved .unless hends
  case atan2 => exact Token.step_reserved .atan2 hends
  all_goals rcases hc with rfl | rfl <;> rfl

end QueryTidy
