import QueryTidy.Proofs.Query.CutLayout
import QueryTidy.Proofs.Query.ReadClauses

/-!
# Reading queries back

The tokens of a query that obeys the precedence of the operators (`Expr.Reads`) and whose parts are
all `Part.Plain` are read as that query. What follows the query in the tokens must not go on with
it (`Query.Stops`).
-/

namespace QueryTidy.Query

variable {level : Nat} {rest : List Token}

/-! ## Where a query stops -/

/-- The token goes on with an operand before it. -/
def beginsPostfix : Token → Bool
  | .sign .at => true
  | .sign .leftBracket => true
  | .reserved .offset _ => true
  | _ => false

/-- The token goes on with an operand before it, or is an operator of at least the given level. -/
def continuesQuery (level : Nat) (token : Token) : Bool :=
  (continuesName token || beginsPostfix token) ||
    (BinaryOp.ofToken? token).any fun op => decide (level ≤ op.level)

/-- The tokens do not go on with a query before them, except by an operator below the level. -/
def Stops (level : Nat) (tokens : List Token) : Prop :=
  tokens.head?.all (fun token => !continuesQuery level token) = true

/-- The first token after a query that stops. -/
theorem stops_cons {token : Token} : Stops level (token :: rest) ↔
    continuesName token = false ∧ beginsPostfix token = false ∧
      ∀ op, BinaryOp.ofToken? token = some op → op.level < level := by
  simp only [Stops, List.head?_cons, Option.all_some, Bool.not_eq_true', continuesQuery,
    Bool.or_eq_false_iff, Option.any_eq_false, and_assoc]
  simp

/-- What stops a query does not go on with a name. -/
theorem Stops.follows (h : Stops level rest) : Follows rest := by
  cases rest with
  | nil => rfl
  | cons token rest => simp [Follows, (stops_cons.1 h).1]

/-- The higher the level, the fewer operators go on with a query. -/
theorem Stops.mono (h : Stops level rest) {level' : Nat} (hle : level ≤ level') :
    Stops level' rest := by
  cases rest with
  | nil => rfl
  | cons token rest =>
      obtain ⟨hname, hpostfix, hop⟩ := stops_cons.1 h
      exact stops_cons.2 ⟨hname, hpostfix, fun op h => (hop op h).trans_le hle⟩

/-- No operand goes on where a query stops. -/
theorem postfixes_stop (h : Stops level rest) (fuel : Nat) (e : Meaning Expr) :
    postfixes fuel e rest = .ok (e, rest) := by
  cases fuel with
  | zero => rfl
  | succ fuel =>
      unfold postfixes
      split
      any_goals cases (stops_cons.1 h).2.1
      rfl

/-- No operator is read where a query stops. -/
theorem operators_stop (h : Stops level rest) (fuel : Nat) (e : Meaning Expr) :
    operators fuel level e rest = .ok (e, rest) := by
  cases fuel with
  | zero => rfl
  | succ fuel =>
      cases rest with
      | nil => rfl
      | cons token rest =>
          cases hop : BinaryOp.ofToken? token with
          | none => simp only [operators, hop]
          | some op => simp only [operators, hop, if_pos ((stops_cons.1 h).2.2 op hop)]

/-- An operator is read from its token. -/
theorem of_token_token (op : BinaryOp) : BinaryOp.ofToken? op.token = some op := by
  cases op <;> rfl

/-- An operator stops the query before it if it binds more loosely. -/
theorem stops_operator {op : BinaryOp} (h : op.level < level) (rest : List Token) :
    Stops level (op.token :: rest) := by
  refine stops_cons.2 ⟨by cases op <;> rfl, by cases op <;> rfl, fun op' hop => ?_⟩
  rw [of_token_token] at hop
  cases hop
  exact h

/-! ## Operands -/

/-- A number that is not negative is read from its text. -/
theorem value_literal {v : Binary64} (h : v.IsCanonical) (hsign : v.isNegative = false) :
    Literal.value v.literal = .ok v := by
  cases v with
  | nan => decide +kernel
  | infinite negative =>
      obtain rfl : negative = false := hsign
      decide +kernel
  | finite negative m e =>
      obtain rfl : negative = false := hsign
      obtain ⟨whole, places, htext, hwhole, hplaces, hvalue⟩ := display_eq_numeral h
      have hliteral : (Binary64.finite false m e).literal = numeral whole places := htext
      rw [hliteral, literal_numeral hwhole hplaces, hvalue]

/-- Tokens that begin with no sign are read as an operand and what follows it. -/
theorem signed_operand {token : Token} {tail : List Token} (hplus : token ≠ .sign .plus)
    (hminus : token ≠ .sign .minus) {fuel : Nat} {e : Meaning Expr}
    (h : operand fuel (token :: tail) = .ok (e, rest)) :
    signed (fuel + 1) (token :: tail) = postfixes (rest.length + 1) e rest := by
  rw [signed]
  · rw [h]
  · intro after hafter
    exact hplus (List.cons.inj hafter).1
  · intro after hafter
    exact hminus (List.cons.inj hafter).1

/-- A literal is an operand. -/
theorem operand_literal {token : Token} {e : Expr} (h : literal? token = some (.ok e))
    (fuel : Nat) : operand (fuel + 1) (token :: rest) = .ok (.ok e, rest) := by
  refine operand.eq_6 fuel rest token (.ok e) ?_ ?_ ?_ h
  · rintro rfl
    cases h
  · rintro rfl
    cases h
  · rintro name tail rfl -
    cases h

/-- A word that may name a metric begins a selector, unless arguments or labels follow. -/
theorem operand_name {token : Token} {name : Text} (h : metricName? token = some name)
    (hrest : Follows rest ∨ ∃ tail, rest = .sign .leftBrace :: tail) (fuel : Nat) :
    operand (fuel + 1) (token :: rest) = selector (some name) rest := by
  have hliteral : literal? token = none := by
    cases token <;> first | rfl | cases h
  have hnoparen : ∀ tail, rest ≠ .sign .leftParen :: tail := by
    rintro tail rfl
    rcases hrest with hrest | ⟨_, hrest⟩ <;> cases hrest
  have hnotaggregate : beginsAggregate rest = false := by
    rcases hrest with hrest | ⟨tail, rfl⟩
    · unfold beginsAggregate
      split
      any_goals cases hrest
      rfl
    · rfl
  by_cases haggregate : ∃ op text, token = .reserved (.aggregate op) text
  · obtain ⟨op, text, rfl⟩ := haggregate
    rw [operand.eq_7 fuel rest name op text hliteral h, hnotaggregate]
    rfl
  · refine operand.eq_8 fuel rest token name (fun op text h => haggregate ⟨op, text, h⟩) ?_ ?_
      (fun _ tail _ => hnoparen tail) hliteral h
    · rintro rfl
      cases h
    · rintro rfl
      cases h

/-! ## Reading at a level -/

/-- The tokens of the query are read where an operand with its signs is expected. -/
def ReadsSigned (e : Expr) : Prop :=
  ∀ (fuel : Nat) (rest : List Token), Follows rest → 4 * (e.tokens ++ rest).length + 2 ≤ fuel →
    ∃ fuel', rest.length < fuel' ∧
      signed fuel (e.tokens ++ rest) = postfixes fuel' (.ok e) rest

/-- The tokens of the query are read where operators of at least the level are expected. -/
def ReadsAt (level : Nat) (e : Expr) : Prop :=
  ∀ (fuel : Nat) (rest : List Token), Stops e.edge rest →
    4 * (e.tokens ++ rest).length + 3 ≤ fuel →
      ∃ fuel', 4 * rest.length < fuel' ∧
        expression fuel level (e.tokens ++ rest) = operators fuel' level (.ok e) rest

variable {e : Expr}

/-- What is read as an operand is read at every level. -/
theorem ReadsSigned.reads_at (h : ReadsSigned e) (level : Nat) : ReadsAt level e := by
  intro fuel rest hrest hfuel
  cases fuel with
  | zero => omega
  | succ fuel =>
      obtain ⟨fuel', -, hsigned⟩ := h fuel rest hrest.follows (by omega)
      rw [postfixes_stop hrest] at hsigned
      rw [List.length_append] at hfuel
      exact ⟨fuel, by omega, by simp only [expression, hsigned]⟩

/-- Where operators must bind as tightly as the query allows, it is read as a whole. -/
theorem ReadsAt.whole (h : ReadsAt level e) (hlevel : level ≤ e.edge) (hrest : Stops level rest)
    {fuel : Nat} (hfuel : 4 * (e.tokens ++ rest).length + 3 ≤ fuel) :
    expression fuel level (e.tokens ++ rest) = .ok (.ok e, rest) := by
  obtain ⟨fuel', -, hread⟩ := h fuel rest (hrest.mono hlevel) hfuel
  rw [hread, operators_stop hrest]

/-- An operand that begins with no sign is read where one with signs is expected. -/
theorem reads_signed_of_operand {token : Token} {tail : List Token}
    (htokens : e.tokens = token :: tail) (hplus : token ≠ .sign .plus)
    (hminus : token ≠ .sign .minus)
    (hoperand : ∀ (fuel : Nat) (rest : List Token), Follows rest →
      4 * (e.tokens ++ rest).length ≤ fuel →
        operand (fuel + 1) (e.tokens ++ rest) = .ok (.ok e, rest)) : ReadsSigned e := by
  intro fuel rest hrest hfuel
  obtain ⟨fuel, rfl⟩ := Nat.exists_eq_add_of_le' (by omega : 2 ≤ fuel)
  have hread := hoperand fuel rest hrest (by omega)
  rw [htokens, List.cons_append] at hread ⊢
  exact ⟨rest.length + 1, Nat.lt_succ_self _, signed_operand hplus hminus hread⟩

/-- An operand may be followed by what extends it. -/
theorem ReadsSigned.extend (h : ReadsSigned e) {e' : Expr} (tokens : List Token)
    (htokens : e'.tokens = e.tokens ++ tokens)
    (hfollows : ∀ rest, Follows rest → Follows (tokens ++ rest)) (hextends : Extends e tokens e') :
    ReadsSigned e' := by
  intro fuel rest hrest hfuel
  rw [htokens, List.append_assoc] at hfuel ⊢
  obtain ⟨fuel₁, hfuel₁, heq⟩ := h fuel (tokens ++ rest) (hfollows rest hrest) hfuel
  obtain ⟨fuel₂, hfuel₂, heq'⟩ := hextends fuel₁ rest hfuel₁
  exact ⟨fuel₂, hfuel₂, heq.trans heq'⟩

/-! ## The first token -/

/-- A query may begin with the token. -/
def startsQuery : Token → Bool
  | .sign .rightParen => false
  | .sign .comma => false
  | token => !isModifierWord token

/-- A word that may name a metric may begin a query, and is no sign. -/
theorem starts_name {token : Token} {name : Text} (h : metricName? token = some name) :
    startsQuery token = true ∧ ∀ s, token ≠ .sign s := by
  constructor
  · cases token with
    | reserved w t => cases w <;> first | rfl | cases h
    | identifier t => rfl
    | metricName t => rfl
    | _ => cases h
  · rintro s rfl
    cases h

/-- The first token of a selector. -/
theorem first_head_token {s : Selector} {p : Text → Prop} (hcheck : s.check = .ok ())
    (hread : (Part.selector s.name s.selection).Read p) :
    ∃ token tail, s.headTokens = token :: tail ∧ startsQuery token = true ∧
      token ≠ .sign .plus ∧ token ≠ .sign .minus := by
  unfold Selector.headTokens
  cases hname : s.name with
  | some name =>
      obtain ⟨hstarts, hsign⟩ := starts_name (hread.1 name hname).2
      exact ⟨_, _, rfl, hstarts, hsign _, hsign _⟩
  | none =>
      have hne := head_tokens_ne_nil hcheck
      rw [Selector.headTokens, hname] at hne
      split
      · rename_i hempty
        rw [if_pos hempty] at hne
        exact absurd rfl hne
      · exact ⟨_, _, rfl, rfl, by decide, by decide⟩

/-- The first token of a query. -/
theorem first_token {p : Text → Prop} (h : e.Reads level)
    (hread : ∀ part ∈ e.parts, part.Read p) :
    ∃ token tail, e.tokens = token :: tail ∧ startsQuery token = true := by
  induction h with
  | @number _ value _ =>
      rw [Expr.tokens, Binary64.tokens]
      split
      · exact ⟨_, _, rfl, rfl⟩
      · exact ⟨_, _, rfl, rfl⟩
  | string => exact ⟨_, _, rfl, rfl⟩
  | vector hcheck =>
      obtain ⟨token, tail, htokens, hstarts, -⟩ :=
        first_head_token hcheck (hread _ List.mem_cons_self)
      exact ⟨token, _, by rw [Expr.tokens, htokens]; rfl, hstarts⟩
  | matrix hcheck =>
      obtain ⟨token, tail, htokens, hstarts, -⟩ :=
        first_head_token hcheck (hread _ (List.mem_cons_of_mem _ List.mem_cons_self))
      exact ⟨token, _, by rw [Expr.tokens, htokens]; rfl, hstarts⟩
  | subquery _ _ ih =>
      obtain ⟨token, tail, htokens, hstarts⟩ := ih (Expr.forall_parts_subquery.1 hread).1
      exact ⟨token, _, by rw [Expr.tokens, htokens]; rfl, hstarts⟩
  | paren => exact ⟨_, _, rfl, rfl⟩
  | negative => exact ⟨_, _, rfl, rfl⟩
  | binary _ _ _ _ _ ihleft =>
      obtain ⟨token, tail, htokens, hstarts⟩ := ihleft (Expr.forall_parts_binary.1 hread).2.1
      exact ⟨token, _, by rw [Expr.tokens, htokens]; rfl, hstarts⟩
  | call => exact ⟨_, _, rfl, rfl⟩
  | @aggregate _ _ _ param => cases param <;> exact ⟨_, _, rfl, rfl⟩

/-! ## Arguments -/

/-- A comma or a closing parenthesis stops every query. -/
theorem stops_comma (level : Nat) (rest : List Token) : Stops level (.sign .comma :: rest) :=
  stops_cons.2 ⟨rfl, rfl, fun _ h => by cases h⟩

/-- A closing parenthesis stops every query. -/
theorem stops_close (level : Nat) (rest : List Token) : Stops level (.sign .rightParen :: rest) :=
  stops_cons.2 ⟨rfl, rfl, fun _ h => by cases h⟩

/-- An argument is read as a whole at the lowest level. -/
structure ReadsArgument (e : Expr) : Prop where
  whole : ∀ (fuel : Nat) (rest : List Token), Stops 1 rest →
    4 * (e.tokens ++ rest).length + 3 ≤ fuel →
      expression fuel 1 (e.tokens ++ rest) = .ok (.ok e, rest)
  first : ∃ token tail, e.tokens = token :: tail ∧ startsQuery token = true

/-- What follows an argument begins with a comma or the closing parenthesis. -/
theorem stops_arguments (level : Nat) (args : List Expr) (rest : List Token) :
    Stops level ((args.flatMap fun arg => .sign .comma :: arg.tokens) ++
      .sign .rightParen :: rest) := by
  cases args with
  | nil => exact stops_close _ _
  | cons arg args => exact stops_comma _ _

/-- The arguments after the first one are read. -/
theorem more_arguments_tokens {args : List Expr} (h : ∀ arg ∈ args, ReadsArgument arg)
    (found : List Expr) (rest : List Token) {fuel : Nat}
    (hfuel : 4 * ((args.flatMap fun arg => .sign .comma :: arg.tokens) ++
      .sign .rightParen :: rest).length + 1 ≤ fuel) :
    moreArguments fuel (.ok found)
      ((args.flatMap fun arg => .sign .comma :: arg.tokens) ++ .sign .rightParen :: rest) =
        .ok (.ok (found ++ args), rest) := by
  induction args generalizing found fuel with
  | nil =>
      cases fuel with
      | zero => omega
      | succ fuel => simp [moreArguments]
  | cons arg args ih =>
      cases fuel with
      | zero => omega
      | succ fuel =>
          obtain ⟨hwhole, token, tail, htokens, hstarts⟩ := h arg List.mem_cons_self
          simp only [List.flatMap_cons, List.cons_append, List.append_assoc, List.length_cons,
            List.length_append] at hfuel ih
          have hread := hwhole fuel _ (stops_arguments 1 args rest) (by
            simp only [List.length_append, List.length_cons]
            omega)
          have hmore := ih (fun a ha => h a (List.mem_cons_of_mem _ ha)) (found ++ [arg])
            (by omega : _ ≤ fuel)
          have hstep : moreArguments (fuel + 1) (.ok found) (.sign .comma :: (arg.tokens ++
              ((args.flatMap fun arg => .sign .comma :: arg.tokens) ++
                .sign .rightParen :: rest))) =
                moreArguments fuel (.ok (found ++ [arg]))
                  ((args.flatMap fun arg => .sign .comma :: arg.tokens) ++
                    .sign .rightParen :: rest) := by
            rw [moreArguments]
            · simp only [BinaryOp.level, hread]
              rfl
            · intro after hafter
              rw [htokens] at hafter
              cases hafter
              cases hstarts
            · intro after hafter
              rw [htokens] at hafter
              cases hafter
              cases hstarts
          rw [List.flatMap_cons, List.cons_append, List.cons_append, List.append_assoc, hstep,
            hmore, List.append_assoc]
          rfl

/-- Arguments are read up to the closing parenthesis. -/
theorem arguments_tokens {args : List Expr} (h : ∀ arg ∈ args, ReadsArgument arg)
    (rest : List Token) {fuel : Nat}
    (hfuel : 4 * (Token.commas (args.map Expr.tokens) ++ .sign .rightParen :: rest).length + 4 ≤
      fuel) :
    arguments fuel (Token.commas (args.map Expr.tokens) ++ .sign .rightParen :: rest) =
      .ok (.ok args, rest) := by
  cases fuel with
  | zero => omega
  | succ fuel =>
      cases args with
      | nil => rfl
      | cons arg args =>
          obtain ⟨hwhole, token, tail, htokens, hstarts⟩ := h arg List.mem_cons_self
          have hcommas : Token.commas ((arg :: args).map Expr.tokens) ++
              .sign .rightParen :: rest = arg.tokens ++
                ((args.flatMap fun arg => .sign .comma :: arg.tokens) ++
                  .sign .rightParen :: rest) := by
            rw [List.map_cons, Token.commas_cons, List.flatMap_map, List.append_assoc]
          rw [hcommas] at hfuel ⊢
          have hread := hwhole fuel _ (stops_arguments 1 args rest) (by omega)
          rw [List.length_append] at hfuel
          have hmore := more_arguments_tokens
            (fun a ha => h a (List.mem_cons_of_mem _ ha)) [arg] rest (by omega : _ ≤ fuel)
          rw [arguments]
          · simp only [BinaryOp.level, hread]
            exact hmore
          · intro after hafter
            rw [htokens] at hafter
            cases hafter
            cases hstarts

/-! ## Operands and operations -/

/-- A literal is read. -/
theorem reads_literal (token : Token) (htokens : e.tokens = [token])
    (h : literal? token = some (.ok e)) : ReadsSigned e := by
  refine reads_signed_of_operand htokens ?_ ?_ fun fuel rest _ _ => ?_
  · rintro rfl
    cases h
  · rintro rfl
    cases h
  · rw [htokens]
    exact operand_literal h fuel

/-- A number without a sign is read. -/
theorem reads_unsigned {v : Binary64} (h : v.IsCanonical) (hsign : v.isNegative = false) :
    ReadsSigned (.number v) := by
  refine reads_literal (.number v.literal) ?_ ?_
  · simp [Expr.tokens, Binary64.tokens, hsign]
  · simp only [literal?, numberOf?, value_literal h hsign]
    rfl

/-- A selector without a timing is read. -/
theorem reads_selector {s : Selector} {p : Text → Prop} (hcheck : s.check = .ok ())
    (hread : (Part.selector s.name s.selection).Read p) :
    ReadsSigned (.vector { s with timing := {} }) := by
  obtain ⟨token, tail, hhead, -, hplus, hminus⟩ := first_head_token hcheck hread
  have htokens : Expr.tokens (.vector { s with timing := {} }) = s.headTokens := by
    simp [Expr.tokens, Timing.tokens, Selector.headTokens]
  refine reads_signed_of_operand (htokens.trans hhead) hplus hminus fun fuel rest hrest _ => ?_
  rw [htokens]
  have hselector := selector_tokens s.name hread.2 hcheck hrest
  unfold Selector.headTokens
  cases hname : s.name with
  | none =>
      have hbraces : s.selection.isEmpty = false := by
        have hne := head_tokens_ne_nil hcheck
        rw [Selector.headTokens, hname] at hne
        by_contra hempty
        simp [hempty] at hne
      rw [hname] at hselector
      simp only [hbraces, Bool.false_eq_true, ↓reduceIte] at hselector ⊢
      exact hselector
  | some name =>
      rw [hname] at hselector
      rw [Option.toList_some, List.map_cons, List.map_nil, List.append_assoc]
      refine (operand_name (hread.1 name hname).2 ?_ fuel).trans hselector
      split
      · exact .inl hrest
      · exact .inr ⟨_, rfl⟩

/-- The timing of a selector does not go on with a name before it. -/
theorem follows_timing (t : Timing) (hrest : Follows rest) : Follows (t.tokens ++ rest) := by
  obtain ⟨offset, instant⟩ := t
  cases instant with
  | some i => cases i <;> rfl
  | none =>
      cases offset with
      | some o => rfl
      | none => exact hrest

/-- A selector is read. -/
theorem reads_vector {s : Selector} (hcheck : s.check = .ok ())
    (hplain : ∀ part ∈ s.parts, part.Plain) : ReadsSigned (.vector s) := by
  have hbase := reads_selector hcheck (hplain _ List.mem_cons_self).1
  refine hbase.extend s.timing.tokens ?_ (fun _ h => follows_timing _ h) ?_
  · simp [Expr.tokens, Timing.tokens, Selector.headTokens]
  · refine extends_timing (f := fun t => .vector { s with timing := t }) ?_ ?_
    · intro change misplaced t t' hchange
      have hcheck' : Expr.check (.vector { s with timing := t' }) = .ok () := hcheck
      simp only [Expr.retime, hchange]
      exact checked_of_check hcheck'
    · exact fun part hpart => (hplain part (List.mem_cons_of_mem _ hpart)).2

/-- A selector with a range is read. -/
theorem reads_matrix {s : Selector} {range : Duration} (hcheck : s.check = .ok ())
    (hplain : ∀ part ∈ s.parts, part.Plain) (hrange : (Part.span range).Plain) :
    ReadsSigned (.matrix s range) := by
  have hbase := reads_selector hcheck (hplain _ List.mem_cons_self).1
  refine hbase.extend (Expr.rangeTokens range ++ s.timing.tokens) ?_ (fun _ _ => rfl) ?_
  · simp [Expr.tokens, Timing.tokens, Selector.headTokens]
  · refine (extends_range hrange.2.2 rfl).trans
      (extends_timing (f := fun t => .matrix { s with timing := t } range) ?_ ?_)
    · intro change misplaced t t' hchange
      simp only [Expr.retime, hchange]
      rfl
    · exact fun part hpart => (hplain part (List.mem_cons_of_mem _ hpart)).2

/-- A subquery is read. -/
theorem reads_subquery {inner : Expr} {range : Duration} {step : Option Duration} {timing : Timing}
    (hinner : ReadsSigned inner)
    (hcheck : Expr.check (.subquery inner range step timing) = .ok ())
    (hrange : (Part.span range).Plain) (hstep : ∀ d ∈ step, (Part.step d).Plain)
    (htiming : ∀ part ∈ timing.parts, part.Plain) :
    ReadsSigned (.subquery inner range step timing) := by
  have hchecked : ∀ t, Expr.checked (.subquery inner range step t) =
      .ok (.subquery inner range step t) := fun t =>
    have hcheck' : Expr.check (.subquery inner range step t) = .ok () := hcheck
    checked_of_check hcheck'
  refine hinner.extend (Expr.subqueryTokens range step ++ timing.tokens) rfl
    (fun _ _ => rfl)
    ((extends_subquery hrange.2.2 (fun d hd => (hstep d hd).2.2) (hchecked {})).trans
      (extends_timing (f := fun t => .subquery inner range step t) ?_ ?_))
  · intro change misplaced t t' hchange
    simp only [Expr.retime, hchange]
    exact hchecked t'
  · exact fun part hpart => (htiming part hpart).2

/-- A query in parentheses is read. -/
theorem reads_paren {inner : Expr} (h : ReadsArgument inner) : ReadsSigned (.paren inner) := by
  refine reads_signed_of_operand rfl (by decide) (by decide) fun fuel rest _ hfuel => ?_
  have htokens : Expr.tokens (.paren inner) ++ rest =
      .sign .leftParen :: (inner.tokens ++ .sign .rightParen :: rest) := by
    simp [Expr.tokens]
  rw [htokens] at hfuel ⊢
  rw [List.length_cons] at hfuel
  have hread := h.whole fuel _ (stops_close 1 rest) (by omega)
  simp only [operand, BinaryOp.level, hread]
  rfl

/-- A query after a minus sign is read. -/
theorem reads_negated (inner : Expr) {level : Nat}
    (htokens : e.tokens = .sign .minus :: inner.tokens) (hedge : e.edge = 6)
    (hinner : ReadsAt 6 inner) (hinneredge : 6 ≤ inner.edge)
    (hnegate : Expr.negate inner = .ok e) : ReadsAt level e := by
  intro fuel rest hrest hfuel
  rw [hedge] at hrest
  rw [htokens, List.cons_append] at hfuel ⊢
  rw [List.length_cons] at hfuel
  obtain ⟨fuel, rfl⟩ := Nat.exists_eq_add_of_le' (by omega : 2 ≤ fuel)
  have hread := hinner.whole hinneredge hrest (by omega : _ ≤ fuel)
  have hsigned : signed (fuel + 1) (.sign .minus :: (inner.tokens ++ rest)) =
      .ok (.ok e, rest) := by
    simp only [signed, BinaryOp.level, hread]
    exact congrArg (fun meaning => Except.ok (meaning, rest)) hnegate
  rw [List.length_append] at hfuel
  exact ⟨fuel + 1, by omega, by simp only [expression, hsigned]⟩

/-- A number with a sign is read as the opposite of the number after its minus sign. -/
theorem reads_negative_number {v : Binary64} (h : v.IsCanonical) (hsign : v.isNegative = true)
    (level : Nat) : ReadsAt level (.number v) := by
  have hsign' := Binary64.neg_unsigned hsign
  have hinner := reads_unsigned (Binary64.neg_canonical h) hsign'
  refine reads_negated (.number v.neg) ?_ ?_ (hinner.reads_at 6) ?_ ?_
  · simp [Expr.tokens, Binary64.tokens, hsign, hsign']
  · simp [Expr.edge, hsign]
  · simp [Expr.edge, hsign']
  · rw [Expr.negate, Binary64.neg_neg]

/-- A query that is no number is read after a minus sign as its opposite. -/
theorem reads_negative {inner : Expr} (hnumber : ∀ value, inner ≠ .number value)
    (hcheck : Expr.check (.negative inner) = .ok ()) (hinner : ReadsAt 6 inner)
    (hedge : 6 ≤ inner.edge) (level : Nat) : ReadsAt level (.negative inner) := by
  refine reads_negated inner rfl rfl hinner hedge ?_
  have hchecked : Expr.checked (.negative inner) = .ok (.negative inner) := checked_of_check hcheck
  cases inner with
  | number value => exact absurd rfl (hnumber value)
  | string raw => cases hcheck
  | matrix s range => cases hcheck
  | _ => exact hchecked

/-- A binary operation is read. -/
theorem reads_binary {op : BinaryOp} {m : Modifier} {left right : Expr} {level : Nat}
    (hlevel : level ≤ op.level) (hleft : ReadsAt level left) (hedge : op.level < left.edge)
    (hright : ReadsAt op.rightLevel right) (hrightedge : op.rightLevel ≤ right.edge)
    (hfirst : ∃ token tail, right.tokens = token :: tail ∧ startsQuery token = true)
    (hm : (Part.modifier m).Plain)
    (hcheck : Expr.check (.binary op m left right) = .ok ()) :
    ReadsAt level (.binary op m left right) := by
  intro fuel rest hrest hfuel
  have htokens : Expr.tokens (.binary op m left right) ++ rest =
      left.tokens ++ op.token :: (m.tokens ++ (right.tokens ++ rest)) := by
    simp [Expr.tokens]
  rw [htokens] at hfuel ⊢
  obtain ⟨fuel', hfuel', hread⟩ := hleft fuel _ (stops_operator hedge _) hfuel
  rw [List.length_cons, List.length_append, List.length_append] at hfuel'
  cases fuel' with
  | zero => omega
  | succ fuel' =>
      have hmodifier : modifier (m.tokens ++ (right.tokens ++ rest)) =
          .ok (.ok m, right.tokens ++ rest) := by
        refine modifier_tokens hm.1.1 hm.1.2 ?_
        obtain ⟨token, tail, htail, hstarts⟩ := hfirst
        rw [htail]
        cases token with
        | sign s => rfl
        | _ => exact hstarts
      have hwhole := hright.whole hrightedge hrest (by rw [List.length_append]; omega : _ ≤ fuel')
      have happly : Expr.applyBinary op m left right = .ok (.binary op m left right) :=
        checked_of_check hcheck
      refine ⟨fuel', by omega, hread.trans ?_⟩
      simp only [operators, of_token_token, if_neg (by omega : ¬op.level < level), hmodifier,
        hwhole]
      exact congrArg (fun meaning => operators fuel' level meaning rest) happly

/-- A call is read. -/
theorem reads_call {f : Signature} {args : List Expr} (hf : Signature.ofName? f.name = some f)
    (hargs : ∀ arg ∈ args, ReadsArgument arg) (hcheck : Expr.check (.call f args) = .ok ()) :
    ReadsSigned (.call f args) := by
  refine reads_signed_of_operand rfl (by simp) (by simp) fun fuel rest _ hfuel => ?_
  have htokens : Expr.tokens (.call f args) ++ rest = .identifier f.name :: .sign .leftParen ::
      (Token.commas (args.map Expr.tokens) ++ .sign .rightParen :: rest) := by
    simp [Expr.tokens, Expr.tokens_all_eq]
  rw [htokens] at hfuel ⊢
  rw [List.length_cons, List.length_cons] at hfuel
  have hread := arguments_tokens hargs rest (by omega : _ ≤ fuel)
  have happly : Expr.applyFunction f.name (.ok args) = .ok (.call f args) := by
    simp only [Expr.applyFunction, hf]
    exact checked_of_check hcheck
  simp only [operand, hread, happly]

/-- Labels or an opening parenthesis begin an aggregation after its operator. -/
theorem begins_aggregate (grouping : Option Grouping) (tokens : List Token) :
    beginsAggregate (grouping.toList.flatMap Grouping.tokens ++ .sign .leftParen :: tokens) =
      true := by
  cases grouping with
  | none => rfl
  | some g => cases g <;> rfl

/-- The labels of an aggregation and its arguments are read after its operator. -/
theorem aggregate_tokens (op : AggregateOp) {grouping : Option Grouping} {args : List Expr}
    (hgrouping : ∀ g ∈ grouping, (Part.grouping g).Plain)
    (hargs : ∀ arg ∈ args, ReadsArgument arg) (hrest : Follows rest) {fuel : Nat}
    (hfuel : 4 * (Token.commas (args.map Expr.tokens) ++ .sign .rightParen :: rest).length + 4 ≤
      fuel) :
    aggregate (fuel + 1) op (grouping.toList.flatMap Grouping.tokens ++ .sign .leftParen ::
        (Token.commas (args.map Expr.tokens) ++ .sign .rightParen :: rest)) =
      .ok (Expr.applyAggregate op grouping args, rest) := by
  have hread := arguments_tokens hargs rest hfuel
  cases grouping with
  | none =>
      have hnone : grouping? rest = none := by
        unfold grouping?
        split
        · cases hrest
        · cases hrest
        · rfl
      simp only [Option.toList_none, List.flatMap_nil, List.nil_append, aggregate, hread, hnone]
      rfl
  | some g =>
      have hlabels := grouping_tokens (hgrouping g rfl).1 (.sign .leftParen ::
        (Token.commas (args.map Expr.tokens) ++ .sign .rightParen :: rest))
      simp only [Option.toList_some, List.flatMap_cons, List.flatMap_nil, List.append_nil]
      rw [aggregate]
      · simp only [hlabels, hread]
        rfl
      · intro after hafter
        cases g <;> cases hafter

/-- An aggregation is read. -/
theorem reads_aggregate {op : AggregateOp} {grouping : Option Grouping} {param : Option Expr}
    {inner : Expr} (hgrouping : ∀ g ∈ grouping, (Part.grouping g).Plain)
    (hargs : ∀ arg ∈ param.toList ++ [inner], ReadsArgument arg)
    (hcount : op.paramType?.isSome = param.isSome)
    (hcheck : Expr.check (.aggregate op grouping param inner) = .ok ()) :
    ReadsSigned (.aggregate op grouping param inner) := by
  refine reads_signed_of_operand (Expr.tokens_aggregate _ _ _ _) (by simp) (by simp)
    fun fuel rest hrest hfuel => ?_
  have hchecked : Expr.applyAggregate op grouping (param.toList ++ [inner]) =
      .ok (.aggregate op grouping param inner) := by
    unfold Expr.applyAggregate
    rw [hcount]
    cases param <;> simp [checked_of_check hcheck]
  rw [Expr.tokens_aggregate] at hfuel ⊢
  simp only [List.cons_append, List.append_assoc, List.nil_append, List.length_cons,
    List.length_append] at hfuel ⊢
  obtain ⟨fuel, rfl⟩ := Nat.exists_eq_add_of_le' (by omega : 1 ≤ fuel)
  have hread := aggregate_tokens op hgrouping hargs hrest
    (by simp only [List.length_append, List.length_cons]; omega : _ ≤ fuel)
  rw [operand.eq_7 _ _ op.word op op.word rfl rfl, begins_aggregate, if_pos rfl, hread, hchecked]

/-! ## Queries -/

/-- The tokens of the query are read as the query, as an operand or at the levels that the
precedence of the operators allows. -/
structure ReadsBack (level : Nat) (e : Expr) : Prop where
  operand : Expr.operandLevel ≤ level → ReadsSigned e
  at_level : ∀ l, l ≤ level → l < Expr.operandLevel → ReadsAt l e

/-- An operand is read at every level. -/
theorem ReadsSigned.reads_back (h : ReadsSigned e) (level : Nat) : ReadsBack level e where
  operand _ := h
  at_level l _ _ := h.reads_at l

/-- What is no operand is read at the levels below that of operands. -/
theorem reads_back_below (hlevel : level < Expr.operandLevel) (h : ∀ l, l ≤ level → ReadsAt l e) :
    ReadsBack level e where
  operand hle := absurd (hle.trans_lt hlevel) (lt_irrefl _)
  at_level l hle _ := h l hle

/-- A query is read as an argument if it is read at the lowest level. -/
theorem ReadsBack.argument (hback : ReadsBack 1 e) (h : e.Reads 1)
    (hplain : ∀ part ∈ e.parts, part.Plain) : ReadsArgument e where
  whole _ _ hrest hfuel :=
    (hback.at_level 1 le_rfl (by decide)).whole (h.le_edge (by decide)) hrest hfuel
  first := first_token h fun part hpart => (hplain part hpart).1

/-- The tokens of a query whose parts show all there is are read as the query. -/
theorem reads_back (h : e.Reads level) (hplain : ∀ part ∈ e.parts, part.Plain) :
    ReadsBack level e := by
  induction h with
  | @number level value hneg =>
      have hcanonical : value.IsCanonical := (hplain (.number value) List.mem_cons_self).1
      cases hsign : value.isNegative with
      | false => exact (reads_unsigned hcanonical hsign).reads_back level
      | true =>
          exact reads_back_below ((hneg hsign).trans_lt (by decide)) fun l _ =>
            reads_negative_number hcanonical hsign l
  | string => exact (reads_literal _ rfl rfl).reads_back _
  | vector hcheck => exact (reads_vector hcheck hplain).reads_back _
  | matrix hcheck =>
      exact (reads_matrix hcheck (fun part hpart => hplain part (List.mem_cons_of_mem _ hpart))
        (hplain _ List.mem_cons_self)).reads_back _
  | subquery hinner hcheck ih =>
      obtain ⟨hplaininner, hrange, hstep, htiming⟩ := Expr.forall_parts_subquery.1 hplain
      exact (reads_subquery ((ih hplaininner).operand le_rfl) hcheck hrange hstep
        htiming).reads_back _
  | paren hinner ih =>
      exact (reads_paren ((ih hplain).argument hinner hplain)).reads_back _
  | @negative _ inner hlevel hinner hnumber hcheck ih =>
      exact reads_back_below (hlevel.trans_lt (by decide)) fun l _ =>
        reads_negative hnumber hcheck ((ih hplain).at_level 6 le_rfl (by decide))
          (hinner.le_edge (by decide)) l
  | @binary _ op m left right hlevel hleft hedge hright hcheck ihleft ihright =>
      obtain ⟨hm, hplainleft, hplainright⟩ := Expr.forall_parts_binary.1 hplain
      have hbounds := Expr.level_bounds op
      refine reads_back_below (hlevel.trans_lt (by unfold Expr.operandLevel; omega)) fun l hl => ?_
      exact reads_binary (hl.trans hlevel)
        ((ihleft hplainleft).at_level l (hl.trans hlevel) (by unfold Expr.operandLevel; omega))
        hedge
        ((ihright hplainright).at_level _ le_rfl (by unfold Expr.operandLevel; omega))
        (hright.le_edge hbounds.2.2.2)
        (first_token hright fun part hpart => (hplainright part hpart).1) hm hcheck
  | @call _ f args hf hargs hcheck ih =>
      refine (reads_call hf (fun arg harg => ?_) hcheck).reads_back _
      have hplainarg := Expr.forall_parts_call.1 hplain arg harg
      exact (ih arg harg hplainarg).argument (hargs arg harg) hplainarg
  | @aggregate _ op grouping param inner hparam hinner hcount hcheck ihparam ih =>
      obtain ⟨hgrouping, hplainparam, hplaininner⟩ := Expr.forall_parts_aggregate.1 hplain
      refine (reads_aggregate hgrouping (fun arg harg => ?_) hcount hcheck).reads_back _
      rcases List.mem_append.1 harg with harg | harg
      · have hmem : arg ∈ param := Option.mem_toList.1 harg
        have hplainarg := hplainparam arg hmem
        exact (ihparam arg hmem hplainarg).argument (hparam arg hmem) hplainarg
      · obtain rfl : arg = inner := List.mem_singleton.1 harg
        exact (ih hplaininner).argument hinner hplaininner

end QueryTidy.Query

namespace QueryTidy.Expr

/-- The canonical text of a query whose parts show all there is, with blank space after it, denotes
the query. -/
theorem Reads.parse_pretty {e : Expr} (h : e.Reads 1) (hplain : ∀ part ∈ e.parts, part.Plain)
    {blank : Text} (hblank : ∀ c ∈ blank, Token.isSpace c = true) :
    parse (e.pretty ++ blank) = .query e := by
  have hat := (Query.reads_back h hplain).at_level 1 le_rfl (by decide)
  have hstops : Query.Stops 1 [] := rfl
  have hread := hat.whole (h.le_edge (by decide)) hstops
    (by rw [List.append_nil]; omega : _ ≤ 4 * e.tokens.length + 8)
  rw [List.append_nil] at hread
  have hof : Query.ofTokens e.tokens = .ok (.ok e) := by
    obtain ⟨token, tail, htokens, -⟩ :=
      Query.first_token h fun part hpart => (hplain part hpart).1
    rw [htokens] at hread ⊢
    simp only [Query.ofTokens, BinaryOp.level, hread]
  simp only [parse, h.scan_pretty hplain hblank, hof]

end QueryTidy.Expr
