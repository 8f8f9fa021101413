import QueryTidy.Proofs.Query.ShapeClauses

/-!
# The shape of queries that are read

Every query that the reader makes of a text obeys the precedence of the operators and the rules of
its nodes (`Expr.Reads`), and its parts are made of words of the text (`Part.Read`). The functions
of the reader call each other with one unit of fuel less, so what is known of all of them with some
fuel (`Query.ShapeAt`) is shown for one unit more, one function at a time.
-/

namespace QueryTidy.Query

open Token (Spelled)

variable {p : Text → Prop} {fuel level : Nat} {tokens rest : List Token}

/-- No operator of at least the level is next. -/
def NoOperator (level : Nat) (tokens : List Token) : Prop :=
  ∀ token ∈ tokens.head?, ∀ op ∈ BinaryOp.ofToken? token, op.level < level

/-- Where no operator of a level is next, none of a higher level is. -/
theorem NoOperator.mono (h : NoOperator level tokens) {level' : Nat} (hle : level ≤ level') :
    NoOperator level' tokens :=
  fun token htoken op hop => (h token htoken op hop).trans_le hle

/-- No operator binds more tightly than the power. -/
theorem no_operator_operand (tokens : List Token) : NoOperator Expr.operandLevel tokens :=
  fun _ _ op _ => Nat.lt_succ_of_le (Expr.level_bounds op).2.1

/-- No operator belongs to the end of an operand. -/
theorem operand_edge {e : Expr} (h : e.Reads Expr.operandLevel) : e.edge = Expr.operandLevel := by
  cases h with
  | number hneg =>
      rw [Expr.edge, if_neg]
      · rfl
      · exact fun hv => absurd (hneg hv) (by decide)
  | negative hlevel => exact absurd hlevel (by decide)
  | @binary _ op _ _ _ hlevel =>
      exact absurd (hlevel.trans (Expr.level_bounds op).2.1) (by decide)
  | _ => rfl

/-- Arguments that are read. -/
def GoodArguments (p : Text → Prop) (meaning : Meaning (List Expr)) : Prop :=
  ∀ es, meaning = .ok es → ∀ e ∈ es, Good p 1 e

/-- A query of which the end is known. -/
def GoodEnd (p : Text → Prop) (level : Nat) (tokens : List Token) (meaning : Meaning Expr) : Prop :=
  ∀ e, meaning = .ok e → Good p level e ∧ NoOperator e.edge tokens

/-- What is known of all that is read with some fuel. The fuel is enough for the tokens, so that
the reader stops where no operator follows. -/
structure ShapeAt (p : Text → Prop) (fuel : Nat) : Prop where
  expression : ∀ {level tokens rest meaning}, level ≤ 6 → Spelled p false tokens →
    4 * tokens.length + 3 ≤ fuel → expression fuel level tokens = .ok (meaning, rest) →
      Left p tokens rest ∧ NoOperator level rest ∧ GoodMeaning p level meaning
  signed : ∀ {tokens rest meaning}, Spelled p false tokens → 4 * tokens.length + 2 ≤ fuel →
    signed fuel tokens = .ok (meaning, rest) → Left p tokens rest ∧ GoodEnd p 6 rest meaning
  operand : ∀ {tokens rest meaning}, Spelled p false tokens → 4 * tokens.length + 1 ≤ fuel →
    operand fuel tokens = .ok (meaning, rest) →
      Left p tokens rest ∧ GoodMeaning p Expr.operandLevel meaning
  aggregate : ∀ {op tokens rest meaning}, Spelled p false tokens → 4 * tokens.length + 2 ≤ fuel →
    aggregate fuel op tokens = .ok (meaning, rest) →
      Left p tokens rest ∧ GoodMeaning p Expr.operandLevel meaning
  arguments : ∀ {tokens rest meaning}, Spelled p false tokens → 4 * tokens.length + 4 ≤ fuel →
    arguments fuel tokens = .ok (meaning, rest) → Left p tokens rest ∧ GoodArguments p meaning
  moreArguments : ∀ {found tokens rest meaning}, GoodArguments p found → Spelled p false tokens →
    4 * tokens.length + 1 ≤ fuel → moreArguments fuel found tokens = .ok (meaning, rest) →
      Left p tokens rest ∧ GoodArguments p meaning
  operators : ∀ {level left tokens rest meaning}, level ≤ 6 → GoodEnd p level tokens left →
    Spelled p false tokens → 4 * tokens.length + 1 ≤ fuel →
      operators fuel level left tokens = .ok (meaning, rest) →
        Left p tokens rest ∧ NoOperator level rest ∧ GoodMeaning p level meaning

/-! ## Operators -/

/-- An expression is an operand with its signs and operators after it. -/
theorem expression_shape (ih : ShapeAt p fuel) {meaning : Meaning Expr} (hlevel : level ≤ 6)
    (hspelled : Spelled p false tokens) (hfuel : 4 * tokens.length + 3 ≤ fuel + 1)
    (h : expression (fuel + 1) level tokens = .ok (meaning, rest)) :
    Left p tokens rest ∧ NoOperator level rest ∧ GoodMeaning p level meaning := by
  simp only [expression] at h
  split at h
  · rename_i hsigned
    obtain ⟨hleft, hgood⟩ := ih.signed hspelled (by omega) hsigned
    have hlength := hleft.length
    obtain ⟨hleft', hnone, hgood'⟩ := ih.operators hlevel
      (fun e he => ⟨(hgood e he).1.mono hlevel, (hgood e he).2⟩) hleft.spelled (by omega) h
    exact ⟨hleft.trans hleft', hnone, hgood'⟩
  · cases h

/-- The opposite of a query that is read. -/
theorem negate_shape {e e' : Expr} (h : Good p 6 e) (hnone : NoOperator 6 tokens)
    (hnegate : Expr.negate e = .ok e') : Good p 6 e' ∧ NoOperator e'.edge tokens := by
  have hchecked : (∀ value, e ≠ .number value) → Expr.checked (.negative e) = .ok e' →
      Good p 6 e' ∧ NoOperator e'.edge tokens := by
    intro hnumber hchecked
    obtain ⟨rfl, hcheck⟩ := checked_ok hchecked
    exact ⟨⟨.negative le_rfl h.reads hnumber hcheck, h.parts⟩, hnone⟩
  cases e with
  | number value =>
      cases hnegate
      have hedge : 6 ≤ Expr.edge (.number value.neg) := by
        rw [Expr.edge]
        split <;> decide
      refine ⟨⟨.number fun _ => le_rfl, fun part hpart => ?_⟩, hnone.mono hedge⟩
      obtain rfl : part = .number value.neg := List.mem_singleton.1 hpart
      exact Binary64.neg_canonical (h.parts _ List.mem_cons_self)
  | string raw => cases hnegate
  | matrix s range => cases hnegate
  | _ => exact hchecked (fun _ => Expr.noConfusion) hnegate

/-- An operand with its signs. -/
theorem signed_shape (ih : ShapeAt p fuel) {meaning : Meaning Expr}
    (hspelled : Spelled p false tokens) (hfuel : 4 * tokens.length + 2 ≤ fuel + 1)
    (h : signed (fuel + 1) tokens = .ok (meaning, rest)) :
    Left p tokens rest ∧ GoodEnd p 6 rest meaning := by
  unfold signed at h
  split at h
  · cases ‹fuel + 1 = 0›
  · rename_i hcount
    cases hcount
    rw [List.length_cons] at hfuel
    obtain ⟨hleft, hnone, hgood⟩ := ih.expression (by decide) hspelled.2 (by omega) h
    exact ⟨hleft.cons, fun e he =>
      ⟨hgood e he, hnone.mono ((hgood e he).reads.le_edge (by decide))⟩⟩
  · rename_i hcount
    cases hcount
    rw [List.length_cons] at hfuel
    split at h
    · rename_i inner after hexpression
      cases h
      obtain ⟨hleft, hnone, hgood⟩ := ih.expression (by decide) hspelled.2 (by omega) hexpression
      refine ⟨hleft.cons, fun e he => ?_⟩
      cases inner with
      | error error => cases he
      | ok inner => exact negate_shape (hgood inner rfl) hnone he
    · cases h
  · rename_i hcount _ _
    cases hcount
    split at h
    · rename_i hoperand
      obtain ⟨hleft, hgood⟩ := ih.operand hspelled (by omega) hoperand
      obtain ⟨hleft', hgood'⟩ := postfixes_shape hgood hleft.spelled h
      refine ⟨hleft.trans hleft', fun e he => ?_⟩
      have hread := hgood' e he
      rw [operand_edge hread.reads]
      exact ⟨hread.mono (by decide), no_operator_operand rest⟩
    · cases h

/-- A binary operation of queries that are read. -/
theorem apply_binary_shape {op : BinaryOp} {m : Modifier} {left right e : Expr}
    (hlevel : level ≤ op.level) (hleft : Good p level left) (hedge : op.level < left.edge)
    (hm : (Part.modifier m).Read p) (hright : Good p op.rightLevel right)
    (happly : Expr.applyBinary op m left right = .ok e) :
    Good p level e ∧ e.edge = op.rightLevel := by
  obtain ⟨rfl, hcheck⟩ := checked_ok happly
  exact ⟨⟨.binary hlevel (hleft.reads.of_edge hedge) hedge hright.reads hcheck,
    Expr.forall_parts_binary.2 ⟨hm, hleft.parts, hright.parts⟩⟩, rfl⟩

/-- An operation of queries that are read ends as its right operand does. -/
theorem good_end_operation (op : BinaryOp) {left right : Meaning Expr} {m : Meaning Modifier}
    (hlevel : level ≤ op.level)
    (hleft : ∀ e, left = .ok e → Good p level e ∧ op.level < e.edge)
    (hm : ∀ x, m = .ok x → (Part.modifier x).Read p) (hright : GoodMeaning p op.rightLevel right)
    (hnone : NoOperator op.rightLevel rest) :
    GoodEnd p level rest (do let left ← left; let m ← m; Expr.applyBinary op m left (← right)) := by
  intro e he
  obtain ⟨l, hl, he⟩ := bind_ok he
  obtain ⟨x, hx, he⟩ := bind_ok he
  obtain ⟨r, hr, happly⟩ := bind_ok he
  obtain ⟨hgood, hedge⟩ := hleft l hl
  obtain ⟨hread, hend⟩ :=
    apply_binary_shape hlevel hgood hedge (hm x hx) (hright r hr) happly
  rw [hend]
  exact ⟨hread, hnone⟩

/-- The token of an operator does not lead between braces. -/
theorem operator_after {token : Token} {op : BinaryOp} (h : BinaryOp.ofToken? token = some op) :
    token.after false = false := by
  cases token with
  | sign s => cases s <;> first | rfl | cases h
  | _ => rfl

/-- Operators and their right sides. -/
theorem operators_shape (ih : ShapeAt p fuel) {left meaning : Meaning Expr} (hlevel : level ≤ 6)
    (hgood : GoodEnd p level tokens left) (hspelled : Spelled p false tokens)
    (hfuel : 4 * tokens.length + 1 ≤ fuel + 1)
    (h : operators (fuel + 1) level left tokens = .ok (meaning, rest)) :
    Left p tokens rest ∧ NoOperator level rest ∧ GoodMeaning p level meaning := by
  cases tokens with
  | nil =>
      cases h
      exact ⟨Left.refl trivial, fun token htoken => (nomatch htoken), fun e he => (hgood e he).1⟩
  | cons token tail =>
      simp only [operators] at h
      split at h
      · rename_i hnone
        cases h
        refine ⟨Left.refl hspelled, fun token' htoken op hop => ?_, fun e he => (hgood e he).1⟩
        cases htoken
        rw [hnone] at hop
        cases hop
      · rename_i op hop
        split at h
        · rename_i hlow
          cases h
          refine ⟨Left.refl hspelled, fun token' htoken op' hop' => ?_, fun e he => (hgood e he).1⟩
          cases htoken
          rw [hop] at hop'
          cases hop'
          exact hlow
        · rename_i hhigh
          rw [List.length_cons] at hfuel
          have htail := hspelled.2
          rw [operator_after hop] at htail
          split at h
          · cases h
          · rename_i m after hmodifier
            obtain ⟨hleft, hm⟩ := modifier_shape htail hmodifier
            have hlength := hleft.length
            split at h
            · cases h
            · rename_i right after' hexpression
              obtain ⟨hleft', hnone, hright⟩ := ih.expression (Expr.level_bounds op).2.2.2
                hleft.spelled (by omega) hexpression
              have hlength' := hleft'.length
              have hend := good_end_operation op (not_lt.1 hhigh) (fun e he =>
                ⟨(hgood e he).1, (hgood e he).2 token rfl op hop⟩) hm hright hnone
              obtain ⟨hleft'', hnone', hgood'⟩ :=
                ih.operators hlevel hend hleft'.spelled (by omega) h
              exact ⟨(hleft.trans (hleft'.trans hleft'')).cons, hnone', hgood'⟩

/-! ## Operands -/

/-- A word that may name a metric does so. -/
theorem metric_name_is {token : Token} {name : Text} (h : metricName? token = some name)
    (hspelled : token.SpelledIn p false) : IsMetricName name ∧ token.after false = false := by
  cases token with
  | identifier t =>
      cases h
      exact ⟨⟨hspelled.1, by rw [hspelled.2]; rfl⟩, rfl⟩
  | metricName t =>
      cases h
      exact ⟨⟨hspelled.1, by rw [hspelled.2]; rfl⟩, rfl⟩
  | reserved w t =>
      have ht : t = name := by
        unfold metricName? at h
        dsimp only at h
        split at h
        · exact Option.some.inj h
        · cases h
      subst ht
      exact ⟨⟨hspelled.1, by rw [hspelled.2, h]⟩, rfl⟩
  | _ => cases h

/-- An operand that is one literal. -/
theorem literal_shape {token : Token} {meaning : Meaning Expr} (h : literal? token = some meaning)
    (hspelled : token.SpelledIn p false) :
    GoodMeaning p Expr.operandLevel meaning ∧ token.after false = false := by
  have hnumber : ∀ {v : Meaning Binary64}, (∀ x, v = .ok x → x.IsUnsigned) →
      GoodMeaning p Expr.operandLevel (v.map .number) := by
    intro v hv e he
    obtain ⟨x, hx, rfl⟩ := map_ok he
    obtain ⟨hcanonical, hsign⟩ := hv x hx
    refine ⟨.number fun h => ?_, fun part hpart => ?_⟩
    · rw [hsign] at h
      cases h
    · obtain rfl : part = .number x := List.mem_singleton.1 hpart
      exact hcanonical
  cases token with
  | string raw =>
      cases h
      refine ⟨fun e he => ?_, rfl⟩
      cases he
      refine ⟨.string, fun part hpart => ?_⟩
      obtain rfl : part = .string raw := List.mem_singleton.1 hpart
      exact hspelled
  | number text =>
      cases h
      refine ⟨hnumber fun x hx => ?_, rfl⟩
      cases hvalue : Literal.value text with
      | error e =>
          rw [hvalue] at hx
          cases hx
      | ok v =>
          rw [hvalue] at hx
          cases hx
          exact literal_unsigned hvalue
  | duration text =>
      cases h
      refine ⟨hnumber fun x hx => ?_, rfl⟩
      obtain ⟨d, -, rfl⟩ := map_ok hx
      exact seconds_unsigned d
  | _ => cases h

/-- A call of a function. -/
theorem apply_function_shape {name : Text} {args : Meaning (List Expr)}
    (hargs : GoodArguments p args) :
    GoodMeaning p Expr.operandLevel (Expr.applyFunction name args) := by
  intro e he
  unfold Expr.applyFunction at he
  split at he
  · cases he
  · rename_i f hf
    have hname : Signature.ofName? f.name = some f := by
      have hfound := List.find?_some hf
      rw [decide_eq_true_eq] at hfound
      rw [hfound, hf]
    cases args with
    | error error => cases he
    | ok args =>
        have hchecked : Expr.checked (.call f args) = .ok e := he
        obtain ⟨rfl, hcheck⟩ := checked_ok hchecked
        exact ⟨.call hname (fun arg harg => (hargs args rfl arg harg).reads) hcheck,
          Expr.forall_parts_call.2 fun arg harg => (hargs args rfl arg harg).parts⟩

/-- An aggregation of arguments. -/
theorem apply_aggregate_shape {op : AggregateOp} {grouping : Option Grouping} {args : List Expr}
    {e : Expr} (hgrouping : ∀ g ∈ grouping, (Part.grouping g).Read p)
    (hargs : ∀ arg ∈ args, Good p 1 arg) (h : Expr.applyAggregate op grouping args = .ok e) :
    Good p Expr.operandLevel e := by
  have hgood : ∀ {param : Option Expr} {inner : Expr}, (∀ q ∈ param, Good p 1 q) →
      Good p 1 inner → op.paramType?.isSome = param.isSome →
        Expr.checked (.aggregate op grouping param inner) = .ok e →
          Good p Expr.operandLevel e := by
    intro param inner hparam hinner hcount hchecked
    obtain ⟨rfl, hcheck⟩ := checked_ok hchecked
    exact ⟨.aggregate (fun q hq => (hparam q hq).reads) hinner.reads hcount hcheck,
      Expr.forall_parts_aggregate.2 ⟨hgrouping, fun q hq => (hparam q hq).parts, hinner.parts⟩⟩
  unfold Expr.applyAggregate at h
  cases args with
  | nil => cases h
  | cons arg more =>
      have harg := hargs arg List.mem_cons_self
      cases hsome : op.paramType?.isSome with
      | false =>
          simp only [hsome, Bool.false_eq_true, ↓reduceIte] at h
          split at h
          · cases h
          · rename_i hcount
            cases more with
            | nil => exact hgood (by simp) harg (hsome.trans Option.isSome_none.symm) h
            | cons inner more => simp at hcount
      | true =>
          simp only [hsome, ↓reduceIte] at h
          split at h
          · cases h
          · rename_i hcount
            cases more with
            | nil => simp at hcount
            | cons inner more =>
                refine hgood (fun q hq => ?_) (hargs inner (by simp))
                  (hsome.trans Option.isSome_some.symm) h
                obtain rfl : arg = q := Option.some.inj hq
                exact harg

/-- An aggregation, with its labels if there are any. -/
theorem aggregation_shape {op : AggregateOp} {grouping : Option (Meaning Grouping)}
    {args : Meaning (List Expr)}
    (hgrouping : ∀ g ∈ grouping, ∀ x, g = .ok x → ∀ l ∈ x.labels, IsLabel l)
    (hargs : GoodArguments p args) :
    GoodMeaning p Expr.operandLevel (aggregation op grouping args) := by
  intro e he
  cases args with
  | error error =>
      cases grouping with
      | none => cases he
      | some g => cases g <;> cases he
  | ok args =>
      cases grouping with
      | none => exact apply_aggregate_shape (by simp) (hargs args rfl) he
      | some g =>
          cases g with
          | error error => cases he
          | ok g =>
              refine apply_aggregate_shape (fun x hx => ?_) (hargs args rfl) he
              obtain rfl : g = x := Option.some.inj hx
              exact hgrouping (.ok g) rfl g rfl

/-- An aggregation after its operator. -/
theorem aggregate_shape (ih : ShapeAt p fuel) {op : AggregateOp} {meaning : Meaning Expr}
    (hspelled : Spelled p false tokens) (hfuel : 4 * tokens.length + 2 ≤ fuel + 1)
    (h : aggregate (fuel + 1) op tokens = .ok (meaning, rest)) :
    Left p tokens rest ∧ GoodMeaning p Expr.operandLevel meaning := by
  unfold aggregate at h
  split at h
  · cases ‹fuel + 1 = 0›
  · rename_i hcount
    cases hcount
    rw [List.length_cons] at hfuel
    split at h
    · cases h
    · rename_i harguments
      obtain ⟨hleft, hargs⟩ := ih.arguments hspelled.2 (by omega) harguments
      split at h
      · cases h
        exact ⟨hleft.cons, aggregation_shape (by simp) hargs⟩
      · cases h
      · rename_i g after hgrouping
        cases h
        obtain ⟨hleft', hlabels⟩ := grouping_shape hleft.spelled hgrouping
        refine ⟨(hleft.trans hleft').cons, aggregation_shape (fun x hx => ?_) hargs⟩
        obtain rfl : g = x := Option.some.inj hx
        exact hlabels
  · rename_i hcount _
    cases hcount
    split at h
    · rename_i g after hgrouping
      obtain ⟨hleft, hlabels⟩ := grouping_shape hspelled hgrouping
      have hlength := hleft.length
      rw [List.length_cons] at hlength
      split at h
      · rename_i harguments
        cases h
        obtain ⟨hleft', hargs⟩ := ih.arguments hleft.spelled.2 (by omega) harguments
        refine ⟨hleft.trans hleft'.cons, aggregation_shape (fun x hx => ?_) hargs⟩
        obtain rfl : g = x := Option.some.inj hx
        exact hlabels
      · cases h
    · cases h

/-- An operand. -/
theorem operand_shape (ih : ShapeAt p fuel) {meaning : Meaning Expr}
    (hspelled : Spelled p false tokens) (hfuel : 4 * tokens.length + 1 ≤ fuel + 1)
    (h : operand (fuel + 1) tokens = .ok (meaning, rest)) :
    Left p tokens rest ∧ GoodMeaning p Expr.operandLevel meaning := by
  unfold operand at h
  split at h
  · cases ‹fuel + 1 = 0›
  · cases h
  · rename_i hcount
    cases hcount
    rw [List.length_cons] at hfuel
    split at h
    · rename_i inner after hexpression
      cases h
      obtain ⟨hleft, -, hgood⟩ := ih.expression (by decide) hspelled.2 (by omega) hexpression
      refine ⟨(hleft.trans (Left.refl hleft.spelled.2).cons).cons, fun e he => ?_⟩
      obtain ⟨inner', hinner, rfl⟩ := map_ok he
      have hread := hgood inner' hinner
      exact ⟨.paren hread.reads, hread.parts⟩
    · cases h
    · cases h
  · exact selector_shape (by simp) hspelled h
  · rename_i hcount
    cases hcount
    rw [List.length_cons, List.length_cons] at hfuel
    split at h
    · rename_i harguments
      cases h
      obtain ⟨hleft, hargs⟩ := ih.arguments hspelled.2.2 (by omega) harguments
      exact ⟨hleft.cons.cons, apply_function_shape hargs⟩
    · cases h
  · rename_i hcount
    cases hcount
    rw [List.length_cons] at hfuel
    obtain ⟨htoken, htail⟩ := hspelled
    split at h
    · rename_i hliteral
      cases h
      obtain ⟨hgood, hafter⟩ := literal_shape hliteral htoken
      rw [hafter] at htail
      exact ⟨(Left.refl htail).cons, hgood⟩
    · rename_i hname
      obtain ⟨hmetric, hafter⟩ := metric_name_is hname htoken
      rw [hafter] at htail
      split at h
      · obtain ⟨hleft, hgood⟩ := ih.aggregate htail (by omega) h
        exact ⟨hleft.cons, hgood⟩
      · obtain ⟨hleft, hgood⟩ := selector_shape (fun n hn => by
          obtain rfl := Option.some.inj hn
          exact hmetric) htail h
        exact ⟨hleft.cons, hgood⟩
    · rename_i hname
      obtain ⟨hmetric, hafter⟩ := metric_name_is hname htoken
      rw [hafter] at htail
      obtain ⟨hleft, hgood⟩ := selector_shape (fun n hn => by
        obtain rfl := Option.some.inj hn
        exact hmetric) htail h
      exact ⟨hleft.cons, hgood⟩
    · cases h

/-! ## Arguments -/

/-- Arguments after the opening parenthesis. -/
theorem arguments_shape (ih : ShapeAt p fuel) {meaning : Meaning (List Expr)}
    (hspelled : Spelled p false tokens) (hfuel : 4 * tokens.length + 4 ≤ fuel + 1)
    (h : arguments (fuel + 1) tokens = .ok (meaning, rest)) :
    Left p tokens rest ∧ GoodArguments p meaning := by
  unfold arguments at h
  split at h
  · cases ‹fuel + 1 = 0›
  · cases h
    refine ⟨(Left.refl hspelled.2).cons, fun es hes => ?_⟩
    cases hes
    exact fun e he => nomatch he
  · rename_i hcount _
    cases hcount
    split at h
    · rename_i first after hexpression
      obtain ⟨hleft, -, hgood⟩ := ih.expression (by decide) hspelled (by omega) hexpression
      have hlength := hleft.length
      obtain ⟨hleft', hargs⟩ := ih.moreArguments (fun es hes => by
        obtain ⟨e, he, rfl⟩ := map_ok hes
        intro e' he'
        obtain rfl : e' = e := List.mem_singleton.1 he'
        exact hgood e' he) hleft.spelled (by omega) h
      exact ⟨hleft.trans hleft', hargs⟩
    · cases h

/-- An argument is added to those before it. -/
theorem good_arguments_append {found : Meaning (List Expr)} {next : Meaning Expr}
    (hfound : GoodArguments p found) (hnext : GoodMeaning p 1 next) :
    GoodArguments p (do pure ((← found) ++ [← next])) := by
  intro es hes
  cases found with
  | error error => cases hes
  | ok front =>
      cases next with
      | error error => cases hes
      | ok next =>
          cases hes
          intro e he
          rcases List.mem_append.1 he with he | he
          · exact hfound front rfl e he
          · obtain rfl : e = next := List.mem_singleton.1 he
            exact hnext e rfl

/-- The arguments after the first one. -/
theorem more_arguments_shape (ih : ShapeAt p fuel) {found meaning : Meaning (List Expr)}
    (hfound : GoodArguments p found) (hspelled : Spelled p false tokens)
    (hfuel : 4 * tokens.length + 1 ≤ fuel + 1)
    (h : moreArguments (fuel + 1) found tokens = .ok (meaning, rest)) :
    Left p tokens rest ∧ GoodArguments p meaning := by
  have hfault : ∀ {e : QueryError}, GoodArguments p (.error e) := fun es hes => nomatch hes
  unfold moreArguments at h
  split at h
  · cases ‹fuel + 1 = 0›
  · cases h
    exact ⟨(Left.refl hspelled.2).cons, hfound⟩
  · rename_i hcount
    cases hcount
    obtain ⟨hleft, hargs⟩ := ih.moreArguments hfault hspelled.2
      (by rw [List.length_cons] at hfuel; omega) h
    exact ⟨hleft.cons, hargs⟩
  · rename_i hcount
    cases hcount
    obtain ⟨hleft, hargs⟩ := ih.moreArguments hfault hspelled.2
      (by rw [List.length_cons] at hfuel; omega) h
    exact ⟨hleft.cons, hargs⟩
  · rename_i hcount
    cases hcount
    rw [List.length_cons] at hfuel
    split at h
    · rename_i next after hexpression
      obtain ⟨hleft, -, hgood⟩ := ih.expression (by decide) hspelled.2 (by omega) hexpression
      have hlength := hleft.length
      obtain ⟨hleft', hargs⟩ :=
        ih.moreArguments (good_arguments_append hfound hgood) hleft.spelled (by omega) h
      exact ⟨(hleft.trans hleft').cons, hargs⟩
    · cases h
  · cases h

/-! ## Queries -/

/-- What is known of all that is read, with whatever fuel. -/
theorem shape_at (p : Text → Prop) (fuel : Nat) : ShapeAt p fuel := by
  induction fuel with
  | zero =>
      constructor
      case operators =>
        intro level left tokens rest meaning _ _ _ hfuel _
        omega
      all_goals
        intros
        omega
  | succ fuel ih =>
      exact
        { expression := expression_shape ih
          signed := signed_shape ih
          operand := operand_shape ih
          aggregate := aggregate_shape ih
          arguments := arguments_shape ih
          moreArguments := more_arguments_shape ih
          operators := operators_shape ih }

/-- A query that is made of tokens of a text is one that is read. -/
theorem of_tokens_shape {e : Expr} (hspelled : Spelled p false tokens)
    (h : ofTokens tokens = .ok (.ok e)) : Good p 1 e := by
  unfold ofTokens at h
  split at h
  · cases h
  · split at h
    · rename_i hexpression
      cases h
      exact ((shape_at p _).expression (by decide) hspelled (by omega) hexpression).2.2 e rfl
    · cases h
    · cases h

end QueryTidy.Query

namespace QueryTidy.Expr

open Token (QuotedFrom scanString)

/-- A query that is read from a text obeys the precedence of the operators and the rules of its
nodes, and its parts are made of words of the text. -/
theorem parse_shape {p : Text → Prop} {q : Char → Prop} {t : Text} {e : Expr}
    (hstring : ∀ c, q c → ∀ t raw rest, scanString c [] t = .ok (raw, rest) → p raw)
    (hquoted : QuotedFrom q ⟨0, .plain⟩ t) (h : parse t = .query e) :
    e.Reads 1 ∧ ∀ part ∈ e.parts, part.Read p := by
  unfold parse at h
  split at h
  · cases h
  · rename_i tokens hscan
    split at h
    · cases h
    · cases h
    · cases h
    · rename_i hof
      cases h
      obtain ⟨hreads, hparts⟩ :=
        Query.of_tokens_shape (Token.scan_spelled hstring hquoted hscan) hof
      exact ⟨hreads, hparts⟩

end QueryTidy.Expr
