import QueryTidy.Proofs.Query.Preserved

/-!
# Queries about one metric

The shortest queries are the name of a metric and what follows an operand: a range, an offset, a
fixed time, or several of them. Such a text is read in two steps, of which the first is the same for
all: the name is the operand (`parse_metric`), and what follows is read by `Query.postfixes`.
-/

namespace QueryTidy

open Token (Cuts Ends)

/-- The selector of all series of a metric. -/
def Selector.ofMetric (name : Text) : Selector :=
  ⟨some name, .all [], {}⟩

/-! ## Texts -/

/-- A selector of all series of a metric has its name as its text, but for the timing. -/
theorem Selector.head_of_metric (name : Text) (timing : Timing) :
    head { ofMetric name with timing := timing } = name :=
  List.append_nil name

namespace Expr

/-- The canonical text of a selector. -/
theorem pretty_vector (s : Selector) : (vector s).pretty = s.head ++ s.timing.toText := by
  rw [pretty, layout]
  · rfl
  all_goals simp

/-- The canonical text of a selector with a range. -/
theorem pretty_matrix (s : Selector) (range : Duration) :
    (matrix s range).pretty = s.head ++ '[' :: range.toText ++ ']' :: s.timing.toText := by
  rw [pretty, layout]
  · rfl
  all_goals simp

/-- The canonical text of a subquery begins with that of its operand. -/
theorem pretty_subquery (inner : Expr) (range : Duration) (step : Option Duration)
    (timing : Timing) :
    (subquery inner range step timing).pretty = inner.pretty ++ subqueryText range step timing := by
  rw [pretty, layout, pretty]

end Expr

/-! ## Reading -/

namespace Query

/-- What is read from tokens that obey the grammar. -/
def resultOf : Meaning Expr → ParseResult
  | .ok e => .query e
  | .error e => .rejected (.meaning e)

variable {name after : Text} {more : List Token} {meaning : Meaning Expr}

/-- Tokens that obey the grammar denote a query if they have no fault of meaning. -/
theorem result_of_eq_query_iff {e : Expr} : resultOf meaning = .query e ↔ meaning = .ok e := by
  cases meaning <;> simp [resultOf]

/-- A text denotes what its tokens do. -/
theorem parse_of_tokens {s : Text} {tokens : List Token} (hscan : Token.scan s = .ok tokens)
    (h : ofTokens tokens = .ok meaning) : Expr.parse s = resultOf meaning := by
  unfold Expr.parse
  rw [hscan]
  dsimp only
  rw [h]
  cases meaning <;> rfl

/-- The tokens of a text that denotes a query denote the query. -/
theorem of_tokens_of_parse {s : Text} {tokens : List Token} {e : Expr}
    (hscan : Token.scan s = .ok tokens) (h : Expr.parse s = .query e) :
    ofTokens tokens = .ok (.ok e) := by
  unfold Expr.parse at h
  rw [hscan] at h
  dsimp only at h
  split at h
  · cases h
  · cases h
  · cases h
  · rename_i hof
    cases h
    exact hof

/-- The name of a metric and the tokens after it are read as an operand and what follows it. -/
theorem of_tokens_metric (hname : IsMetricName name) (hfollows : Follows more)
    (hmore : postfixes (more.length + 1) (.ok (.vector (Selector.ofMetric name))) more =
      .ok (meaning, [])) : ofTokens (Token.ofWord name :: more) = .ok meaning := by
  have htoken := hname.2
  generalize Token.ofWord name = token at htoken ⊢
  have hsign := (starts_name htoken).2
  have hempty : (Selection.all []).Read Token.Quotable := fun m hm => nomatch hm
  have hselector : selector (some name) more =
      .ok (.ok (.vector (Selector.ofMetric name)), more) :=
    selector_tokens (some name) hempty rfl hfollows
  have hoperand : ∀ fuel, operand (fuel + 1) (token :: more) =
      .ok (.ok (.vector (Selector.ofMetric name)), more) := fun fuel =>
    (operand_name htoken (.inl hfollows) fuel).trans hselector
  have hstops : Stops 1 [] := rfl
  have hread : ∀ fuel, expression (fuel + 3) 1 (token :: more) = .ok (meaning, []) := by
    intro fuel
    have hsigned := (signed_operand (hsign _) (hsign _) (hoperand fuel)).trans hmore
    simp only [expression, hsigned, operators_stop hstops]
  simp only [ofTokens, BinaryOp.level, hread]

/-- A text of a metric and what follows it is read as its tokens are. -/
theorem parse_metric (hname : IsMetricName name) (hends : Ends after)
    (hcuts : Cuts ⟨0, .plain⟩ after more ⟨0, .plain⟩ []) (hfollows : Follows more)
    (hmore : postfixes (more.length + 1) (.ok (.vector (Selector.ofMetric name))) more =
      .ok (meaning, [])) : Expr.parse (name ++ after) = resultOf meaning := by
  have hscan : Token.scan (name ++ after) = .ok (Token.ofWord name :: more) :=
    Cuts.scan (.next (Token.step_word hname.1 hends) hcuts) rfl
  exact parse_of_tokens hscan (of_tokens_metric hname hfollows hmore)

/-- A text of a metric and what extends it is read as the extended query. -/
theorem parse_extended {e : Expr} (hname : IsMetricName name) (hends : Ends after)
    (hcuts : Cuts ⟨0, .plain⟩ after more ⟨0, .plain⟩ []) (hfollows : Follows more)
    (hextends : Extends (.vector (Selector.ofMetric name)) more e) :
    Expr.parse (name ++ after) = .query e := by
  obtain ⟨fuel, -, hmore⟩ := hextends (more.length + 1) [] (by rw [List.append_nil]; omega)
  have hstops : Stops 1 [] := rfl
  rw [List.append_nil, postfixes_stop hstops] at hmore
  exact parse_metric hname hends hcuts hfollows hmore

/-- A text of which the tokens obey the grammar is put into the canonical form of what it is read
as, if it has no fault of meaning. -/
theorem format_of_parse {s t : Text} (hparse : Expr.parse s = resultOf meaning) :
    format s = .formatted t ↔ ∃ e, meaning = .ok e ∧ e.pretty = t := by
  simp only [format_eq_formatted_iff, hparse, result_of_eq_query_iff]

end Query

end QueryTidy
