import QueryTidy.Proofs.Query.Shape

/-!
# The tokens of canonical texts

The tokens that the canonical text of a query consists of (`Expr.tokens`), and what the lexer does
with the signs and the commas between them.
-/

namespace QueryTidy

/-! ## Tokens -/

/-- Runs of tokens separated by commas. -/
def Token.commas : List (List Token) → List Token
  | [] => []
  | [tokens] => tokens
  | tokens :: rest => tokens ++ .sign .comma :: commas rest

/-- After the first run stands each of the others with a comma before it. -/
theorem Token.commas_cons (first : List Token) (runs : List (List Token)) :
    commas (first :: runs) = first ++ runs.flatMap fun run => .sign .comma :: run := by
  induction runs generalizing first with
  | nil => simp [commas]
  | cons run runs ih =>
      have hcons : commas (first :: run :: runs) =
          first ++ .sign .comma :: commas (run :: runs) := rfl
      rw [hcons, ih, List.flatMap_cons, List.cons_append]

/-- Labels in parentheses. -/
def labelTokens (labels : List Text) : List Token :=
  .sign .leftParen ::
    (Token.commas (labels.map fun l => [Token.ofWord l]) ++ [.sign .rightParen])

namespace MatchOp

/-- The token of a comparison. -/
def token : MatchOp → Token
  | .equal => .sign .assign
  | .notEqual => .sign .notEqual
  | .matches => .sign .matches
  | .notMatches => .sign .notMatches

end MatchOp

/-- The tokens of a condition. -/
def Matcher.tokens (m : Matcher) : List Token :=
  [.identifier m.name, m.op.token, .string m.value]

namespace Selection

/-- The tokens of conditions of which all hold. -/
def groupTokens (ms : List Matcher) : List Token :=
  Token.commas (ms.map Matcher.tokens)

/-- The tokens of alternatives after the first one. -/
def furtherTokens (groups : List (List Matcher)) : List Token :=
  groups.flatMap fun group => .alternative :: groupTokens group

/-- The tokens between the braces. -/
def tokens : Selection → List Token
  | .all ms => groupTokens ms
  | .any [] => []
  | .any (group :: groups) => groupTokens group ++ furtherTokens groups

end Selection

namespace Selector

/-- The tokens of a selector without its timing. -/
def headTokens (s : Selector) : List Token :=
  s.name.toList.map Token.ofWord ++
    if s.selection.isEmpty then []
    else .sign .leftBrace :: (s.selection.tokens ++ [.sign .rightBrace])

end Selector

/-- The tokens of an evaluation time. -/
def Instant.tokens : Instant → List Token
  | .start => [.sign .at, .reserved .start "start".toList, .sign .leftParen, .sign .rightParen]
  | .finish => [.sign .at, .reserved .finish "end".toList, .sign .leftParen, .sign .rightParen]
  | .time negative millis => [.sign .at, .number (Instant.digits negative millis)]

/-- The tokens of an offset. -/
def Offset.tokens (o : Offset) : List Token :=
  .reserved .offset "offset".toList ::
    ((if o.negative then [.sign .minus] else []) ++ [.duration o.span.toText])

/-- The tokens of a timing. -/
def Timing.tokens (t : Timing) : List Token :=
  t.instant.toList.flatMap Instant.tokens ++ t.offset.toList.flatMap Offset.tokens

/-- The token of an operator. -/
def BinaryOp.token : BinaryOp → Token
  | .or => .reserved .or "or".toList
  | .and => .reserved .and "and".toList
  | .unless => .reserved .unless "unless".toList
  | .atan2 => .reserved .atan2 "atan2".toList
  | .equal => .sign .equal
  | .notEqual => .sign .notEqual
  | .less => .sign .less
  | .lessEqual => .sign .lessEqual
  | .greater => .sign .greater
  | .greaterEqual => .sign .greaterEqual
  | .plus => .sign .plus
  | .minus => .sign .minus
  | .times => .sign .times
  | .divide => .sign .divide
  | .modulo => .sign .modulo
  | .power => .sign .power

/-- A reserved word, spelled in small letters, with labels after it. -/
def Reserved.labelTokens (w : Reserved) (labels : List Text) : List Token :=
  .reserved w w.word :: QueryTidy.labelTokens labels

/-- The word of a matching. -/
def Matching.reserved : Matching → Reserved
  | .on _ => .on
  | .ignoring _ => .ignoring

/-- The word of a side. -/
def GroupSide.reserved : GroupSide → Reserved
  | .left => .groupLeft
  | .right => .groupRight

/-- The word of the labels of an aggregation. -/
def Grouping.reserved : Grouping → Reserved
  | .keeping _ => .grouping
  | .dropping _ => .dropping

/-- The tokens of a modifier. -/
def Modifier.tokens (m : Modifier) : List Token :=
  (if m.bool then [.reserved .bool Reserved.bool.word] else []) ++
    (m.matching.toList.flatMap (fun k => k.reserved.labelTokens k.labels) ++
      m.group.toList.flatMap fun group => group.1.reserved.labelTokens group.2)

/-- The tokens of the labels of an aggregation. -/
def Grouping.tokens (g : Grouping) : List Token :=
  g.reserved.labelTokens g.labels

/-- The tokens of a number, of which the sign is one of its own. -/
def Binary64.tokens (v : Binary64) : List Token :=
  if v.isNegative then [.sign .minus, .number v.neg.literal] else [.number v.literal]

namespace Expr

/-- The tokens of a range. -/
def rangeTokens (range : Duration) : List Token :=
  [.sign .leftBracket, .duration range.toText, .sign .rightBracket]

/-- The tokens of the range and the step of a subquery. -/
def subqueryTokens (range : Duration) (step : Option Duration) : List Token :=
  .sign .leftBracket :: .duration range.toText :: .sign .colon ::
    (step.toList.map (fun d => .duration d.toText) ++ [.sign .rightBracket])

mutual
/-- The tokens of a query. -/
def tokens : Expr → List Token
  | .number value => value.tokens
  | .string raw => [.string raw]
  | .vector s => s.headTokens ++ s.timing.tokens
  | .matrix s range => s.headTokens ++ (rangeTokens range ++ s.timing.tokens)
  | .subquery inner range step timing =>
      tokens inner ++ (subqueryTokens range step ++ timing.tokens)
  | .paren inner => .sign .leftParen :: (tokens inner ++ [.sign .rightParen])
  | .negative inner => .sign .minus :: tokens inner
  | .binary op modifier left right => tokens left ++ op.token :: (modifier.tokens ++ tokens right)
  | .call f args =>
      .identifier f.name :: .sign .leftParen ::
        (Token.commas (tokensAll args) ++ [.sign .rightParen])
  | .aggregate op grouping param inner =>
      .reserved (.aggregate op) op.word ::
        (grouping.toList.flatMap Grouping.tokens ++ .sign .leftParen ::
          ((match param with
            | some p => tokens p ++ [.sign .comma]
            | none => []) ++ (tokens inner ++ [.sign .rightParen])))

/-- The tokens of queries. -/
def tokensAll : List Expr → List (List Token)
  | [] => []
  | e :: es => tokens e :: tokensAll es
end

/-- The tokens of queries are those of each. -/
theorem tokens_all_eq (es : List Expr) : tokensAll es = es.map tokens := by
  induction es with
  | nil => rfl
  | cons e es ih => rw [tokensAll, ih, List.map_cons]

/-- The tokens of an aggregation have its parameter and its operand as arguments. -/
theorem tokens_aggregate (op : AggregateOp) (grouping : Option Grouping) (param : Option Expr)
    (inner : Expr) :
    tokens (.aggregate op grouping param inner) =
      .reserved (.aggregate op) op.word ::
        (grouping.toList.flatMap Grouping.tokens ++ .sign .leftParen ::
          (Token.commas ((param.toList ++ [inner]).map tokens) ++ [.sign .rightParen])) := by
  cases param <;> simp [tokens, Token.commas]

end Expr

/-! ## Small pieces -/

namespace Token

variable {depth : Nat} {s : LexState} {t rest : Text} {token : Token} {tokens : List Token}

/-- A space in front of tokens does not count. -/
theorem Cuts.space (h : Cuts ⟨depth, .plain⟩ t (token :: tokens) s rest) :
    Cuts ⟨depth, .plain⟩ (' ' :: t) (token :: tokens) s rest :=
  Cuts.blank [' '] (.inl rfl) blank_space h

/-- An opening parenthesis is a token. -/
theorem step_open (depth : Nat) (rest : Text) :
    step ⟨depth, .plain⟩ ('(' :: rest) = .emit (.sign .leftParen) ⟨depth + 1, .plain⟩ rest :=
  rfl

/-- A closing parenthesis is a token if one is open. -/
theorem step_close (depth : Nat) (rest : Text) :
    step ⟨depth + 1, .plain⟩ (')' :: rest) = .emit (.sign .rightParen) ⟨depth, .plain⟩ rest :=
  rfl

/-- A minus sign is a token. -/
theorem step_minus (depth : Nat) (rest : Text) :
    step ⟨depth, .plain⟩ ('-' :: rest) = .emit (.sign .minus) ⟨depth, .plain⟩ rest :=
  rfl

/-- A comma is a token, except between brackets. -/
theorem step_comma (hs : KnowsComments s) (rest : Text) :
    step s (',' :: rest) = .emit (.sign .comma) s rest := by
  obtain ⟨depth, mode⟩ := s
  rcases hs with hmode | hmode
  all_goals
    obtain rfl : mode = _ := hmode
    rfl

/-- The text of a reserved word stands for the word. -/
theorem of_text_word (w : Reserved) : Reserved.ofText? w.word = some w := by
  rcases w with op | _
  · cases op <;> decide +kernel
  all_goals decide +kernel

/-- A reserved word is a word. -/
theorem is_word_reserved (w : Reserved) : IsWord w.word := by
  have h : w.word.head?.any isWordStart = true ∧ w.word.all isWordRest = true := by
    rcases w with op | _
    · cases op <;> exact ⟨rfl, rfl⟩
    all_goals exact ⟨rfl, rfl⟩
  exact ⟨h.1, List.all_eq_true.1 h.2⟩

/-- A reserved word is cut whole. -/
theorem step_reserved (w : Reserved) (hrest : Ends rest) :
    step ⟨depth, .plain⟩ (w.word ++ rest) =
      .emit (.reserved w w.word) ⟨depth, .plain⟩ rest := by
  rw [step_word (is_word_reserved w) hrest, ofWord, of_text_word]

/-- Tokens with commas between them are there if the first run of them is. -/
theorem commas_ne_nil {first : List Token} (h : first ≠ []) (runs : List (List Token)) :
    commas (first :: runs) ≠ [] := by
  cases runs <;> simp [commas, h]

/-- Texts are cut one after the other, with commas and some blank space between them. -/
theorem cuts_commas {s : LexState} (hs : KnowsComments s) (blank : Text)
    (hblank : ∀ c ∈ blank, isSpace c = true)
    (ok : Text → Prop) (hok : ∀ t, ok (',' :: t)) (items : List (Text × List Token))
    (hitems : ∀ item ∈ items, item.2 ≠ [] ∧
      ∀ rest, ok rest → Cuts s (item.1 ++ rest) item.2 s rest) (rest : Text) (hrest : ok rest) :
    Cuts s (Text.join (',' :: blank) (items.map Prod.fst) ++ rest)
      (commas (items.map Prod.snd)) s rest := by
  induction items with
  | nil => exact .done _ _
  | cons item items ih =>
      have hitem := (hitems item List.mem_cons_self).2
      have hmore := ih fun i hi => hitems i (List.mem_cons_of_mem _ hi)
      cases items with
      | nil => simpa [Text.join, commas] using hitem rest hrest
      | cons next items =>
          have hnext := (hitems next (by simp)).1
          simp only [List.map_cons] at hmore ⊢
          rw [Text.join_cons_cons, commas, List.append_assoc, List.append_assoc, List.cons_append]
          · refine (hitem _ (hok _)).append (.next (step_comma hs _) ?_)
            obtain ⟨first, tail, hcons⟩ := List.exists_cons_of_ne_nil
              (commas_ne_nil hnext (items.map Prod.snd))
            rw [hcons] at hmore ⊢
            exact hmore.blank blank hs hblank
          · exact fun h => List.cons_ne_nil _ _ h

end Token

end QueryTidy
