import QueryTidy.Proofs.Query.Metrics

/-!
# Operations on two selectors

A binary operation on two selectors as it is written. Its modifier says whether a comparison gives
numbers, on which labels the sides agree, and which side may have many series for one of the other;
a side is named with or without a list of labels (`WrittenModifier`). A text with the tokens of an
operation denotes what is meant if the rules are obeyed (`VectorOperation.parse_read`); a side that
stands without a matching is refused (`VectorOperation.parse_refused`).
-/

namespace QueryTidy

open Token (Cuts Ends)

/-! ## Written modifiers -/

/-- A reserved word, with a list of labels after it if there is one, and its tokens. -/
def Reserved.clause (w : Reserved) : Option (List Text) → Text × List Token
  | none => (w.word, [.reserved w w.word])
  | some labels => (w.labelText labels, w.labelTokens labels)

/-- A modifier as it is written. -/
structure WrittenModifier where
  bool : Bool
  matching : Option Matching
  group : Option (GroupSide × Option (List Text))
  are_labels : ∀ l ∈ matching.toList.flatMap Matching.labels ++
    group.toList.flatMap (fun side => side.2.getD []), IsLabel l

namespace WrittenModifier

/-- The words of a modifier, each with the labels that follow it. -/
def words (w : WrittenModifier) : List (Reserved × Option (List Text)) :=
  (if w.bool then [(.bool, none)] else []) ++
    (w.matching.toList.map (fun k => (k.reserved, some k.labels)) ++
      w.group.toList.map fun side => (side.1.reserved, side.2))

/-- The text of a modifier, with a space before each word. -/
def text (w : WrittenModifier) : Text :=
  spaced (w.words.map fun word => word.1.clause word.2)

/-- The tokens of a modifier. -/
def tokens (w : WrittenModifier) : List Token :=
  (w.words.map fun word => word.1.clause word.2).flatMap Prod.snd

/-- The modifier that is meant: a side without a list of labels includes none. -/
def modifier (w : WrittenModifier) : Modifier :=
  ⟨w.bool, w.matching, w.group.map fun side => (side.1, side.2.getD [])⟩

/-- The labels after a word of a modifier are labels. -/
theorem labels_of_word {w : WrittenModifier} {word : Reserved × Option (List Text)}
    (hword : word ∈ w.words) : ∀ labels ∈ word.2, ∀ l ∈ labels, IsLabel l := by
  intro labels hlabels l hl
  rcases List.mem_append.1 hword with hmem | hmem
  · split at hmem
    · obtain rfl := List.mem_singleton.1 hmem
      cases hlabels
    · cases hmem
  · rcases List.mem_append.1 hmem with hmem | hmem
    · obtain ⟨k, hk, rfl⟩ := List.mem_map.1 hmem
      obtain rfl : k.labels = labels := Option.some.inj hlabels
      exact w.are_labels l (List.mem_append_left _ (List.mem_flatMap.2 ⟨k, hk, hl⟩))
    · obtain ⟨side, hside, rfl⟩ := List.mem_map.1 hmem
      refine w.are_labels l (List.mem_append_right _ (List.mem_flatMap.2 ⟨side, hside, ?_⟩))
      rw [show side.2 = some labels from hlabels]
      exact hl

/-- A modifier is cut whole. -/
theorem cuts_text (w : WrittenModifier) {depth : Nat} {rest : Text} (hrest : Ends rest) :
    Cuts ⟨depth, .plain⟩ (w.text ++ rest) w.tokens ⟨depth, .plain⟩ rest := by
  refine cuts_spaced (fun clause hclause => ?_) hrest
  obtain ⟨⟨word, labels⟩, hword, rfl⟩ := List.mem_map.1 hclause
  have hlabels := labels_of_word hword
  cases labels with
  | none =>
      exact ⟨List.cons_ne_nil _ _, fun rest hrest => .one (Token.step_reserved word hrest)⟩
  | some labels =>
      exact ⟨List.cons_ne_nil _ _, fun rest _ => cuts_label_text word (hlabels labels rfl) rest⟩

end WrittenModifier

/-! ## Reading modifiers -/

namespace Query

variable {rest : List Token}

/-- A modifier may end before the tokens: they begin with no word of a modifier and with no list. -/
def EndsModifier (tokens : List Token) : Prop :=
  NoModifier tokens ∧ ∀ tail, tokens ≠ .sign .leftParen :: tail

/-- The side with many series is read, with or without a list of labels. -/
theorem matched_group_written (bool : Bool) (k : Matching)
    {group : Option (GroupSide × Option (List Text))}
    (hlabels : ∀ l ∈ group.toList.flatMap (fun side => side.2.getD []), IsLabel l)
    (hrest : EndsModifier rest) :
    matchedGroup bool (.ok k)
      (group.toList.flatMap (fun side => (side.1.reserved.clause side.2).2) ++ rest) =
        .ok (.ok ⟨bool, some k, group.map fun side => (side.1, side.2.getD [])⟩, rest) := by
  cases group with
  | none =>
      have hnone : ∀ l ∈ (none : Option (GroupSide × List Text)).toList.flatMap Prod.snd,
          IsLabel l := fun l hl => nomatch hl
      exact matched_group_tokens bool k hnone hrest.1
  | some side =>
      obtain ⟨side, labels⟩ := side
      cases labels with
      | some labels =>
          have hsome : ∀ l ∈ (some (side, labels)).toList.flatMap Prod.snd, IsLabel l := hlabels
          exact matched_group_tokens bool k hsome hrest.1
      | none =>
          have hside : groupSide? (.reserved side.reserved side.reserved.word) = some side := by
            cases side <;> rfl
          have htokens : (some (side, (none : Option (List Text)))).toList.flatMap
              (fun side => (side.1.reserved.clause side.2).2) ++ rest =
                .reserved side.reserved side.reserved.word :: rest := rfl
          rw [htokens, matchedGroup]
          simp only [hside]
          split
          · rename_i after
            exact absurd rfl (hrest.2 after)
          · rfl

/-- A modifier is read as it is meant if its side with many series stands after a matching. -/
theorem modifier_written {w : WrittenModifier}
    (hgroup : w.group.isSome = true → w.matching.isSome = true) (hrest : EndsModifier rest) :
    modifier (w.tokens ++ rest) = .ok (.ok w.modifier, rest) := by
  obtain ⟨bool, k, group, hlabels⟩ := w
  cases k with
  | none =>
      obtain rfl : group = none := by
        cases group with
        | none => rfl
        | some side => cases hgroup rfl
      cases bool with
      | true => exact matching_none true hrest.1
      | false => exact modifier_none hrest.1
  | some k =>
      have hmatching : matching bool (k.reserved.labelTokens k.labels ++
          (group.toList.flatMap (fun side => (side.1.reserved.clause side.2).2) ++ rest)) =
            .ok (.ok ⟨bool, some k, group.map fun side => (side.1, side.2.getD [])⟩, rest) := by
        rw [matching_labels bool fun l hl => hlabels l (List.mem_append_left _ (by simpa using hl))]
        exact matched_group_written bool k (fun l hl => hlabels l (List.mem_append_right _ hl))
          hrest
      have htokens : WrittenModifier.tokens ⟨bool, some k, group, hlabels⟩ ++ rest =
          (if bool then [.reserved .bool Reserved.bool.word] else []) ++
            (k.reserved.labelTokens k.labels ++
              (group.toList.flatMap (fun side => (side.1.reserved.clause side.2).2) ++ rest)) := by
        cases bool <;> simp [WrittenModifier.tokens, WrittenModifier.words, Reserved.clause,
          List.flatMap_map]
      rw [htokens]
      cases bool with
      | true => exact hmatching
      | false => cases k <;> exact hmatching

/-- A modifier is refused: it obeys no grammar, or has a fault of meaning, or ends before one of its
words. -/
def RefusesModifier (tokens rest : List Token) : Prop :=
  modifier tokens = .error .grammar ∨ (∃ e, modifier tokens = .ok (.error e, rest)) ∨
    ∃ m token tail, modifier tokens = .ok (m, token :: tail) ∧ isModifierWord token = true

/-- A side with many series is refused without a matching. -/
theorem modifier_refused {w : WrittenModifier} (hmatching : w.matching = none)
    (hgroup : w.group.isSome = true) (hrest : EndsModifier rest) :
    RefusesModifier (w.tokens ++ rest) rest := by
  obtain ⟨bool, k, group, hlabels⟩ := w
  obtain rfl : k = none := hmatching
  obtain ⟨⟨side, labels⟩, rfl⟩ := Option.isSome_iff_exists.1 hgroup
  cases bool with
  | true =>
      -- After `bool` only a matching is looked for, and the word of the side is left.
      refine .inr (.inr ⟨.ok ⟨true, none, none⟩, .reserved side.reserved side.reserved.word, ?_⟩)
      cases labels <;> cases side <;> exact ⟨_, rfl, rfl⟩
  | false =>
      cases labels with
      | none =>
          left
          have hnolist : Query.labels rest = .error .grammar := by
            unfold Query.labels
            split
            · exact absurd rfl (hrest.2 _)
            · exact absurd rfl (hrest.2 _)
            · rfl
          have htokens : WrittenModifier.tokens ⟨false, none, some (side, none), hlabels⟩ ++ rest =
              .reserved side.reserved side.reserved.word :: rest := rfl
          rw [htokens]
          cases side <;> simp only [GroupSide.reserved, modifier, hnolist] <;> rfl
      | some labels =>
          refine .inr (.inl ⟨.unexpectedGroup side, ?_⟩)
          have hread : Query.labels (labelTokens labels ++ rest) = .ok (.ok labels, rest) :=
            labels_tokens fun l hl => hlabels l (by simpa using hl)
          have htokens : WrittenModifier.tokens ⟨false, none, some (side, some labels), hlabels⟩ ++
              rest =
                .reserved side.reserved side.reserved.word :: (labelTokens labels ++ rest) := by
            simp [WrittenModifier.tokens, WrittenModifier.words, Reserved.clause,
              Reserved.labelTokens]
          rw [htokens]
          cases side <;> simp only [GroupSide.reserved, modifier, hread] <;> rfl

end Query

/-! ## Written selectors -/

/-- A selector as it is written: the name of a metric, and conditions in double quotes. -/
structure WrittenSelector where
  name : Text
  selection : Selection
  is_name : IsMetricName name
  read : selection.Read Token.Quotable

namespace WrittenSelector

/-- A name without conditions is a selector. -/
def bare (name : Text) (h : IsMetricName name) : WrittenSelector :=
  ⟨name, .all [], h, fun _ hm => nomatch hm⟩

/-- The selector that is meant. -/
def selector (s : WrittenSelector) : Selector :=
  ⟨some s.name, s.selection, {}⟩

/-- The text of a selector, with its conditions in the order in which they are written. -/
def text (s : WrittenSelector) : Text :=
  s.name ++ if s.selection.isEmpty then [] else '\x7b' :: (s.selection.written ++ ['\x7d'])

/-- The tokens of a selector. -/
def tokens (s : WrittenSelector) : List Token :=
  s.selector.headTokens

/-- The tokens of a selector begin with its name. -/
theorem tokens_eq (s : WrittenSelector) : s.tokens = Token.ofWord s.name ::
    if s.selection.isEmpty then []
    else .sign .leftBrace :: (s.selection.tokens ++ [.sign .rightBrace]) :=
  rfl

/-- A selector is cut whole. -/
theorem cuts_text (s : WrittenSelector) {depth : Nat} {rest : Text} (hrest : Ends rest) :
    Cuts ⟨depth, .plain⟩ (s.text ++ rest) s.tokens ⟨depth, .plain⟩ rest := by
  have hbraces : Cuts ⟨depth, .plain⟩ _ _ _ _ := cuts_braces (cuts_written s.read) rest
  rw [tokens_eq, text, List.append_assoc]
  split
  · exact .one (Token.step_word s.is_name.1 hrest)
  · rw [List.cons_append, List.append_assoc]
    exact .next (Token.step_word s.is_name.1 rfl) hbraces

/-- A modifier may end before a selector. -/
theorem ends_modifier (s : WrittenSelector) : Query.EndsModifier s.tokens := by
  obtain ⟨hstarts, hsign⟩ := Query.starts_name s.is_name.2
  rw [tokens_eq]
  refine ⟨?_, fun tail h => hsign _ (List.cons.inj h).1⟩
  cases htoken : Token.ofWord s.name with
  | sign sign => exact absurd htoken (hsign sign)
  | _ =>
      rw [htoken] at hstarts
      exact hstarts

/-- A selector is read, and its rules are tested. -/
theorem signed_tokens (s : WrittenSelector) {level : Nat} {rest : List Token}
    (hrest : Query.Stops level rest) (fuel : Nat) :
    Query.signed (fuel + 2) (s.tokens ++ rest) =
      .ok (Expr.checked (.vector s.selector), rest) := by
  have hsign := (Query.starts_name s.is_name.2).2
  have hselector := Query.selector_tokens_checked (some s.name) s.read hrest.follows
  rw [tokens_eq, List.cons_append]
  rw [Query.signed_operand (hsign _) (hsign _)
    ((Query.operand_name s.is_name.2 ?_ fuel).trans hselector), Query.postfixes_stop hrest]
  · rfl
  · split
    · exact .inl hrest.follows
    · exact .inr ⟨_, rfl⟩

end WrittenSelector

/-! ## Operations -/

/-- A binary operation on two selectors as it is written. -/
structure VectorOperation where
  op : BinaryOp
  modifier : WrittenModifier
  left : WrittenSelector
  right : WrittenSelector

namespace VectorOperation

open QueryTidy.Expr (checked applyBinary)
open Query (ofTokens)

/-- The text of an operation. -/
def text (x : VectorOperation) : Text :=
  x.left.text ++ ' ' :: (x.op.word ++ (x.modifier.text ++ ' ' :: x.right.text))

/-- The tokens of an operation. -/
def tokens (x : VectorOperation) : List Token :=
  x.left.tokens ++ x.op.token :: (x.modifier.tokens ++ x.right.tokens)

/-- The query that is meant. -/
def query (x : VectorOperation) : Expr :=
  .binary x.op x.modifier.modifier (.vector x.left.selector) (.vector x.right.selector)

/-- The text of an operation is cut into its tokens. -/
theorem scan_text (x : VectorOperation) : Token.scan x.text = .ok x.tokens := by
  have hspace : ∀ t, Ends (' ' :: t) := fun _ => rfl
  have hright : Cuts ⟨0, .plain⟩ x.right.text x.right.tokens ⟨0, .plain⟩ [] := by
    have hends : Ends [] := rfl
    have h : Cuts ⟨0, .plain⟩ _ _ _ _ := x.right.cuts_text hends
    rwa [List.append_nil] at h
  have hmodifier : Cuts ⟨0, .plain⟩ (x.modifier.text ++ ' ' :: x.right.text)
      (x.modifier.tokens ++ x.right.tokens) ⟨0, .plain⟩ [] := by
    rw [x.right.tokens_eq] at hright ⊢
    exact (x.modifier.cuts_text (hspace _)).append hright.space
  have hop : Cuts ⟨0, .plain⟩ (x.op.word ++ (x.modifier.text ++ ' ' :: x.right.text))
      (x.op.token :: (x.modifier.tokens ++ x.right.tokens)) ⟨0, .plain⟩ [] := by
    obtain ⟨t, ht⟩ : ∃ t, x.modifier.text ++ ' ' :: x.right.text = ' ' :: t := by
      unfold WrittenModifier.text spaced
      cases x.modifier.words.map fun word => word.1.clause word.2 with
      | nil => exact ⟨_, rfl⟩
      | cons clause clauses => exact ⟨_, rfl⟩
    rw [ht] at hmodifier ⊢
    exact .next (step_operator x.op (.inl rfl) t) hmodifier
  exact Cuts.scan ((x.left.cuts_text (hspace _)).append hop.space) rfl

/-- The left side of an operation is read, then its modifier and its right side. -/
theorem of_tokens_eq (x : VectorOperation) : ∃ fuel,
    ofTokens x.tokens =
      match Query.modifier (x.modifier.tokens ++ x.right.tokens) with
      | .error stop => .error stop
      | .ok (m, rest) =>
          match Query.expression (fuel + 3) x.op.rightLevel rest with
          | .error stop => .error stop
          | .ok (right, rest) =>
              match Query.operators (fuel + 3) 1
                (do let left ← checked (.vector x.left.selector); let m ← m
                    applyBinary x.op m left (← right)) rest with
              | .ok (e, []) => .ok e
              | .ok (_, _ :: _) => .error .grammar
              | .error stop => .error stop := by
  have hstops : ∀ rest, Query.Stops 7 (x.op.token :: rest) := fun rest =>
    Query.stops_operator (Nat.lt_succ_of_le (Expr.level_bounds x.op).2.1) rest
  have hlevel := (Expr.level_bounds x.op).1
  refine ⟨4 * x.tokens.length + 3, ?_⟩
  have hleft : Query.expression (4 * x.tokens.length + 8) 1 x.tokens =
      Query.operators (4 * x.tokens.length + 7) 1 (checked (.vector x.left.selector))
        (x.op.token :: (x.modifier.tokens ++ x.right.tokens)) := by
    rw [Query.expression, tokens, x.left.signed_tokens (hstops _)]
  have hcons : ofTokens x.tokens =
      match Query.expression (4 * x.tokens.length + 8) 1 x.tokens with
      | .ok (e, []) => .ok e
      | .ok (_, _ :: _) => .error .grammar
      | .error stop => .error stop := by
    unfold tokens
    rw [x.left.tokens_eq]
    rfl
  rw [hcons, hleft, Query.operators, Query.of_token_token]
  simp only [if_neg (Nat.not_lt.2 hlevel)]
  cases Query.modifier (x.modifier.tokens ++ x.right.tokens) with
  | error stop => rfl
  | ok read =>
      obtain ⟨m, rest⟩ := read
      dsimp only
      cases Query.expression (4 * x.tokens.length + 6) x.op.rightLevel rest with
      | error stop => rfl
      | ok read => rfl

/-- An operation with a modifier that is read is read as its parts are, which are tested one after
the other. -/
theorem of_tokens_read (x : VectorOperation) {m : Meaning Modifier}
    (h : Query.modifier (x.modifier.tokens ++ x.right.tokens) = .ok (m, x.right.tokens)) :
    ofTokens x.tokens =
      .ok (do
        let left ← checked (.vector x.left.selector)
        let m ← m
        applyBinary x.op m left (← checked (.vector x.right.selector))) := by
  obtain ⟨fuel, htokens⟩ := x.of_tokens_eq
  have hend : ∀ level, Query.Stops level [] := fun _ => rfl
  have hright : Query.expression (fuel + 3) x.op.rightLevel x.right.tokens =
      .ok (checked (.vector x.right.selector), []) := by
    have hsigned := x.right.signed_tokens (hend x.op.rightLevel) fuel
    rw [List.append_nil] at hsigned
    rw [Query.expression, hsigned]
    exact Query.operators_stop (hend _) _ _
  rw [htokens, h]
  dsimp only
  rw [hright]
  dsimp only
  rw [Query.operators_stop (hend 1)]

/-- No query begins with a word of a modifier. -/
theorem expression_modifier_word {token : Token} (h : Query.isModifierWord token = true)
    (fuel level : Nat) (tail : List Token) :
    Query.expression (fuel + 3) level (token :: tail) = .error .grammar := by
  cases token with
  | reserved w t => cases w <;> first | rfl | cases h
  | _ => cases h

/-- An operation with a modifier that is refused is no query. -/
theorem of_tokens_refused (x : VectorOperation)
    (h : Query.RefusesModifier (x.modifier.tokens ++ x.right.tokens) x.right.tokens) (e : Expr) :
    ofTokens x.tokens ≠ .ok (.ok e) := by
  obtain hgrammar | ⟨fault, hfault⟩ | ⟨m, token, tail, hread, hword⟩ := h
  · obtain ⟨fuel, htokens⟩ := x.of_tokens_eq
    rw [htokens, hgrammar]
    simp
  · rw [x.of_tokens_read hfault]
    cases checked (.vector x.left.selector) <;> simp [bind, Except.bind]
  · obtain ⟨fuel, htokens⟩ := x.of_tokens_eq
    rw [htokens, hread]
    dsimp only
    rw [expression_modifier_word hword]
    simp

/-- An operation is no query if its side with many series stands without a matching. -/
theorem parse_refused (x : VectorOperation) {s : Text} (hscan : Token.scan s = .ok x.tokens)
    (hside : x.modifier.group.isSome = true) (hmatching : x.modifier.matching = none) (e : Expr) :
    Expr.parse s ≠ .query e := by
  intro h
  exact x.of_tokens_refused (Query.modifier_refused hmatching hside x.right.ends_modifier) e
    (Query.of_tokens_of_parse hscan h)

/-- What an operation denotes: its sides and the whole are tested one after the other. -/
def meaning (x : VectorOperation) : Meaning Expr := do
  let left ← checked (.vector x.left.selector)
  let right ← checked (.vector x.right.selector)
  applyBinary x.op x.modifier.modifier left right

/-- An operation denotes the query that is meant if all tests are passed. -/
theorem meaning_ok_iff (x : VectorOperation) {e : Expr} : x.meaning = .ok e ↔
    e = x.query ∧ x.left.selector.check = .ok () ∧ x.right.selector.check = .ok () ∧
      x.query.check = .ok () := by
  constructor
  · intro h
    unfold meaning at h
    cases hleft : checked (.vector x.left.selector) with
    | error fault =>
        rw [hleft] at h
        cases h
    | ok left =>
        obtain ⟨rfl, hcheckleft⟩ := Query.checked_ok hleft
        cases hright : checked (.vector x.right.selector) with
        | error fault =>
            rw [hleft, hright] at h
            cases h
        | ok right =>
            obtain ⟨rfl, hcheckright⟩ := Query.checked_ok hright
            rw [hleft, hright] at h
            obtain ⟨rfl, hcheck⟩ := Query.checked_ok h
            exact ⟨rfl, hcheckleft, hcheckright, hcheck⟩
  · rintro ⟨rfl, hleft, hright, hcheck⟩
    have hcheckleft : (Expr.vector x.left.selector).check = .ok () := hleft
    have hcheckright : (Expr.vector x.right.selector).check = .ok () := hright
    rw [meaning, Query.checked_of_check hcheckleft, Query.checked_of_check hcheckright]
    exact Query.checked_of_check hcheck

/-- A text with the tokens of an operation denotes what the operation does, if its side with many
series stands after a matching. -/
theorem parse_read (x : VectorOperation) {s : Text} (hscan : Token.scan s = .ok x.tokens)
    (hgroup : x.modifier.group.isSome = true → x.modifier.matching.isSome = true) :
    Expr.parse s = Query.resultOf x.meaning := by
  have hof : ofTokens x.tokens = .ok x.meaning :=
    x.of_tokens_read (Query.modifier_written hgroup x.right.ends_modifier)
  exact Query.parse_of_tokens hscan hof

/-- What is read from the text of an operation is the query that is meant. -/
theorem query_of_parse (x : VectorOperation) {e : Expr} (h : Expr.parse x.text = .query e) :
    e = x.query := by
  by_cases hgroup : x.modifier.group.isSome = true → x.modifier.matching.isSome = true
  · rw [x.parse_read x.scan_text hgroup, Query.result_of_eq_query_iff] at h
    exact (x.meaning_ok_iff.1 h).1
  · obtain ⟨hside, hnone⟩ := Classical.not_imp.1 hgroup
    have hmatching : x.modifier.matching = none := by simpa using hnone
    exact absurd h (x.parse_refused x.scan_text hside hmatching e)

end VectorOperation

end QueryTidy
