import Mathlib.Data.List.Infix
import QueryTidy.Query.Format

/-!
# Durations that are too long

Reading a text ends with a query, with a fault that is told, or with a stop of the whole program.
Only a duration stops the program: one that is written as a number of seconds too large for any
duration, where a range, a step or an offset is expected (`Query.Oversize`). Each function of the
reader accounts for its outcome (`Query.Accounted`): what it leaves is an end of the tokens, and
where it stops the program there is such a duration among the tokens.
-/

namespace QueryTidy.Query

variable {α β : Type} {fuel : Nat} {tokens rest : List Token}

/-! ## Oversized durations among tokens -/

/-- A number of seconds is next that no duration can have, where a duration may end. -/
def beginsOversize : List Token → Bool
  | .number text :: rest =>
      match Literal.value text with
      | .ok value => (Duration.ofSeconds? value).isNone && endsDuration rest
      | .error _ => false
  | _ => false

/-- The tokens from which a duration is read, if one is read next: those after a bracket or a colon,
or after `offset` and its sign. -/
def durationNext? : List Token → Option (List Token)
  | .sign .leftBracket :: rest => some rest
  | .sign .colon :: rest => some rest
  | .reserved .offset _ :: rest => some (plusOrMinus rest).2
  | _ => none

/-- Where a duration is read, somewhere among the tokens, there is an oversized one. -/
def Oversize (tokens : List Token) : Prop :=
  ∃ rest ∈ tokens.tails, (durationNext? rest).any beginsOversize = true

instance (tokens : List Token) : Decidable (Oversize tokens) :=
  inferInstanceAs
    (Decidable (∃ rest ∈ tokens.tails, (durationNext? rest).any beginsOversize = true))

/-- An oversized duration in the end of a list is one in the list. -/
theorem Oversize.of_suffix (h : Oversize rest) (hrest : rest <:+ tokens) : Oversize tokens := by
  obtain ⟨tail, htail, hnext⟩ := h
  exact ⟨tail, (List.mem_tails _ _).2 (((List.mem_tails _ _).1 htail).trans hrest), hnext⟩

/-- An oversized duration that is read next. -/
theorem Oversize.of_next {next : List Token} (hnext : durationNext? tokens = some next)
    (h : beginsOversize next = true) : Oversize tokens :=
  ⟨tokens, (List.mem_tails _ _).2 List.suffix_rfl, by rw [hnext]; exact h⟩

/-! ## Accounting for an outcome -/

/-- What a function of the reader leaves is an end of its tokens, and if it stops the program there
is an oversized duration among them. -/
def Accounted (tokens : List Token) : Parsed α → Prop
  | .ok (_, rest) => rest <:+ tokens
  | .error .overflow => Oversize tokens
  | .error .grammar => True

/-- A function that takes nothing and stops nothing. -/
theorem accounted_ok (a : α) (h : rest <:+ tokens) :
    Accounted tokens (.ok (a, rest) : Parsed α) :=
  h

/-- A fault of grammar stops no program. -/
theorem accounted_grammar : Accounted tokens (.error .grammar : Parsed α) :=
  trivial

/-- What is accounted for an end of the tokens is accounted for all of them. -/
theorem Accounted.of_suffix {outcome : Parsed α} (h : Accounted rest outcome)
    (hrest : rest <:+ tokens) : Accounted tokens outcome := by
  cases outcome with
  | ok read => exact List.IsSuffix.trans h hrest
  | error stop =>
      cases stop with
      | grammar => trivial
      | overflow => exact Oversize.of_suffix h hrest

/-- Tokens in front may have been taken before. -/
theorem Accounted.cons {outcome : Parsed α} (h : Accounted rest outcome) (token : Token) :
    Accounted (token :: rest) outcome :=
  h.of_suffix (List.suffix_cons _ _)

/-- A stop is passed on. -/
theorem Accounted.stop {stop : ParseStop} (h : Accounted tokens (.error stop : Parsed α)) :
    Accounted tokens (.error stop : Parsed β) := by
  cases stop with
  | grammar => trivial
  | overflow => exact h

/-- A function that goes on where another one ends, and passes on a stop of the other. -/
theorem Accounted.next {outcome : Parsed α} {result : Parsed β} (h : Accounted tokens outcome)
    (hok : ∀ a rest, outcome = .ok (a, rest) → Accounted rest result)
    (hstop : ∀ stop, outcome = .error stop → result = .error stop) : Accounted tokens result := by
  cases outcome with
  | ok read =>
      have hrest : read.2 <:+ tokens := h
      exact (hok read.1 read.2 rfl).of_suffix hrest
  | error stop =>
      rw [hstop stop rfl]
      exact h.stop

/-- Another meaning of the same tokens. -/
theorem Accounted.map {outcome : Parsed α} {f : α × List Token → β × List Token}
    (h : Accounted tokens outcome) (hf : ∀ read, (f read).2 = read.2) :
    Accounted tokens (outcome.map f) := by
  cases outcome with
  | ok read =>
      have hrest : (f read).2 <:+ tokens := (hf read).symm ▸ h
      exact hrest
  | error stop => exact h.stop

/-! ## Labels and modifiers -/

/-- The rest of a list of labels. -/
theorem labels_from_accounted (found : Meaning (List Text)) (tokens : List Token) :
    Accounted tokens (labelsFrom found tokens) := by
  induction found, tokens using labelsFrom.induct with
  | case1 found token rest text htext =>
      simp only [labelsFrom, htext]
      exact (accounted_ok _ List.suffix_rfl).cons _ |>.cons _
  | case2 found token rest htext =>
      simp only [labelsFrom, htext]
      exact accounted_grammar
  | case3 found token rest text htext =>
      simp only [labelsFrom, htext]
      exact (accounted_ok _ List.suffix_rfl).cons _ |>.cons _ |>.cons _
  | case4 found token rest htext =>
      simp only [labelsFrom, htext]
      exact accounted_grammar
  | case5 found token rest hrest text htext ih =>
      rw [labelsFrom.eq_3 _ _ _ hrest, htext]
      exact (ih.cons _).cons _
  | case6 found token rest hrest htext =>
      rw [labelsFrom.eq_3 _ _ _ hrest, htext]
      exact accounted_grammar
  | case7 found tokens h1 h2 h3 =>
      rw [labelsFrom.eq_4 _ _ h1 h2 h3]
      exact accounted_grammar

/-- A list of labels. -/
theorem labels_accounted (tokens : List Token) : Accounted tokens (labels tokens) := by
  unfold labels
  split
  · exact (accounted_ok _ List.suffix_rfl).cons _ |>.cons _
  · exact (labels_from_accounted _ _).cons _
  · exact accounted_grammar

/-- The labels of an aggregation. -/
theorem grouping_accounted {outcome : Parsed (Meaning Grouping)}
    (h : grouping? tokens = some outcome) : Accounted tokens outcome := by
  unfold grouping? at h
  split at h
  · cases h
    refine .cons (.map (labels_accounted _) fun _ => ?_) _
    rfl
  · cases h
    refine .cons (.map (labels_accounted _) fun _ => ?_) _
    rfl
  · cases h

/-- The side with many series. -/
theorem matched_group_accounted (bool : Bool) (m : Meaning Matching) (tokens : List Token) :
    Accounted tokens (matchedGroup bool m tokens) := by
  unfold matchedGroup
  split
  · exact accounted_ok _ List.suffix_rfl
  · split
    · exact accounted_ok _ List.suffix_rfl
    · split
      · refine .cons (.map (labels_accounted _) fun _ => ?_) _
        rfl
      · exact (accounted_ok _ List.suffix_rfl).cons _

/-- The labels of a matching. -/
theorem matching_accounted (bool : Bool) (tokens : List Token) :
    Accounted tokens (matching bool tokens) := by
  unfold matching
  split
  · refine ((labels_accounted _).next (fun ls after h => ?_) fun stop h => ?_).cons _
    · rw [h]
      exact matched_group_accounted _ _ _
    · rw [h]
  · refine ((labels_accounted _).next (fun ls after h => ?_) fun stop h => ?_).cons _
    · rw [h]
      exact matched_group_accounted _ _ _
    · rw [h]
  · exact accounted_ok _ List.suffix_rfl

/-- The modifier after an operator. -/
theorem modifier_accounted (tokens : List Token) : Accounted tokens (modifier tokens) := by
  unfold modifier
  split
  · exact (matching_accounted _ _).cons _
  · refine .cons (.map (labels_accounted _) fun _ => ?_) _
    rfl
  · refine .cons (.map (labels_accounted _) fun _ => ?_) _
    rfl
  · exact matching_accounted _ _

/-! ## Selectors -/

/-- The value of a matcher. -/
theorem matcher_value_accounted (name : Text) (op : MatchOp) (tokens : List Token) :
    Accounted tokens (matcherValue name op tokens) := by
  unfold matcherValue
  split
  · exact (accounted_ok _ List.suffix_rfl).cons _
  · exact (accounted_ok _ List.suffix_rfl).cons _
  · split
    · exact accounted_grammar
    · split
      · exact (accounted_ok _ List.suffix_rfl).cons _ |>.cons _
      · exact (accounted_ok _ List.suffix_rfl).cons _ |>.cons _
      · exact (accounted_ok _ List.suffix_rfl).cons _
  · exact accounted_grammar

/-- One matcher. -/
theorem matcher_accounted (tokens : List Token) : Accounted tokens (matcher tokens) := by
  unfold matcher
  split
  · split
    · exact ((matcher_value_accounted _ _ _).cons _).cons _
    · exact (accounted_ok _ List.suffix_rfl).cons _
  · exact accounted_grammar

/-- The rest of the matchers. -/
theorem matchers_from_accounted (fuel : Nat) (found : Meaning Selection) (tokens : List Token) :
    Accounted tokens (matchersFrom fuel found tokens) := by
  induction fuel generalizing found tokens with
  | zero => exact accounted_grammar
  | succ fuel ih =>
      unfold matchersFrom
      split
      · exact (accounted_ok _ List.suffix_rfl).cons _
      · exact (accounted_ok _ List.suffix_rfl).cons _ |>.cons _
      · refine ((matcher_accounted _).next (fun m after h => ?_) fun stop h => ?_).cons _
        · rw [h]
          exact ih _ _
        · rw [h]
      · refine ((matcher_accounted _).next (fun m after h => ?_) fun stop h => ?_).cons _
        · rw [h]
          exact ih _ _
        · rw [h]
      · exact accounted_grammar

/-- The matchers after an opening brace. -/
theorem matchers_accounted (tokens : List Token) : Accounted tokens (matchers tokens) := by
  unfold matchers
  split
  · exact (accounted_ok _ List.suffix_rfl).cons _
  · exact (accounted_ok _ List.suffix_rfl).cons _ |>.cons _
  · refine (matcher_accounted tokens).next (fun m after h => ?_) fun stop h => ?_
    · rw [h]
      exact matchers_from_accounted _ _ _
    · rw [h]

/-- A selector. -/
theorem selector_accounted (name : Option Text) (tokens : List Token) :
    Accounted tokens (selector name tokens) := by
  unfold selector
  split
  · refine .cons (.map (matchers_accounted _) fun _ => ?_) _
    rfl
  · exact accounted_ok _ List.suffix_rfl

/-! ## Durations and times -/

/-- A duration stops the program only if it is oversized. -/
theorem duration_overflow (h : duration tokens = .error .overflow) :
    beginsOversize tokens = true := by
  unfold duration at h
  split at h
  · cases h
  · split at h
    · cases h
    · rename_i hvalue
      split at h
      · cases h
      · rename_i hseconds
        split at h
        · rename_i hends
          simp only [beginsOversize, hvalue, hseconds, Option.isNone_none, Bool.true_and, hends]
        · cases h
  · cases h

/-- A duration takes one token. -/
theorem duration_suffix {d : Meaning Duration} (h : duration tokens = .ok (d, rest)) :
    rest <:+ tokens := by
  unfold duration at h
  split at h
  · cases h
    exact List.suffix_cons _ _
  · split at h
    · cases h
      exact List.suffix_cons _ _
    · split at h
      · cases h
        exact List.suffix_cons _ _
      · split at h <;> cases h
  · cases h

/-- A duration that is read next, after a token that leads to one. -/
theorem duration_accounted {next : List Token} (hnext : durationNext? tokens = some next)
    (hsuffix : next <:+ tokens) : Accounted tokens (duration next) := by
  cases h : duration next with
  | ok read => exact (duration_suffix h).trans hsuffix
  | error stop =>
      cases stop with
      | grammar => trivial
      | overflow => exact Oversize.of_next hnext (duration_overflow h)

/-- A plus or minus sign. -/
theorem plus_or_minus_suffix (tokens : List Token) : (plusOrMinus tokens).2 <:+ tokens := by
  unfold plusOrMinus
  split
  · exact List.suffix_cons _ _
  · exact List.suffix_cons _ _
  · exact List.suffix_rfl

/-- An evaluation time, which may be any number. -/
theorem instant_accounted (tokens : List Token) : Accounted tokens (instant tokens) := by
  unfold instant
  split
  · exact (accounted_ok _ List.suffix_rfl).cons _ |>.cons _ |>.cons _
  · exact (accounted_ok _ List.suffix_rfl).cons _ |>.cons _ |>.cons _
  · have hsign := plus_or_minus_suffix tokens
    split
    · rename_i heq
      rw [heq] at hsign
      split
      · exact accounted_grammar
      · exact accounted_ok _ ((List.suffix_cons _ _).trans hsign)
    · exact accounted_grammar

/-- A range or a subquery with its opening bracket. -/
theorem bracketed_accounted (e : Meaning Expr) (rest : List Token) :
    Accounted (.sign .leftBracket :: rest) (bracketed e rest) := by
  unfold bracketed
  split
  · exact (accounted_ok _ List.suffix_rfl).cons _ |>.cons _
  · have hrange : Accounted (.sign .leftBracket :: rest) (duration rest) :=
      duration_accounted rfl (List.suffix_cons _ _)
    split
    · rename_i heq
      rw [heq] at hrange
      exact hrange.stop
    · rename_i heq
      rw [heq] at hrange
      exact accounted_ok _ ((List.suffix_cons _ _).trans hrange)
    · rename_i heq
      rw [heq] at hrange
      exact accounted_ok _ ((List.suffix_cons _ _).trans ((List.suffix_cons _ _).trans hrange))
    · rename_i after _ heq
      rw [heq] at hrange
      have hstep : Accounted (.sign .colon :: after) (duration after) :=
        duration_accounted rfl (List.suffix_cons _ _)
      split
      · rename_i heq'
        rw [heq'] at hstep
        exact (accounted_ok _ ((List.suffix_cons _ _).trans hstep)).of_suffix hrange
      · exact accounted_grammar
      · rename_i heq'
        rw [heq'] at hstep
        exact hstep.stop.of_suffix hrange
    · exact accounted_grammar

/-- What may follow an operand. -/
theorem postfixes_accounted (fuel : Nat) (e : Meaning Expr) (tokens : List Token) :
    Accounted tokens (postfixes fuel e tokens) := by
  induction fuel generalizing e tokens with
  | zero => exact accounted_ok _ List.suffix_rfl
  | succ fuel ih =>
      unfold postfixes
      split
      · exact (accounted_ok _ List.suffix_rfl).cons _
      · rename_i word rest _
        have hspan : Accounted (.reserved .offset word :: rest) (duration (plusOrMinus rest).2) :=
          duration_accounted rfl ((plus_or_minus_suffix rest).trans (List.suffix_cons _ _))
        dsimp only
        refine hspan.next (fun d after h => ?_) fun stop h => ?_
        · rw [h]
          exact ih _ _
        · rw [h]
      · exact (accounted_ok _ List.suffix_rfl).cons _
      · refine ((instant_accounted _).next (fun i after h => ?_) fun stop h => ?_).cons _
        · rw [h]
          exact ih _ _
        · rw [h]
      · refine (bracketed_accounted e _).next (fun e' after h => ?_) fun stop h => ?_
        · rw [h]
          exact ih _ _
        · rw [h]
      · exact accounted_ok _ List.suffix_rfl

/-! ## Expressions -/

/-- What is known of all functions of the reader that call each other, with some fuel. -/
structure AccountedAt (fuel : Nat) : Prop where
  expression : ∀ level tokens, Accounted tokens (expression fuel level tokens)
  signed : ∀ tokens, Accounted tokens (signed fuel tokens)
  operand : ∀ tokens, Accounted tokens (operand fuel tokens)
  aggregate : ∀ op tokens, Accounted tokens (aggregate fuel op tokens)
  arguments : ∀ tokens, Accounted tokens (arguments fuel tokens)
  moreArguments : ∀ found tokens, Accounted tokens (moreArguments fuel found tokens)
  operators : ∀ level left tokens, Accounted tokens (operators fuel level left tokens)

/-- An expression. -/
theorem expression_accounted (ih : AccountedAt fuel) (level : Nat) (tokens : List Token) :
    Accounted tokens (expression (fuel + 1) level tokens) := by
  unfold expression
  refine (ih.signed tokens).next (fun e after h => ?_) fun stop h => ?_
  · rw [h]
    exact ih.operators _ _ _
  · rw [h]

/-- An operand with its signs. -/
theorem signed_accounted (ih : AccountedAt fuel) (tokens : List Token) :
    Accounted tokens (signed (fuel + 1) tokens) := by
  unfold signed
  split
  · exact accounted_grammar
  · rename_i hcount
    cases hcount
    exact (ih.expression _ _).cons _
  · rename_i hcount
    cases hcount
    refine ((ih.expression BinaryOp.power.level _).next
      (fun e after h => ?_) fun stop h => ?_).cons _
    · rw [h]
      exact accounted_ok _ List.suffix_rfl
    · rw [h]
  · rename_i hcount _ _
    cases hcount
    refine (ih.operand _).next (fun e after h => ?_) fun stop h => ?_
    · rw [h]
      exact postfixes_accounted _ _ _
    · rw [h]

/-- An operand. -/
theorem operand_accounted (ih : AccountedAt fuel) (tokens : List Token) :
    Accounted tokens (operand (fuel + 1) tokens) := by
  unfold operand
  split
  · exact accounted_grammar
  · exact accounted_grammar
  · rename_i hcount
    cases hcount
    refine ((ih.expression BinaryOp.or.level _).next (fun e after h => ?_) fun stop h => ?_).cons _
    · rw [h]
      split
      · rename_i heq
        cases heq
        exact (accounted_ok _ List.suffix_rfl).cons _
      · exact accounted_grammar
      · rename_i heq
        cases heq
    · rw [h]
  · exact selector_accounted _ _
  · rename_i hcount
    cases hcount
    refine (((ih.arguments _).next (fun args after h => ?_) fun stop h => ?_).cons _).cons _
    · rw [h]
      exact accounted_ok _ List.suffix_rfl
    · rw [h]
  · rename_i hcount
    cases hcount
    split
    · exact (accounted_ok _ List.suffix_rfl).cons _
    · split
      · exact (ih.aggregate _ _).cons _
      · exact (selector_accounted _ _).cons _
    · exact (selector_accounted _ _).cons _
    · exact accounted_grammar

/-- An aggregation. -/
theorem aggregate_accounted (ih : AccountedAt fuel) (op : AggregateOp) (tokens : List Token) :
    Accounted tokens (aggregate (fuel + 1) op tokens) := by
  unfold aggregate
  split
  · exact accounted_grammar
  · rename_i hcount
    cases hcount
    refine ((ih.arguments _).next (fun args after h => ?_) fun stop h => ?_).cons _
    · rw [h]
      split
      · rename_i heq
        cases heq
      · rename_i heq
        cases heq
        split
        · exact accounted_ok _ List.suffix_rfl
        · rename_i hgrouping
          exact (grouping_accounted hgrouping).stop
        · rename_i hgrouping
          exact grouping_accounted hgrouping
    · rw [h]
  · rename_i hcount _
    cases hcount
    split
    · rename_i hgrouping
      have hlabels := grouping_accounted hgrouping
      refine ((ih.arguments _).next (fun args after h => ?_) fun stop h => ?_).of_suffix
        ((List.suffix_cons _ _).trans hlabels)
      · rw [h]
        exact accounted_ok _ List.suffix_rfl
      · rw [h]
    · exact accounted_grammar

/-- Arguments after the opening parenthesis. -/
theorem arguments_accounted (ih : AccountedAt fuel) (tokens : List Token) :
    Accounted tokens (arguments (fuel + 1) tokens) := by
  unfold arguments
  split
  · exact accounted_grammar
  · exact (accounted_ok _ List.suffix_rfl).cons _
  · rename_i hcount _
    cases hcount
    refine (ih.expression BinaryOp.or.level _).next (fun e after h => ?_) fun stop h => ?_
    · rw [h]
      exact ih.moreArguments _ _
    · rw [h]

/-- The arguments after the first one. -/
theorem more_arguments_accounted (ih : AccountedAt fuel) (found : Meaning (List Expr))
    (tokens : List Token) : Accounted tokens (moreArguments (fuel + 1) found tokens) := by
  unfold moreArguments
  split
  · exact accounted_grammar
  · exact (accounted_ok _ List.suffix_rfl).cons _
  · rename_i hcount
    cases hcount
    exact (ih.moreArguments _ _).cons _
  · rename_i hcount
    cases hcount
    exact (ih.moreArguments _ _).cons _
  · rename_i hcount
    cases hcount
    refine ((ih.expression BinaryOp.or.level _).next (fun e after h => ?_) fun stop h => ?_).cons _
    · rw [h]
      exact ih.moreArguments _ _
    · rw [h]
  · exact accounted_grammar

/-- Operators and their right sides. -/
theorem operators_accounted (ih : AccountedAt fuel) (level : Nat) (left : Meaning Expr)
    (tokens : List Token) : Accounted tokens (operators (fuel + 1) level left tokens) := by
  cases tokens with
  | nil => exact accounted_ok _ List.suffix_rfl
  | cons token tail =>
      simp only [operators]
      split
      · exact accounted_ok _ List.suffix_rfl
      · rename_i op _
        split
        · exact accounted_ok _ List.suffix_rfl
        · refine ((modifier_accounted tail).next (fun m after h => ?_) fun stop h => ?_).cons _
          · rw [h]
            refine (ih.expression op.rightLevel after).next
              (fun right after' h' => ?_) fun stop' h' => ?_
            · dsimp only
              rw [h']
              exact ih.operators _ _ _
            · dsimp only
              rw [h']
          · rw [h]

/-- What is known of all functions of the reader, with whatever fuel. -/
theorem accounted_at (fuel : Nat) : AccountedAt fuel := by
  induction fuel with
  | zero =>
      -- Without fuel no function reads on; only `operators` takes what is on its left as it is.
      constructor
      case operators => exact fun _ _ _ => accounted_ok _ List.suffix_rfl
      all_goals
        intros
        exact accounted_grammar
  | succ fuel ih =>
      exact
        { expression := expression_accounted ih
          signed := signed_accounted ih
          operand := operand_accounted ih
          aggregate := aggregate_accounted ih
          arguments := arguments_accounted ih
          moreArguments := more_arguments_accounted ih
          operators := operators_accounted ih }

/-! ## Texts -/

/-- Only an oversized duration among the tokens stops the program. -/
theorem of_tokens_overflow (h : ofTokens tokens = .error .overflow) : Oversize tokens := by
  unfold ofTokens at h
  split at h
  · cases h
  · have hread := (accounted_at (4 * tokens.length + 8)).expression BinaryOp.or.level tokens
    split at h
    · cases h
    · cases h
    · rename_i heq
      cases h
      rw [heq] at hread
      exact hread

/-- A duration that is too long is written somewhere in the text, as a number of seconds. -/
def OversizeText (text : Text) : Prop :=
  match Token.scan text with
  | .ok tokens => Oversize tokens
  | .error _ => False

instance (text : Text) : Decidable (OversizeText text) :=
  match h : Token.scan text with
  | .ok tokens => decidable_of_iff (Oversize tokens) (by simp only [OversizeText, h])
  | .error _ => isFalse (by simp only [OversizeText, h, not_false_eq_true])

/-- Only a text with a duration that is too long stops the program. -/
theorem oversize_of_crash {text : Text} (h : format text = .crash) : OversizeText text := by
  unfold format Expr.parse at h
  split at h
  · cases h
  · cases h
  · rename_i hparse
    split at hparse
    · cases hparse
    · rename_i tokens hscan
      split at hparse
      · cases hparse
      · rename_i hof
        simp only [OversizeText, hscan]
        exact of_tokens_overflow hof
      · cases hparse
      · cases hparse

end QueryTidy.Query
