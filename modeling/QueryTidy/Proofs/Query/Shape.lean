import QueryTidy.Proofs.Query.Durations
import QueryTidy.Query.Parser
import QueryTidy.Query.Printer

/-!
# The shape of queries

A query that is read from a text has a shape that the precedence of the operators allows
(`Expr.Reads`), and the leaves of its tree (`Expr.parts`) are made of words of the text
(`Part.Read`). The canonical text of a query consists of the tokens `Expr.tokens`; it denotes the
query again if every part is `Part.Plain`: if the text of the part shows all there is.
-/

namespace QueryTidy

/-! ## Parts -/

/-- The parts of a query that have texts of their own. -/
inductive Part where
  | number (value : Binary64)
  | string (raw : Text)
  /-- The name and the conditions of a selector. -/
  | selector (name : Option Text) (selection : Selection)
  /-- A range or the length of an offset. -/
  | span (d : Duration)
  /-- The step of a subquery. -/
  | step (d : Duration)
  | instant (i : Instant)
  | modifier (m : Modifier)
  | grouping (g : Grouping)

/-- The parts of a timing. -/
def Timing.parts (t : Timing) : List Part :=
  t.instant.toList.map .instant ++ t.offset.toList.map fun o => .span o.span

/-- The parts of a selector. -/
def Selector.parts (s : Selector) : List Part :=
  .selector s.name s.selection :: s.timing.parts

namespace Expr

mutual
/-- The parts of a query. -/
def parts : Expr → List Part
  | .number value => [.number value]
  | .string raw => [.string raw]
  | .vector s => s.parts
  | .matrix s range => .span range :: s.parts
  | .subquery inner range step timing =>
      parts inner ++ .span range :: (step.toList.map .step ++ timing.parts)
  | .paren inner => parts inner
  | .negative inner => parts inner
  | .binary _ modifier left right => .modifier modifier :: (parts left ++ parts right)
  | .call _ args => partsAll args
  | .aggregate _ grouping param inner =>
      grouping.toList.map .grouping ++
        ((match param with
          | some p => parts p
          | none => []) ++ parts inner)

/-- The parts of queries. -/
def partsAll : List Expr → List Part
  | [] => []
  | e :: es => parts e ++ partsAll es
end

/-- The parts of queries are those of each. -/
theorem parts_all_eq (es : List Expr) : partsAll es = es.flatMap parts := by
  induction es with
  | nil => rfl
  | cons e es ih => rw [partsAll, ih, List.flatMap_cons]

/-- The parts of an aggregation are those of its labels, its parameter and its operand. -/
theorem parts_aggregate (op : AggregateOp) (grouping : Option Grouping) (param : Option Expr)
    (inner : Expr) :
    parts (.aggregate op grouping param inner) =
      grouping.toList.map .grouping ++ (param.toList.flatMap parts ++ parts inner) := by
  cases param <;> simp [parts]

/-! ## What holds of all parts -/

section All

variable {q : Part → Prop}

/-- What holds of the parts of a subquery holds of those of the inner query and of the clauses. -/
theorem forall_parts_subquery {inner : Expr} {range : Duration} {step : Option Duration}
    {timing : Timing} :
    (∀ part ∈ parts (.subquery inner range step timing), q part) ↔
      (∀ part ∈ inner.parts, q part) ∧ q (.span range) ∧ (∀ d ∈ step, q (.step d)) ∧
        ∀ part ∈ timing.parts, q part := by
  simp only [parts, List.forall_mem_append, List.forall_mem_cons, List.forall_mem_map,
    Option.mem_toList, Option.mem_def]

/-- What holds of the parts of a binary operation holds of its modifier and of those of its
operands. -/
theorem forall_parts_binary {op : BinaryOp} {modifier : Modifier} {left right : Expr} :
    (∀ part ∈ parts (.binary op modifier left right), q part) ↔
      q (.modifier modifier) ∧ (∀ part ∈ left.parts, q part) ∧ ∀ part ∈ right.parts, q part := by
  simp only [parts, List.forall_mem_append, List.forall_mem_cons]

/-- What holds of the parts of a call holds of those of its arguments. -/
theorem forall_parts_call {f : Signature} {args : List Expr} :
    (∀ part ∈ parts (.call f args), q part) ↔ ∀ arg ∈ args, ∀ part ∈ arg.parts, q part := by
  rw [parts, parts_all_eq, List.forall_mem_flatMap]

/-- What holds of the parts of an aggregation holds of its labels and of those of its parameter and
its operand. -/
theorem forall_parts_aggregate {op : AggregateOp} {grouping : Option Grouping}
    {param : Option Expr} {inner : Expr} :
    (∀ part ∈ parts (.aggregate op grouping param inner), q part) ↔
      (∀ g ∈ grouping, q (.grouping g)) ∧ (∀ e ∈ param, ∀ part ∈ e.parts, q part) ∧
        ∀ part ∈ inner.parts, q part := by
  rw [parts_aggregate]
  simp only [List.forall_mem_append, List.forall_mem_map, List.forall_mem_flatMap,
    Option.mem_toList, Option.mem_def]

end All

/-! ## Levels -/

/-- The level of an operator after the query must be less than this: an operator that binds as
tightly would be read as belonging to the end of the query. -/
def edge : Expr → Nat
  | .binary op _ _ _ => op.rightLevel
  | .negative _ => 6
  | .number value => if value.isNegative then 6 else 7
  | _ => 7

/-- The level of an operand with all that may follow it, above the levels of the operators. -/
def operandLevel : Nat := 7

/-- The query is one that is read where operators must have at least the given level, and each of
its nodes obeys its rules. -/
inductive Reads : Nat → Expr → Prop where
  | number {level : Nat} {value : Binary64} :
      (value.isNegative = true → level ≤ 6) → Reads level (.number value)
  | string {level : Nat} {raw : Text} : Reads level (.string raw)
  | vector {level : Nat} {s : Selector} : s.check = .ok () → Reads level (.vector s)
  | matrix {level : Nat} {s : Selector} {range : Duration} :
      s.check = .ok () → Reads level (.matrix s range)
  | subquery {level : Nat} {inner : Expr} {range : Duration} {step : Option Duration}
      {timing : Timing} :
      Reads operandLevel inner → check (.subquery inner range step timing) = .ok () →
        Reads level (.subquery inner range step timing)
  | paren {level : Nat} {inner : Expr} : Reads 1 inner → Reads level (.paren inner)
  | negative {level : Nat} {inner : Expr} :
      level ≤ 6 → Reads 6 inner → (∀ value, inner ≠ .number value) →
        check (.negative inner) = .ok () → Reads level (.negative inner)
  | binary {level : Nat} {op : BinaryOp} {modifier : Modifier} {left right : Expr} :
      level ≤ op.level → Reads op.level left → op.level < left.edge →
        Reads op.rightLevel right → check (.binary op modifier left right) = .ok () →
          Reads level (.binary op modifier left right)
  | call {level : Nat} {f : Signature} {args : List Expr} :
      Signature.ofName? f.name = some f → (∀ arg ∈ args, Reads 1 arg) →
        check (.call f args) = .ok () → Reads level (.call f args)
  | aggregate {level : Nat} {op : AggregateOp} {grouping : Option Grouping}
      {param : Option Expr} {inner : Expr} :
      (∀ p ∈ param, Reads 1 p) → Reads 1 inner → op.paramType?.isSome = param.isSome →
        check (.aggregate op grouping param inner) = .ok () →
          Reads level (.aggregate op grouping param inner)

/-- The operators have the levels one to six. -/
theorem level_bounds (op : BinaryOp) :
    1 ≤ op.level ∧ op.level ≤ 6 ∧ op.level ≤ op.rightLevel ∧ op.rightLevel ≤ 6 := by
  cases op <;> decide

/-- What is read where operators bind tightly is also read where they may bind loosely. -/
theorem Reads.mono {level level' : Nat} {e : Expr} (h : Reads level e) (hle : level' ≤ level) :
    Reads level' e := by
  cases h with
  | number hneg => exact .number fun hv => le_trans hle (hneg hv)
  | string => exact .string
  | vector hc => exact .vector hc
  | matrix hc => exact .matrix hc
  | subquery hinner hc => exact .subquery hinner hc
  | paren hinner => exact .paren hinner
  | negative hlevel hinner hnumber hc => exact .negative (le_trans hle hlevel) hinner hnumber hc
  | binary hlevel hleft hedge hright hc =>
      exact .binary (le_trans hle hlevel) hleft hedge hright hc
  | call hf hargs hc => exact .call hf hargs hc
  | aggregate hparam hinner hcount hc => exact .aggregate hparam hinner hcount hc

/-- What is read before an operator is also read where operators must bind as tightly as that
one. -/
theorem Reads.of_edge {level : Nat} {e : Expr} {op : BinaryOp} (h : Reads level e)
    (hedge : op.level < e.edge) : Reads op.level e := by
  cases h with
  | number hneg =>
      refine .number fun hv => ?_
      rw [edge, if_pos hv] at hedge
      omega
  | string => exact .string
  | vector hc => exact .vector hc
  | matrix hc => exact .matrix hc
  | subquery hinner hc => exact .subquery hinner hc
  | paren hinner => exact .paren hinner
  | negative hlevel hinner hnumber hc =>
      rw [edge] at hedge
      exact .negative (by omega) hinner hnumber hc
  | @binary _ op' _ _ _ hlevel hleft hedge' hright hc =>
      rw [edge] at hedge
      refine .binary ?_ hleft hedge' hright hc
      revert hedge
      cases op <;> cases op' <;> decide
  | call hf hargs hc => exact .call hf hargs hc
  | aggregate hparam hinner hcount hc => exact .aggregate hparam hinner hcount hc

/-- Operators of a lower level cannot belong to the end of a query. -/
theorem Reads.le_edge {level : Nat} {e : Expr} (h : Reads level e) (hlevel : level ≤ 6) :
    level ≤ e.edge := by
  cases h with
  | number _ =>
      rw [edge]
      split <;> omega
  | negative => exact hlevel
  | @binary _ op _ _ _ hop => exact le_trans hop (level_bounds op).2.2.1
  | _ => exact le_trans hlevel (by simp [edge])

end Expr

/-! ## Words -/

open Token (IsWord IsName Quotable)

/-- The word may stand for the name of a metric. -/
def IsMetricName (name : Text) : Prop :=
  IsWord name ∧ Query.metricName? (Token.ofWord name) = some name

/-- The word may stand for a label. -/
def IsLabel (label : Text) : Prop :=
  IsName label ∧ Query.labelText? (Token.ofWord label) = some label

/-- The condition is one that is read: its name is a word, its value is among the given texts, and
a value that is compared as a regular expression is one. -/
def Matcher.Read (p : Text → Prop) (m : Matcher) : Prop :=
  IsName m.name ∧ p m.value ∧ Matcher.build m.name m.op m.value = .ok m

namespace Selection

/-- The conditions are ones that are read. -/
def Read (p : Text → Prop) : Selection → Prop
  | .all ms => ∀ m ∈ ms, m.Read p
  | .any groups => 2 ≤ groups.length ∧ ∀ group ∈ groups, group ≠ [] ∧ ∀ m ∈ group, m.Read p

/-- The name in the first condition. -/
def firstName? (groups : List (List Matcher)) : Option Text :=
  (groups.head?.bind List.head?).map Matcher.name

/-- The conditions are written as they are: in order, and not with an `or` at their beginning. -/
def Shown : Selection → Prop
  | .all ms => Text.sort (ms.map Matcher.toText) = ms.map Matcher.toText
  | .any groups => ∀ name ∈ firstName? groups, Text.dropStart? "or".toList name = none

end Selection

namespace Matching

/-- The matching is written. -/
def Shown (m : Matching) : Prop :=
  m ≠ .ignoring []

end Matching

namespace Modifier

/-- All labels of a modifier. -/
def labels (m : Modifier) : List Text :=
  m.matching.toList.flatMap Matching.labels ++ m.group.toList.flatMap Prod.snd

end Modifier

namespace Grouping

/-- The labels of a grouping. -/
def labels : Grouping → List Text
  | .keeping ls => ls
  | .dropping ls => ls

end Grouping

namespace Instant

/-- The digits of an evaluation time that is a number. -/
def digits (negative : Bool) (millis : Nat) : Text :=
  match (Binary64.ofNat (if negative then 0 else millis)).magnitude? with
  | some (num, den) => (Binary64.ofRatio false num (den * 1000)).fixed 3
  | none => []

/-- The evaluation time that the text of one denotes. -/
def reread : Instant → Option Instant
  | .start => some .start
  | .finish => some .finish
  | .time negative millis =>
      match Literal.value (digits negative millis) with
      | .ok value => (ofSeconds value).toOption
      | .error _ => none

/-- The number of milliseconds is one that an evaluation time can have. -/
def InRange : Instant → Prop
  | .time _ millis => millis ≤ greatestMillis
  | _ => True

/-- The evaluation time of a number of seconds is in range. -/
theorem in_range_of_seconds {value : Binary64} {i : Instant} (h : ofSeconds value = .ok i) :
    i.InRange := by
  unfold ofSeconds at h
  split at h
  · cases h
  · split at h
    · cases h
    · cases h
      show (match (value.mulNat 1000).magnitude? with
        | some (num, den) => min (divHalfUp num den) greatestMillis
        | none => greatestMillis) ≤ greatestMillis
      split
      · exact Nat.min_le_right _ _
      · exact Nat.le_refl _

/-- The evaluation time that the text of one denotes is in range. -/
theorem reread_in_range {i i' : Instant} (h : i.reread = some i') : i'.InRange := by
  cases i with
  | start => cases h; trivial
  | finish => cases h; trivial
  | time negative millis =>
      rw [reread] at h
      split at h
      · rename_i value _
        cases hseconds : ofSeconds value with
        | error e => simp [hseconds, Except.toOption] at h
        | ok j =>
            obtain rfl : j = i' := by simpa [hseconds, Except.toOption] using h
            exact in_range_of_seconds hseconds
      · cases h

end Instant

namespace Part

/-- The part is one that is read from a text, with string literals among the given ones. -/
def Read (p : Text → Prop) : Part → Prop
  | .number value => value.IsCanonical
  | .string raw => p raw
  | .selector name selection => (∀ n ∈ name, IsMetricName n) ∧ selection.Read p
  | .span _ => True
  | .step _ => True
  | .instant i => i.InRange
  | .modifier m => (∀ l ∈ m.labels, IsLabel l) ∧ (m.group.isSome = true → m.matching.isSome = true)
  | .grouping g => ∀ l ∈ g.labels, IsLabel l

/-- The text of the part shows all there is. -/
def Shown : Part → Prop
  | .number _ => True
  | .string _ => True
  | .selector _ selection => selection.Shown
  | .span d => 0 < d.millis ∧ Duration.ofText d.toText = .ok d
  | .step d => 0 < d.millis ∧ Duration.ofText d.toText = .ok d
  | .instant i => i.reread = some i
  | .modifier m => ∀ matching ∈ m.matching, matching.Shown
  | .grouping g => g ≠ .keeping []

/-- The part is read from its text as it is. -/
def Plain (part : Part) : Prop :=
  part.Read Quotable ∧ part.Shown

end Part

end QueryTidy
