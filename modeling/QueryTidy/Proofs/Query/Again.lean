import QueryTidy.Proofs.Query.AgainParts
import QueryTidy.Proofs.Query.ReadQueries

/-!
# Reading canonical texts again

The canonical text of a query all of whose parts are `Part.Stable` denotes a query with the same
canonical text (`Expr.again`).
-/

namespace QueryTidy.Expr

/-! ## The query that is read -/

mutual
/-- The query that the canonical text of one denotes. -/
def again : Expr → Expr
  | .number value => .number value
  | .string raw => .string raw
  | .vector s => .vector s.again
  | .matrix s range => .matrix s.again range.again
  | .subquery inner range step timing =>
      .subquery (again inner) range.again (step.bind Duration.stepAgain) timing.again
  | .paren inner => .paren (again inner)
  | .negative inner => .negative (again inner)
  | .binary op modifier left right => .binary op modifier.again (again left) (again right)
  | .call f args => .call f (againAll args)
  | .aggregate op grouping param inner =>
      .aggregate op (Grouping.again grouping)
        (match param with
          | some p => some (again p)
          | none => none) (again inner)

/-- The queries that the canonical texts of some denote. -/
def againAll : List Expr → List Expr
  | [] => []
  | e :: es => again e :: againAll es
end

/-- Each of several queries is read. -/
theorem again_all_eq (es : List Expr) : againAll es = es.map again := by
  induction es with
  | nil => rfl
  | cons e es ih => rw [againAll, ih, List.map_cons]

/-- The parameter and the operand of an aggregation are read. -/
theorem again_aggregate (op : AggregateOp) (grouping : Option Grouping) (param : Option Expr)
    (inner : Expr) :
    again (.aggregate op grouping param inner) =
      .aggregate op (Grouping.again grouping) (param.map again) (again inner) := by
  cases param <;> rfl

/-- The query that is read has the same type. -/
theorem type_again : (e : Expr) → e.again.type = e.type
  | .number _ => rfl
  | .string _ => rfl
  | .vector _ => rfl
  | .matrix _ _ => rfl
  | .subquery _ _ _ _ => rfl
  | .paren inner => type_again inner
  | .negative inner => type_again inner
  | .binary _ _ left right => by
      rw [again, type, type, type_again left, type_again right]
  | .call _ _ => rfl
  | .aggregate _ _ param _ => by cases param <;> rfl

/-- The query that is read has the same edge. -/
theorem edge_again (e : Expr) : e.again.edge = e.edge := by
  cases e with
  | aggregate op grouping param inner => cases param <;> rfl
  | _ => rfl

/-- The parts of a timing that is read are those that its parts denote. -/
theorem timing_parts_again (t : Timing) :
    t.again.parts = t.parts.filterMap Part.again? := by
  obtain ⟨offset, instant⟩ := t
  cases offset <;> cases instant <;> rfl

/-- The parts of a selector that is read are those that its parts denote. -/
theorem selector_parts_again (s : Selector) :
    s.again.parts = s.parts.filterMap Part.again? := by
  simp only [Selector.parts, List.filterMap_cons, Part.again?, ← timing_parts_again]
  rfl

mutual
/-- The parts of the query that is read are those that the parts of the query denote. -/
theorem parts_again : (e : Expr) → e.again.parts = e.parts.filterMap Part.again?
  | .number _ => rfl
  | .string _ => rfl
  | .vector s => selector_parts_again s
  | .matrix s range => by
      simp only [again, parts, List.filterMap_cons, Part.again?, selector_parts_again]
  | .subquery inner range step timing => by
      have hstep : (step.bind Duration.stepAgain).toList.map Part.step =
          (step.toList.map Part.step).filterMap Part.again? := by
        cases step with
        | none => rfl
        | some d =>
            simp only [Option.bind_some, Option.toList_some, List.map_cons, List.map_nil,
              List.filterMap_cons, List.filterMap_nil, Part.again?]
            cases d.stepAgain <;> rfl
      simp only [again, parts, List.filterMap_append, List.filterMap_cons, Part.again?, ← hstep,
        ← timing_parts_again, parts_again inner]
  | .paren inner => parts_again inner
  | .negative inner => parts_again inner
  | .binary _ _ left right => by
      simp only [again, parts, List.filterMap_cons, Part.again?, List.filterMap_append,
        parts_again left, parts_again right]
  | .call _ args => parts_again_all args
  | .aggregate op grouping param inner => by
      have hgrouping : (Grouping.again grouping).toList.map Part.grouping =
          (grouping.toList.map Part.grouping).filterMap Part.again? := by
        cases grouping with
        | none => rfl
        | some g =>
            simp only [Option.toList_some, List.map_cons, List.map_nil, List.filterMap_cons,
              List.filterMap_nil, Part.again?]
            cases Grouping.again (some g) <;> rfl
      cases param with
      | none =>
          simp only [again, parts, List.filterMap_append, ← hgrouping, parts_again inner]
          rfl
      | some p =>
          simp only [again, parts, List.filterMap_append, ← hgrouping, parts_again inner,
            parts_again p]

/-- The parts of the queries that are read are those that the parts of the queries denote. -/
theorem parts_again_all : (es : List Expr) →
    partsAll (againAll es) = (partsAll es).filterMap Part.again?
  | [] => rfl
  | e :: es => by
      rw [againAll, partsAll, partsAll, List.filterMap_append, parts_again e, parts_again_all es]
end

/-! ## Rules -/

/-- The rules of a binary operation do not depend on an empty list of ignored labels. -/
theorem check_binary_again (op : BinaryOp) (m : Modifier) (left right : ValueType) :
    checkBinary op m.again left right = checkBinary op m left right := by
  obtain ⟨bool, matching, group⟩ := m
  cases matching with
  | none => rfl
  | some k =>
      cases k with
      | on labels => rfl
      | ignoring labels => cases labels <;> rfl

/-- The types of arguments that are read are those of the arguments. -/
theorem check_arg_types_again (f : Signature) (params : List ValueType) (args : List Expr) :
    checkArgTypes f params (args.map again) = checkArgTypes f params args := by
  induction args generalizing params with
  | nil => rfl
  | cons arg args ih =>
      cases params with
      | nil => rfl
      | cons param params => rw [List.map_cons, checkArgTypes, checkArgTypes, type_again, ih]

/-- The rules of a call hold of the arguments that are read. -/
theorem check_call_again (f : Signature) (args : List Expr) :
    checkCall f (args.map again) = checkCall f args := by
  have hextreme : isExtremeArg f (args.map again) = isExtremeArg f args := by
    cases args with
    | nil => rfl
    | cons arg args =>
        cases arg with
        | aggregate op grouping param inner => cases param <;> rfl
        | _ => rfl
  rw [checkCall, checkCall, List.length_map, hextreme, check_arg_types_again]

/-- The rules of an aggregation hold of the operands that are read. -/
theorem check_aggregate_again (op : AggregateOp) (param : Option Expr) (inner : Expr) :
    checkAggregate op (param.map again) inner.again = checkAggregate op param inner := by
  unfold checkAggregate
  rw [type_again]
  cases param with
  | none => rfl
  | some p =>
      cases op.paramType? with
      | none => rfl
      | some expected => simp only [Option.map_some, type_again]

/-! ## Texts -/

variable {p : Text → Prop}

/-- A timing with stable parts is read from its text with the same text. -/
theorem timing_text_again {t : Timing} (h : ∀ part ∈ t.parts, part.Stable) :
    t.again.toText = t.toText := by
  obtain ⟨offset, instant⟩ := t
  have hinstant : ∀ i ∈ instant, i.again.toText = i.toText := fun i hi =>
    Instant.Stable.again_text
      (h (.instant i) (List.mem_append_left _ (List.mem_map.2 ⟨i, Option.mem_toList.2 hi, rfl⟩)))
  have hoffset : ∀ o ∈ offset,
      Offset.toText { o with span := o.span.again } = o.toText := fun o ho => by
    have hspan : o.span.Stable := h (.span o.span) (List.mem_append_right _
      (List.mem_map.2 ⟨o, Option.mem_toList.2 ho, rfl⟩))
    delta Offset.toText
    rw [hspan.again_text]
  cases instant with
  | none =>
      cases offset with
      | none => rfl
      | some o =>
          simp only [Timing.toText, Timing.again, Option.map_some, Option.map_none,
            hoffset o rfl]
  | some i =>
      cases offset with
      | none =>
          simp only [Timing.toText, Timing.again, Option.map_some, Option.map_none,
            hinstant i rfl]
      | some o =>
          simp only [Timing.toText, Timing.again, Option.map_some, hinstant i rfl, hoffset o rfl]

/-- The name and the stable conditions of a selector are read with the same text. -/
theorem head_again {s : Selector} (hread : s.selection.Read p)
    (hstable : s.selection.Stable s.name) : s.again.head = s.head := by
  simp only [Selector.head, Selector.again, Selection.again_is_empty,
    Selection.Stable.again_text hread hstable]

/-- The parts of a query are read and their texts denote parts with the same texts. -/
def PartsStable (p : Text → Prop) (parts : List Part) : Prop :=
  ∀ part ∈ parts, part.Read p ∧ part.Stable

/-- A selector with stable parts is read with the same text. -/
theorem selector_text_again {s : Selector} (h : PartsStable p s.parts) :
    s.again.head = s.head ∧ s.again.timing.toText = s.timing.toText := by
  obtain ⟨hread, hstable⟩ := h _ List.mem_cons_self
  exact ⟨head_again hread.2 hstable.2,
    timing_text_again fun part hpart => (h part (List.mem_cons_of_mem _ hpart)).2⟩

/-- What follows the inner query of a subquery is read with the same text. -/
theorem subquery_text_again {range : Duration} {step : Option Duration} {timing : Timing}
    (hrange : range.Stable) (hstep : ∀ d ∈ step, (Part.step d).Stable)
    (htiming : ∀ part ∈ timing.parts, part.Stable) :
    subqueryText range.again (step.bind Duration.stepAgain) timing.again =
      subqueryText range step timing := by
  have hsteptext : ((step.bind Duration.stepAgain).map Duration.toText).getD [] =
      (step.map Duration.toText).getD [] := by
    cases step with
    | none => rfl
    | some d =>
        by_cases hnil : d.toText = []
        · simp [Duration.stepAgain, hnil]
        · have hspan : d.Stable := (hstep d rfl).resolve_left hnil
          simp [Duration.stepAgain, hnil, hspan.again_text]
  rw [subqueryText, subqueryText, hrange.again_text, hsteptext, timing_text_again htiming]

mutual
/-- A query with stable parts is read with the same text on one line. -/
theorem one_line_again : (e : Expr) → PartsStable p e.parts → e.again.oneLine = e.oneLine
  | .number _, _ => rfl
  | .string _, _ => rfl
  | .vector s, h => by
      obtain ⟨hhead, htiming⟩ := selector_text_again h
      rw [again, oneLine, oneLine, hhead, htiming]
  | .matrix s range, h => by
      have hrange := (h _ List.mem_cons_self).2
      obtain ⟨hhead, htiming⟩ := selector_text_again fun part hpart =>
        h part (List.mem_cons_of_mem _ hpart)
      rw [again, oneLine, oneLine, hhead, htiming, Duration.Stable.again_text hrange]
  | .subquery inner range step timing, h => by
      obtain ⟨hinner, hrange, hstep, htiming⟩ := forall_parts_subquery.1 h
      rw [again, oneLine, oneLine, one_line_again inner hinner,
        subquery_text_again hrange.2 (fun d hd => (hstep d hd).2)
          fun part hpart => (htiming part hpart).2]
  | .paren inner, h => by rw [again, oneLine, oneLine, one_line_again inner h]
  | .negative inner, h => by rw [again, oneLine, oneLine, one_line_again inner h]
  | .binary op modifier left right, h => by
      obtain ⟨-, hleft, hright⟩ := forall_parts_binary.1 h
      rw [again, oneLine, oneLine, one_line_again left hleft, one_line_again right hright,
        Modifier.again_text]
  | .call f args, h => by rw [again, oneLine, oneLine, one_lines_again args h]
  | .aggregate op grouping param inner, h => by
      obtain ⟨-, hparam, hinner⟩ := forall_parts_aggregate.1 h
      cases param with
      | none => simp only [again, oneLine, one_line_again inner hinner, Grouping.again_text]
      | some q =>
          have hq : PartsStable p q.parts := hparam q rfl
          simp only [again, oneLine, one_line_again inner hinner, one_line_again q hq,
            Grouping.again_text]

/-- Queries with stable parts are read with the same texts on one line. -/
theorem one_lines_again : (es : List Expr) → PartsStable p (partsAll es) →
    oneLines (againAll es) = oneLines es
  | [], _ => rfl
  | e :: es, h => by
      obtain ⟨he, hes⟩ := List.forall_mem_append.1 h
      rw [againAll, oneLines, oneLines, one_line_again e he, one_lines_again es hes]
end

/-- A query with stable parts is read as one that is as long. -/
theorem is_long_again {e : Expr} (h : PartsStable p e.parts) : e.again.isLong = e.isLong := by
  rw [isLong, isLong, one_line_again e h]

mutual
/-- A query with stable parts is read with the same layout. -/
theorem layout_again (level : Nat) : (e : Expr) → PartsStable p e.parts →
    layout level e.again = layout level e
  | .number _, _ => rfl
  | .string _, _ => rfl
  | .vector s, h => congrArg (indent level ++ ·) (one_line_again (.vector s) h)
  | .matrix s range, h => congrArg (indent level ++ ·) (one_line_again (.matrix s range) h)
  | .subquery inner range step timing, h => by
      obtain ⟨hinner, hrange, hstep, htiming⟩ := forall_parts_subquery.1 h
      rw [again, layout, layout, layout_again level inner hinner,
        subquery_text_again hrange.2 (fun d hd => (hstep d hd).2)
          fun part hpart => (htiming part hpart).2]
  | .paren inner, h => by
      have hlong : isLong (.paren inner.again) = isLong (.paren inner) := is_long_again h
      have hline : oneLine (.paren inner.again) = oneLine (.paren inner) :=
        one_line_again (.paren inner) h
      rw [again, layout, layout, hlong, hline, layout_again (level + 1) inner h]
  | .negative inner, h => by rw [again, layout, layout, layout_again level inner h]
  | .binary op modifier left right, h => by
      have hlong := is_long_again h
      have hline := one_line_again (.binary op modifier left right) h
      obtain ⟨-, hleft, hright⟩ := forall_parts_binary.1 h
      rw [again] at hlong hline ⊢
      rw [layout, layout, hlong, hline, layout_again (level + 1) left hleft,
        layout_again (level + 1) right hright, Modifier.again_text]
  | .call f args, h => by
      have hlong := is_long_again h
      have hline := one_line_again (.call f args) h
      rw [again] at hlong hline ⊢
      rw [layout, layout, hlong, hline, layouts_again (level + 1) args h]
  | .aggregate op grouping param inner, h => by
      have hlong := is_long_again h
      have hline := one_line_again (.aggregate op grouping param inner) h
      obtain ⟨-, hparam, hinner⟩ := forall_parts_aggregate.1 h
      cases param with
      | none =>
          simp only [again] at hlong hline ⊢
          simp only [layout, hlong, hline, layout_again (level + 1) inner hinner,
            Grouping.again_text]
      | some q =>
          have hq : PartsStable p q.parts := hparam q rfl
          simp only [again] at hlong hline ⊢
          simp only [layout, hlong, hline, layout_again (level + 1) inner hinner,
            layout_again (level + 1) q hq, Grouping.again_text]

/-- Queries with stable parts are read with the same layouts. -/
theorem layouts_again (level : Nat) : (es : List Expr) → PartsStable p (partsAll es) →
    layouts level (againAll es) = layouts level es
  | [], _ => rfl
  | e :: es, h => by
      obtain ⟨he, hes⟩ := List.forall_mem_append.1 h
      rw [againAll, layouts, layouts, layout_again level e he, layouts_again level es hes]
end

/-! ## The round trip -/

/-- A query with stable parts is read where the query may stand. -/
theorem Reads.again {level : Nat} {e : Expr} (h : e.Reads level) (hparts : PartsStable p e.parts) :
    e.again.Reads level := by
  induction h with
  | number hneg => exact .number hneg
  | string => exact .string
  | vector hc =>
      exact .vector (Selector.check_again hc (hparts _ List.mem_cons_self).2.2.keeps_names)
  | matrix hc =>
      exact .matrix (Selector.check_again hc
        (hparts _ (List.mem_cons_of_mem _ List.mem_cons_self)).2.2.keeps_names)
  | subquery hinner hc ih =>
      refine .subquery (ih (forall_parts_subquery.1 hparts).1) ?_
      rw [check, type_again]
      exact hc
  | paren hinner ih => exact .paren (ih hparts)
  | @negative _ inner hlevel hinner hnumber hc ih =>
      refine .negative hlevel (ih hparts) (fun value hvalue => ?_) ?_
      · cases inner with
        | number value => exact hnumber value rfl
        | aggregate op grouping param inner => cases param <;> cases hvalue
        | _ => cases hvalue
      · rw [check, type_again]
        exact hc
  | binary hlevel hleft hedge hright hc ihleft ihright =>
      obtain ⟨-, hpartsleft, hpartsright⟩ := forall_parts_binary.1 hparts
      refine .binary hlevel (ihleft hpartsleft) ?_ (ihright hpartsright) ?_
      · rw [edge_again]
        exact hedge
      · rw [check, type_again, type_again, check_binary_again]
        exact hc
  | call hf hargs hc ih =>
      rw [Expr.again, again_all_eq]
      refine .call hf (fun arg harg => ?_) ?_
      · obtain ⟨arg, hmem, rfl⟩ := List.mem_map.1 harg
        exact ih arg hmem (forall_parts_call.1 hparts arg hmem)
      · rw [check, check_call_again]
        exact hc
  | aggregate hparam hinner hcount hc ihparam ih =>
      obtain ⟨-, hpartsparam, hpartsinner⟩ := forall_parts_aggregate.1 hparts
      rw [again_aggregate]
      refine .aggregate (fun q hq => ?_) (ih hpartsinner) ?_ ?_
      · obtain ⟨q, hmem, rfl⟩ := Option.mem_map.1 hq
        exact ihparam q hmem (hpartsparam q hmem)
      · rw [Option.isSome_map]
        exact hcount
      · rw [check, check_aggregate_again]
        exact hc

/-- The parts of the query that is read from stable parts show all there is. -/
theorem again_plain {e : Expr} (hparts : PartsStable p e.parts) :
    ∀ part ∈ e.again.parts, part.Plain := by
  intro part hpart
  rw [parts_again] at hpart
  obtain ⟨part', hmem, hagain⟩ := List.mem_filterMap.1 hpart
  exact (hparts part' hmem).1.again_plain (hparts part' hmem).2 part hagain

/-- The canonical text of a query with stable parts, with blank space after it, denotes a query with
the same canonical text. -/
theorem Reads.parse_again {e : Expr} (h : e.Reads 1) (hparts : PartsStable p e.parts)
    {blank : Text} (hblank : ∀ c ∈ blank, Token.isSpace c = true) :
    parse (e.pretty ++ blank) = .query e.again ∧ e.again.pretty = e.pretty := by
  have hpretty : e.again.pretty = e.pretty := layout_again 0 e hparts
  refine ⟨?_, hpretty⟩
  rw [← hpretty]
  exact (h.again hparts).parse_pretty (again_plain hparts) hblank

end QueryTidy.Expr
