import QueryTidy.Proofs.Query.Again
import QueryTidy.Proofs.Query.Progress
import QueryTidy.Proofs.Query.ShapeQueries
import QueryTidy.Query.Format

/-!
# What the canonical text preserves

Queries that are the same up to the order of conditions that must all hold and up to an empty list
of labels to keep are `Expr.Alike`. The canonical text of a query with `Part.Ordinary` parts denotes
such a query again if the texts of the parts lose nothing (`Part.Kept`).
-/

namespace QueryTidy

/-! ## Alike queries -/

/-- The same conditions, in any order if all must hold. -/
inductive Selection.Alike : Selection → Selection → Prop where
  | all {ms ns : List Matcher} : ms.Perm ns → Alike (.all ms) (.all ns)
  | any (groups : List (List Matcher)) : Alike (.any groups) (.any groups)

/-- Selectors of the same name, conditions and timing. -/
structure Selector.Alike (s s' : Selector) : Prop where
  name : s'.name = s.name
  selection : s.selection.Alike s'.selection
  timing : s'.timing = s.timing

/-- The same labels of an aggregation, where an empty list of labels to keep is as good as none. -/
inductive Grouping.Alike : Option Grouping → Option Grouping → Prop where
  | same (grouping : Option Grouping) : Alike grouping grouping
  | omitted : Alike (some (.keeping [])) none

/-- The same queries but for the order of conditions that must all hold and for empty lists of
labels to keep. -/
inductive Expr.Alike : Expr → Expr → Prop where
  | number (value : Binary64) : Alike (.number value) (.number value)
  | string (raw : Text) : Alike (.string raw) (.string raw)
  | vector {s s' : Selector} : s.Alike s' → Alike (.vector s) (.vector s')
  | matrix {s s' : Selector} (range : Duration) :
      s.Alike s' → Alike (.matrix s range) (.matrix s' range)
  | subquery {inner inner' : Expr} (range : Duration) (step : Option Duration) (timing : Timing) :
      Alike inner inner' →
        Alike (.subquery inner range step timing) (.subquery inner' range step timing)
  | paren {inner inner' : Expr} : Alike inner inner' → Alike (.paren inner) (.paren inner')
  | negative {inner inner' : Expr} :
      Alike inner inner' → Alike (.negative inner) (.negative inner')
  | binary {left left' right right' : Expr} (op : BinaryOp) (modifier : Modifier) :
      Alike left left' → Alike right right' →
        Alike (.binary op modifier left right) (.binary op modifier left' right')
  | call {args args' : List Expr} (f : Signature) :
      List.Forall₂ Alike args args' → Alike (.call f args) (.call f args')
  | aggregate {grouping grouping' : Option Grouping} {param param' : Option Expr}
      {inner inner' : Expr} (op : AggregateOp) :
      Grouping.Alike grouping grouping' → Option.Rel Alike param param' → Alike inner inner' →
        Alike (.aggregate op grouping param inner) (.aggregate op grouping' param' inner')

/-! ## Parts that are kept -/

namespace Duration

/-- The duration is shorter than the seconds that 32 bits can count. -/
def IsShort (d : Duration) : Prop :=
  d.nanos < 2 ^ 32 * 1000000000

/-- The duration is a positive number of whole milliseconds. -/
def IsWhole (d : Duration) : Prop :=
  0 < d.nanos ∧ d.nanos % 1000000 = 0

instance (d : Duration) : Decidable d.IsShort :=
  inferInstanceAs (Decidable (_ < _))

instance (d : Duration) : Decidable d.IsWhole :=
  inferInstanceAs (Decidable (_ ∧ _))

/-- The text of a short duration of whole milliseconds denotes the duration. -/
theorem of_text_of_whole {d : Duration} (hshort : d.IsShort) (hwhole : d.IsWhole) :
    ofText d.toText = .ok d := by
  obtain ⟨hpos, hmod⟩ := hwhole
  have hmillis : 0 < d.millis := by
    unfold millis
    omega
  have hround : ofMillis d.millis = d := by
    obtain ⟨nanos⟩ := d
    simp only [ofMillis, millis, mk.injEq] at hmod ⊢
    omega
  rw [of_text_of_lt hmillis hshort, hround]

/-- What is read from the text of a short duration of whole milliseconds is the duration. -/
theorem again_of_whole {d : Duration} (hshort : d.IsShort) (hwhole : d.IsWhole) : d.again = d := by
  rw [again, of_text_of_whole hshort hwhole]
  rfl

/-- A short duration of whole milliseconds is stable. -/
theorem stable_of_whole {d : Duration} (hshort : d.IsShort) (hwhole : d.IsWhole) : d.Stable :=
  ⟨d, of_text_of_whole hshort hwhole, rfl⟩

/-- The step that is read from the text of a short duration of whole milliseconds is the
duration. -/
theorem step_again_of_whole {d : Duration} (hshort : d.IsShort) (hwhole : d.IsWhole) :
    d.stepAgain = some d := by
  have hne : d.toText ≠ [] := by
    intro hnil
    have hread := of_text_of_whole hshort hwhole
    rw [hnil] at hread
    cases hread
  rw [stepAgain, if_neg hne, again_of_whole hshort hwhole]

end Duration

namespace Part

/-- The part has no durations of `2 ^ 32` seconds or more, no evaluation time that is a number and
no empty list of ignored labels. -/
def Ordinary : Part → Prop
  | .span d => d.IsShort
  | .step d => d.IsShort
  | .instant (.time _ _) => False
  | .modifier m => m.matching ≠ some (.ignoring [])
  | _ => True

/-- The text of the part loses nothing: durations are of whole milliseconds, and the first of
several alternatives does not begin with an `or`. -/
def Kept : Part → Prop
  | .span d => d.IsWhole
  | .step d => d.IsWhole
  | .selector _ (.any groups) =>
      ∀ first ∈ Selection.firstName? groups, Text.dropStart? "or".toList first = none
  | _ => True

end Part

namespace Part

/-- A part that is kept is stable. -/
theorem Kept.stable {part : Part} (hread : part.Read Token.Quotable) (hordinary : part.Ordinary)
    (hkept : part.Kept) : part.Stable := by
  cases part with
  | number value => trivial
  | string raw => exact hread
  | selector name selection =>
      refine ⟨hread.2.values, ?_⟩
      cases selection with
      | all ms => trivial
      | any groups =>
          intro first hfirst stripped hstripped
          rw [hkept first hfirst] at hstripped
          cases hstripped
  | span d => exact Duration.stable_of_whole hordinary hkept
  | step d => exact .inr (Duration.stable_of_whole hordinary hkept)
  | instant i =>
      cases i with
      | start => exact ⟨.start, rfl, rfl⟩
      | finish => exact ⟨.finish, rfl, rfl⟩
      | time negative millis => exact absurd hordinary id
  | modifier m => exact fun _ => hordinary
  | grouping g => trivial

end Part

/-! ## The round trip -/

/-- The parts are ordinary, and their texts lose nothing. -/
def PartsKept (parts : List Part) : Prop :=
  ∀ part ∈ parts, part.Ordinary ∧ part.Kept

/-- A timing with kept parts is read as it is. -/
theorem Timing.again_of_kept {t : Timing} (h : PartsKept t.parts) : t.again = t := by
  obtain ⟨offset, instant⟩ := t
  have hinstant : instant.map Instant.again = instant := by
    cases instant with
    | none => rfl
    | some i =>
        have hordinary := (h (.instant i) (List.mem_append_left _ List.mem_cons_self)).1
        cases i with
        | start => rfl
        | finish => rfl
        | time negative millis => exact absurd hordinary id
  have hoffset : (offset.map fun o => { o with span := o.span.again }) = offset := by
    cases offset with
    | none => rfl
    | some o =>
        obtain ⟨hshort, hwhole⟩ := h (.span o.span) (List.mem_append_right _ List.mem_cons_self)
        rw [Option.map_some, Duration.again_of_whole hshort hwhole]
  rw [Timing.again, hinstant, hoffset]

/-- A selector with kept parts is read up to the order of its conditions. -/
theorem Selector.alike_again {s : Selector} (h : PartsKept s.parts) : s.Alike s.again := by
  refine ⟨rfl, ?_, Timing.again_of_kept fun part hpart => h part (List.mem_cons_of_mem _ hpart)⟩
  have hkept := (h _ List.mem_cons_self).2
  rw [Selector.again]
  cases hselection : s.selection with
  | all ms => exact .all (List.perm_insertionSort _ ms).symm
  | any groups =>
      rw [hselection] at hkept
      have hsame : Selection.renameFirst Selection.withoutOr groups = groups := by
        cases groups with
        | nil => rfl
        | cons group rest =>
            cases group with
            | nil => rfl
            | cons m ms =>
                have hname : Selection.withoutOr m.name = m.name := by
                  rw [Selection.withoutOr, hkept m.name rfl]
                  rfl
                rw [Selection.renameFirst, Matcher.rename, hname]
      have hagain : (Selection.any groups).again = .any groups := congrArg Selection.any hsame
      rw [hagain]
      exact .any groups

/-- The labels of an aggregation are read but for an empty list of labels to keep. -/
theorem Grouping.alike_again (grouping : Option Grouping) :
    Grouping.Alike grouping (Grouping.again grouping) := by
  cases grouping with
  | none => exact .same none
  | some g =>
      cases g with
      | keeping labels =>
          cases labels with
          | nil => exact .omitted
          | cons label labels => exact .same _
      | dropping labels => exact .same _

/-- A modifier without an empty list of ignored labels is read as it is. -/
theorem Modifier.again_of_ordinary {m : Modifier} (h : (Part.modifier m).Ordinary) :
    m.again = m := by
  obtain ⟨bool, matching, group⟩ := m
  have hne : matching ≠ some (.ignoring []) := h
  cases matching with
  | none => rfl
  | some k =>
      have hk : k ≠ .ignoring [] := fun hk => hne (congrArg some hk)
      simp [Modifier.again, hk]

namespace Expr

mutual
/-- A query with kept parts is read as one that is alike. -/
theorem alike_again : (e : Expr) → PartsKept e.parts → e.Alike e.again
  | .number value, _ => .number value
  | .string raw, _ => .string raw
  | .vector _, h => .vector (Selector.alike_again h)
  | .matrix s range, h => by
      obtain ⟨hshort, hwhole⟩ := h _ List.mem_cons_self
      rw [again, Duration.again_of_whole hshort hwhole]
      exact .matrix range (Selector.alike_again fun part hpart =>
        h part (List.mem_cons_of_mem _ hpart))
  | .subquery inner range step timing, h => by
      obtain ⟨hinner, hrange, hstep, htiming⟩ := forall_parts_subquery.1 h
      have hsteps : step.bind Duration.stepAgain = step := by
        cases step with
        | none => rfl
        | some d =>
            obtain ⟨hshort, hwhole⟩ := hstep d rfl
            exact Duration.step_again_of_whole hshort hwhole
      rw [again, Duration.again_of_whole hrange.1 hrange.2, hsteps, Timing.again_of_kept htiming]
      exact .subquery range step timing (alike_again inner hinner)
  | .paren inner, h => .paren (alike_again inner h)
  | .negative inner, h => .negative (alike_again inner h)
  | .binary op modifier left right, h => by
      obtain ⟨hmodifier, hleft, hright⟩ := forall_parts_binary.1 h
      rw [again, Modifier.again_of_ordinary hmodifier.1]
      exact .binary op modifier (alike_again left hleft) (alike_again right hright)
  | .call f args, h => .call f (alike_again_all args h)
  | .aggregate op grouping param inner, h => by
      obtain ⟨-, hparam, hinner⟩ := forall_parts_aggregate.1 h
      rw [again_aggregate]
      refine .aggregate op (Grouping.alike_again grouping) ?_ (alike_again inner hinner)
      cases param with
      | none => exact .none
      | some q => exact .some (alike_again q (hparam q rfl))

/-- Queries with kept parts are read as ones that are alike. -/
theorem alike_again_all : (es : List Expr) → PartsKept (partsAll es) →
    List.Forall₂ Alike es (againAll es)
  | [], _ => .nil
  | e :: es, h => by
      obtain ⟨he, hes⟩ := List.forall_mem_append.1 h
      exact .cons (alike_again e he) (alike_again_all es hes)
end

end Expr

namespace Token

/-- A text without the other quotes has its string literals in double quotes. -/
theorem quoted_from_of_no_quotes {s : LexState} {t : Text} (h : '\'' ∉ t ∧ '\x60' ∉ t) :
    QuotedFrom (· = '"') s t := by
  intro tokens s' rest hcuts c tail hdrop hquote
  have hmem : c ∈ t := by
    refine hcuts.suffix.subset ((drop_blank_suffix false rest).subset ?_)
    rw [hdrop]
    exact List.mem_cons_self
  simp only [isQuote, Bool.or_eq_true, beq_iff_eq] at hquote
  rcases hquote with (rfl | rfl) | rfl
  · rfl
  · exact absurd hmem h.1
  · exact absurd hmem h.2

end Token

namespace Query

/-- Every string literal of the text is in double quotes. -/
def DoubleQuoted (t : Text) : Prop :=
  Token.QuotedFrom (· = '"') ⟨0, .plain⟩ t

/-- A text that is put into canonical form is a query, of which the canonical text is the result. -/
theorem format_eq_formatted_iff {s t : Text} :
    format s = .formatted t ↔ ∃ e, Expr.parse s = .query e ∧ e.pretty = t := by
  unfold format
  cases Expr.parse s <;> simp

/-- Canonical form preserves the query: the canonical text of a query in double quotes, with
ordinary parts of which the texts lose nothing, is accepted and denotes the query again, up to the
order of conditions and empty lists of labels to keep. -/
theorem canonical_form_preserves_query {s t : Text} {e : Expr} (hparse : Expr.parse s = .query e)
    (hformat : format s = .formatted t) (hquotes : DoubleQuoted s)
    (hordinary : ∀ part ∈ e.parts, part.Ordinary) (hkept : ∀ part ∈ e.parts, part.Kept) :
    format t = .formatted t ∧ ∃ e', Expr.parse t = .query e' ∧ e.Alike e' := by
  obtain ⟨e₁, hparse₁, rfl⟩ := format_eq_formatted_iff.1 hformat
  obtain rfl : e = e₁ := by
    rw [hparse] at hparse₁
    exact ParseResult.query.inj hparse₁
  obtain ⟨hreads, hread⟩ := Expr.parse_shape (p := Token.Quotable) (by
    rintro c rfl t raw rest hscan
    exact Token.quotable_of_scan hscan) hquotes hparse
  have hstable : Expr.PartsStable Token.Quotable e.parts := fun part hpart =>
    ⟨hread part hpart, (hkept part hpart).stable (hread part hpart) (hordinary part hpart)⟩
  have hnil : ∀ c ∈ ([] : Text), Token.isSpace c = true := fun c hc => nomatch hc
  obtain ⟨hagain, hpretty⟩ := hreads.parse_again hstable hnil
  rw [List.append_nil] at hagain
  refine ⟨format_eq_formatted_iff.2 ⟨e.again, hagain, hpretty⟩, e.again, hagain, ?_⟩
  exact e.alike_again fun part hpart => ⟨hordinary part hpart, hkept part hpart⟩

/-- The result is the query that selects the series. -/
def isVector (s : Selector) : ParseResult → Bool
  | .query (.vector s') => decide (s' = s)
  | _ => false

theorem eq_of_is_vector {s : Selector} {result : ParseResult} (h : isVector s result = true) :
    result = .query (.vector s) := by
  unfold isVector at h
  split at h
  · rw [of_decide_eq_true h]
  · cases h

/-- The result is the query that selects the range of the series. -/
def isMatrix (s : Selector) (range : Duration) : ParseResult → Bool
  | .query (.matrix s' range') => decide (s' = s ∧ range' = range)
  | _ => false

theorem eq_of_is_matrix {s : Selector} {range : Duration} {result : ParseResult}
    (h : isMatrix s range result = true) : result = .query (.matrix s range) := by
  unfold isMatrix at h
  split at h
  · obtain ⟨rfl, rfl⟩ := of_decide_eq_true h
    rfl
  · cases h

/-- The result is the query that aggregates what the function makes of the range. -/
def isAggregatedRange (op : AggregateOp) (grouping : Option Grouping) (f : Signature) (s : Selector)
    (range : Duration) : ParseResult → Bool
  | .query (.aggregate op' grouping' none (.call f' [.matrix s' range'])) =>
      decide (op' = op ∧ grouping' = grouping ∧ f' = f ∧ s' = s ∧ range' = range)
  | _ => false

theorem eq_of_is_aggregated_range {op : AggregateOp} {grouping : Option Grouping} {f : Signature}
    {s : Selector} {range : Duration} {result : ParseResult}
    (h : isAggregatedRange op grouping f s range result = true) :
    result = .query (.aggregate op grouping none (.call f [.matrix s range])) := by
  unfold isAggregatedRange at h
  split at h
  · obtain ⟨rfl, rfl, rfl, rfl, rfl⟩ := of_decide_eq_true h
    rfl
  · cases h

/-- An aggregation with an empty list of labels over a selector with two conditions. -/
theorem parse_sum_of_rates :
    Expr.parse "sum by () (rate(http\x7bb=\"x\", a=\"y\"\x7d[90s]))".toList =
      .query (.aggregate .sum (some (.keeping [])) none
        (.call ⟨"rate".toList, [.matrix], false, .vector⟩
          [.matrix ⟨some "http".toList, .all [⟨['b'], .equal, ['x']⟩, ⟨['a'], .equal, ['y']⟩], {}⟩
            ⟨90000000000⟩])) :=
  eq_of_is_aggregated_range (by decide +kernel)

/-- The conditions are sorted, the empty list of labels is left out, and the query is the same. -/
theorem canonical_form_preserves_sum_of_rates :
    ∃ e, Expr.parse "sum by () (rate(http\x7bb=\"x\", a=\"y\"\x7d[90s]))".toList = .query e ∧
      format "sum by () (rate(http\x7bb=\"x\", a=\"y\"\x7d[90s]))".toList =
        .formatted "sum(rate(http\x7ba=\"y\",b=\"x\"\x7d[1m30s]))".toList ∧
      format "sum(rate(http\x7ba=\"y\",b=\"x\"\x7d[1m30s]))".toList =
        .formatted "sum(rate(http\x7ba=\"y\",b=\"x\"\x7d[1m30s]))".toList ∧
      ∃ e', Expr.parse "sum(rate(http\x7ba=\"y\",b=\"x\"\x7d[1m30s]))".toList = .query e' ∧
        e.Alike e' := by
  have hformat : format "sum by () (rate(http\x7bb=\"x\", a=\"y\"\x7d[90s]))".toList =
      .formatted "sum(rate(http\x7ba=\"y\",b=\"x\"\x7d[1m30s]))".toList := by decide +kernel
  refine ⟨_, parse_sum_of_rates, hformat, canonical_form_preserves_query parse_sum_of_rates hformat
    (Token.quoted_from_of_no_quotes (by decide)) (fun part hpart => ?_) fun part hpart => ?_⟩
  all_goals
    simp only [Expr.parts, Expr.partsAll, Selector.parts, Timing.parts, Option.toList,
      List.map_cons, List.map_nil, List.nil_append, List.append_nil, List.cons_append,
      List.mem_cons, List.not_mem_nil, or_false] at hpart
    rcases hpart with rfl | rfl | rfl
  · trivial
  · exact (by decide : Duration.IsShort ⟨90000000000⟩)
  · trivial
  · trivial
  · exact (by decide : Duration.IsWhole ⟨90000000000⟩)
  · trivial

/-- The alternatives of a selector. -/
theorem parse_alternatives (name : Text) (hname : name = "order".toList ∨ name = "der".toList) :
    Expr.parse ("\x7b".toList ++ name ++ "=\"a\" or b=\"c\"\x7d".toList) =
      .query (.vector ⟨none, .any [[⟨name, .equal, ['a']⟩], [⟨['b'], .equal, ['c']⟩]], {}⟩) := by
  refine eq_of_is_vector ?_
  rcases hname with rfl | rfl
  · decide +kernel
  · decide +kernel

/-- An `or` at the beginning of the first name of several alternatives is lost: the canonical text
is that of another query. -/
theorem canonical_form_loses_or :
    ∃ s t e, Expr.parse s = .query e ∧ format s = .formatted t ∧ DoubleQuoted s ∧
      (∀ part ∈ e.parts, part.Ordinary) ∧ ¬∃ e', Expr.parse t = .query e' ∧ e.Alike e' := by
  refine ⟨_, "\x7bder=\"a\" or b=\"c\"\x7d".toList, _, parse_alternatives "order".toList (.inl rfl),
    by decide +kernel, Token.quoted_from_of_no_quotes (by decide), fun part hpart => ?_, ?_⟩
  · obtain rfl := List.mem_singleton.1 hpart
    trivial
  · rintro ⟨e', hparse, halike⟩
    have hder : Expr.parse "\x7bder=\"a\" or b=\"c\"\x7d".toList = _ :=
      parse_alternatives "der".toList (.inr rfl)
    rw [hder] at hparse
    obtain rfl := ParseResult.query.inj hparse
    cases halike with
    | vector hselector => cases hselector.selection

end Query

end QueryTidy
