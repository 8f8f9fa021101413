import QueryTidy.Proofs.Query.CutLayout
import QueryTidy.Proofs.Query.Preserved

/-!
# How canonical texts end

The canonical text of a query ends with a visible character, with one exception: an offset of less
than a millisecond that does not look ahead has a text that ends with the space before its length,
since such a length is shown as nothing. So the text of a query ends with a space exactly when the
timing that comes last in it has such an offset (`Expr.leavesSpace`).

`Text.EndsIn` says how a text ends and that there is something visible in it: the latter keeps the
end where blanks are cut off in front. There is one lemma for each part that may come last in a
text, and the induction over queries follows the place at which the printer puts what comes last
(`Expr.Reads.ends`).
-/

namespace QueryTidy

/-! ## Ends of texts -/

namespace Text

/-- The text has a visible character, and the last character is a space, or visible. -/
structure EndsIn (space : Bool) (t : Text) : Prop where
  visible : ∃ c ∈ t, isBlank c = false
  last : ∃ c, t.getLast? = some c ∧ if space then c = ' ' else isBlank c = false

variable {space : Bool} {t : Text}

/-- What stands in front of a text does not change how it ends. -/
theorem EndsIn.after (h : EndsIn space t) (front : Text) : EndsIn space (front ++ t) := by
  obtain ⟨⟨d, hd, hvisible⟩, c, hlast, hc⟩ := h
  refine ⟨⟨d, List.mem_append_right _ hd, hvisible⟩, c, ?_, hc⟩
  rw [List.getLast?_append, hlast]
  rfl

/-- A character in front of a text does not change how it ends. -/
theorem EndsIn.cons (h : EndsIn space t) (c : Char) : EndsIn space (c :: t) :=
  h.after [c]

/-- A text with a visible character at its end. -/
theorem ends_in_visible (front : Text) {c : Char} (hc : isBlank c = false) :
    EndsIn false (front ++ [c]) := by
  refine ⟨⟨c, by simp, hc⟩, c, ?_, hc⟩
  rw [List.getLast?_append]
  rfl

/-- A text of visible characters. -/
theorem ends_in_of_visible (hne : t ≠ []) (hall : ∀ c ∈ t, isBlank c = false) : EndsIn false t := by
  rcases List.eq_nil_or_concat t with rfl | ⟨front, c, rfl⟩
  · exact absurd rfl hne
  · rw [List.concat_eq_append] at hall ⊢
    exact ends_in_visible front (hall c (by simp))

/-- A text keeps its end when blanks in front are cut off. -/
theorem EndsIn.trim_start (h : EndsIn space t) : EndsIn space (trimStart t) := by
  obtain ⟨⟨d, hd, hvisible⟩, c, hlast, hc⟩ := h
  have hsplit : t.takeWhile isBlank ++ trimStart t = t := List.takeWhile_append_dropWhile
  have hmem : d ∈ trimStart t := by
    rw [← hsplit] at hd
    rcases List.mem_append.mp hd with hfront | hrest
    · have hall := List.all_eq_true.mp (List.all_takeWhile (p := isBlank) (l := t)) d hfront
      rw [hvisible] at hall
      cases hall
    · exact hrest
  refine ⟨⟨d, hmem, hvisible⟩, c, ?_, hc⟩
  rw [← hsplit, List.getLast?_append] at hlast
  cases hrest : (trimStart t).getLast? with
  | none =>
      rw [List.getLast?_eq_none_iff.mp hrest] at hmem
      cases hmem
  | some e =>
      rw [hrest] at hlast
      exact hlast

end Text

open Text (EndsIn ends_in_visible ends_in_of_visible)

/-! ## Words and numbers -/

/-- Digits are visible. -/
theorem digit_visible {c : Char} (h : Text.isDigit c = true) : Text.isBlank c = false := by
  simp only [Text.isDigit, Bool.and_eq_true, decide_eq_true_eq, Char.le_def,
    UInt32.le_iff_toNat_le] at h
  have h0 : '0'.val.toNat = 48 := rfl
  have h9 : '9'.val.toNat = 57 := rfl
  refine not_blank_of_visible ?_
  unfold Char.toNat
  omega

/-- The characters of words are visible. -/
theorem word_rest_visible {c : Char} (h : Token.isWordRest c = true) : Text.isBlank c = false := by
  have hcases : Token.isWordStart c = true ∨ Text.isDigit c = true := by
    simp only [Token.isWordRest, Text.isNameRest, Bool.or_eq_true] at h
    simp only [Token.isWordStart, Bool.or_eq_true]
    rcases h with (hstart | hdigit) | hcolon
    · exact .inl (.inl hstart)
    · exact .inr hdigit
    · exact .inl (.inr hcolon)
  rcases hcases with hstart | hdigit
  · exact not_blank_of_visible (word_start_visible hstart)
  · exact digit_visible hdigit

/-- A word ends visibly. -/
theorem Token.IsWord.ends {word : Text} (h : Token.IsWord word) : EndsIn false word := by
  refine ends_in_of_visible ?_ fun c hc => word_rest_visible (h.all c hc)
  rintro rfl
  simpa using h.start

/-- A numeral ends visibly. -/
theorem numeral_ends {whole : Text} {places : Option Text} (hwhole : IsWhole whole)
    (hplaces : ArePlaces places) : EndsIn false (numeral whole places) := by
  refine ends_in_of_visible ?_ ?_
  · intro hnil
    cases places with
    | none => exact hwhole.nonempty hnil
    | some digits => exact hwhole.nonempty (List.append_eq_nil_iff.mp hnil).1
  · intro c hc
    rcases numeral_chars hwhole.digits hplaces hc with hdigit | rfl
    · exact digit_visible hdigit
    · decide

/-- The text of a number ends visibly. -/
theorem Binary64.literal_ends {v : Binary64} (h : v.IsCanonical) : EndsIn false v.literal := by
  have hunsigned : ∀ v : Binary64, v.IsCanonical → v.isNegative = false →
      EndsIn false v.literal := by
    intro v hv hsign
    cases v with
    | nan => exact ends_in_visible ['N', 'a'] (by decide)
    | infinite negative =>
        obtain rfl : negative = false := hsign
        exact ends_in_visible ['I', 'n'] (by decide)
    | finite negative m e =>
        obtain rfl : negative = false := hsign
        obtain ⟨whole, places, htext, hwhole, hplaces, -⟩ := display_eq_numeral hv
        show EndsIn false (Binary64.finite false m e).display
        rw [htext]
        exact numeral_ends hwhole hplaces
  cases hsign : v.isNegative with
  | false => exact hunsigned v h hsign
  | true =>
      rw [literal_of_negative hsign]
      exact (hunsigned v.neg (neg_canonical h) (neg_unsigned hsign)).cons '-'

/-! ## Lengths and times -/

namespace Duration

/-- The duration is positive and less than a millisecond. -/
def isTiny (d : Duration) : Bool :=
  0 < d.nanos && d.nanos < 1000000

/-- A tiny duration has no text. -/
theorem to_text_of_tiny {d : Duration} (h : d.isTiny = true) : d.toText = [] := by
  simp only [isTiny, Bool.and_eq_true, decide_eq_true_eq] at h
  have hmillis : d.millis = 0 := by
    unfold millis
    omega
  rw [to_text_eq (by omega), parts, hmillis, parts_of_zero]
  rfl

/-- The letters of a unit are visible. -/
theorem symbol_visible (u : TimeUnit) : ∀ c ∈ u.symbol, Text.isBlank c = false := by
  have hall : u.symbol.all (fun c => !Text.isBlank c) = true := by cases u <;> rfl
  intro c hc
  simpa using List.all_eq_true.mp hall c hc

/-- The text of parts is visible. -/
theorem spell_parts_visible (parts : List (Nat × TimeUnit)) :
    ∀ c ∈ spellParts parts, Text.isBlank c = false := by
  induction parts with
  | nil => exact fun c hc => nomatch hc
  | cons part parts ih =>
      obtain ⟨n, u⟩ := part
      intro c hc
      rcases List.mem_append.mp hc with hpart | hrest
      · rcases List.mem_append.mp hpart with hdigits | hsymbol
        · exact digit_visible (Text.of_nat_digits hdigits)
        · exact symbol_visible u c hsymbol
      · exact ih c hrest

/-- A duration that is not tiny has a text, which ends visibly. -/
theorem to_text_ends {d : Duration} (h : d.isTiny = false) : EndsIn false d.toText := by
  by_cases hzero : d.nanos = 0
  · rw [toText, if_pos hzero]
    exact ends_in_visible ['0'] (by decide)
  · have hmillis : 0 < d.millis := by
      simp only [isTiny, Bool.and_eq_false_iff, decide_eq_false_iff_not] at h
      unfold millis
      omega
    rw [to_text_eq hzero]
    refine ends_in_of_visible ?_ (spell_parts_visible d.parts)
    intro hnil
    have hparts : d.parts = [] := by
      have hlength := length_le_spell_parts d.parts
      rw [hnil] at hlength
      exact List.eq_nil_of_length_eq_zero (Nat.le_zero.mp hlength)
    have htotal := total_parts_of all_units.2.1 d.millis
    rw [show partsOf TimeUnit.all d.millis = [] from hparts] at htotal
    exact absurd htotal hmillis.ne

end Duration

namespace Offset

/-- The text of the offset ends with the space before its length, which is shown as nothing. -/
def leavesSpace (o : Offset) : Bool :=
  !o.negative && o.span.isTiny

/-- How the text of an offset ends. -/
theorem to_text_ends (o : Offset) : EndsIn o.leavesSpace o.toText := by
  obtain ⟨negative, span⟩ := o
  show EndsIn (!negative && span.isTiny)
    ("offset ".toList ++ (if negative then ['-'] else []) ++ span.toText)
  cases htiny : span.isTiny with
  | false =>
      rw [Bool.and_false]
      exact (Duration.to_text_ends htiny).after _
  | true =>
      rw [Duration.to_text_of_tiny htiny, List.append_nil]
      cases negative with
      | true => exact ends_in_visible _ (by decide)
      | false => exact ⟨⟨'o', by decide, by decide⟩, ' ', by decide, rfl⟩

end Offset

namespace Instant

/-- The digits of an evaluation time in range are there. -/
theorem digits_of_in_range {negative : Bool} {millis : Nat} (h : millis ≤ greatestMillis) :
    digits negative millis ≠ [] := by
  have hshown : (if negative then 0 else millis) ≤ greatestMillis := by
    split
    · exact Nat.zero_le _
    · exact h
  unfold digits
  -- The digits are missing only for a value that is not finite, so both roundings, that of the
  -- milliseconds and that of the seconds, are kept below a power that is in range.
  generalize (if negative then 0 else millis) = shown at hshown
  have hless : ((shown : Nat) : ℚ) / (1 : Nat) < 2 ^ (64 : Int) := by
    have hnat : shown < 2 ^ 64 := by
      unfold greatestMillis at hshown
      omega
    have hcast : ((shown : Nat) : ℚ) < 2 ^ 64 := by exact_mod_cast hnat
    simpa using hcast
  obtain ⟨m, e, hvalue, hbound⟩ :=
    Binary64.of_ratio_below_power false Nat.one_pos (by decide) hless
  have hden := Binary64.fraction_den_pos m e
  have hsmaller : ((Binary64.fraction m e).1 : ℚ) / ((Binary64.fraction m e).2 * 1000 : Nat) <
      2 ^ (64 : Int) := by
    have hvalue : ((Binary64.fraction m e).1 : ℚ) / ((Binary64.fraction m e).2 * 1000 : Nat) =
        (m : ℚ) * 2 ^ e / 1000 := by
      rw [← Binary64.fraction_eq, Nat.cast_mul, div_mul_eq_div_div]
      norm_num
    rw [hvalue, div_lt_iff₀ (by norm_num)]
    linarith [show (0 : ℚ) < 2 ^ (64 : Int) by positivity]
  obtain ⟨m', e', hvalue', -⟩ :=
    Binary64.of_ratio_below_power false (by omega) (by decide) hsmaller
  rw [show Binary64.ofNat shown = .finite false m e from hvalue]
  show (Binary64.ofRatio false (Binary64.fraction m e).1
    ((Binary64.fraction m e).2 * 1000)).fixed 3 ≠ []
  rw [hvalue']
  show Text.ofNat _ ++ '.' :: _ ≠ []
  simp

/-- The text of an evaluation time in range ends visibly. -/
theorem to_text_ends {i : Instant} (h : i.InRange) : EndsIn false i.toText := by
  cases i with
  | start => exact ends_in_visible "@ start(".toList (by decide)
  | finish => exact ends_in_visible "@ end(".toList (by decide)
  | time negative millis =>
      obtain ⟨whole, places, htext, hwhole, hplaces⟩ := digits_numeral (digits_of_in_range h)
      rw [to_text_time, htext]
      exact (numeral_ends hwhole hplaces).after _

end Instant

namespace Timing

/-- The text of the timing ends with a space. -/
def leavesSpace (t : Timing) : Bool :=
  t.offset.any Offset.leavesSpace

/-- How a text ends to which a timing is added. -/
theorem ends_after {p : Text → Prop} {t : Timing} (h : ∀ part ∈ t.parts, part.Read p) {s : Text}
    (hs : EndsIn false s) : EndsIn t.leavesSpace (s ++ t.toText) := by
  obtain ⟨offset, instant⟩ := t
  cases offset with
  | some o =>
      show EndsIn o.leavesSpace (s ++ (_ ++ ' ' :: o.toText))
      exact ((o.to_text_ends.cons ' ').after _).after s
  | none =>
      cases instant with
      | none =>
          show EndsIn false (s ++ [])
          rw [List.append_nil]
          exact hs
      | some i =>
          have hrange : i.InRange := Query.in_range_of_parts h i rfl
          show EndsIn false (s ++ (' ' :: i.toText ++ []))
          rw [List.append_nil]
          exact ((i.to_text_ends hrange).cons ' ').after s

end Timing

/-! ## Queries -/

/-- The text of a selector without its timing ends visibly. -/
theorem Selector.head_ends {s : Selector} (hcheck : s.check = .ok ())
    (hname : ∀ name ∈ s.name, IsMetricName name) : EndsIn false s.head := by
  unfold head
  by_cases hempty : s.selection.isEmpty = true
  · rw [if_pos hempty, List.append_nil]
    cases hn : s.name with
    | some name => exact (hname name hn).1.ends
    | none =>
        have hmatchers : s.selection.matchers = [] := List.isEmpty_iff.mp hempty
        simp [check, hn, hmatchers, require] at hcheck
  · rw [if_neg hempty]
    exact (ends_in_visible ('\x7b' :: s.selection.toText) (by decide)).after _

namespace Expr

/-- The timing that comes last in the text of a query. -/
def lastTiming : Expr → Timing
  | .vector s => s.timing
  | .matrix s _ => s.timing
  | .subquery _ _ _ timing => timing
  | .negative inner => lastTiming inner
  | .binary _ _ _ right => lastTiming right
  | _ => {}

/-- The text of the query ends with a space. -/
def leavesSpace (e : Expr) : Bool :=
  e.lastTiming.leavesSpace

variable {p : Text → Prop} {e : Expr} {level : Nat}

/-- Parentheses end a text visibly. -/
theorem block_ends (level : Nat) (head : Text) (parts : List Text) :
    EndsIn false (block level head parts) := by
  unfold block
  exact ends_in_visible _ (by decide)

/-- How the text of a subquery ends. -/
theorem subquery_text_ends {range : Duration} {step : Option Duration} {timing : Timing}
    (h : ∀ part ∈ timing.parts, part.Read p) (front : Text) :
    EndsIn timing.leavesSpace (front ++ subqueryText range step timing) := by
  have hbracket : EndsIn false (front ++ ('[' :: range.toText ++
      ':' :: ((step.map Duration.toText).getD [] ++ [']']))) :=
    (((ends_in_visible _ (by decide)).cons ':').after _).after front
  have hends := Timing.ends_after h hbracket
  simpa [subqueryText] using hends

/-- How the text of a query ends, on one line and in every layout. -/
theorem Reads.ends (h : e.Reads level) (hread : ∀ part ∈ e.parts, part.Read p) :
    EndsIn e.leavesSpace e.oneLine ∧ ∀ n, EndsIn e.leavesSpace (e.layout n) := by
  -- Every layout is one line behind an indent, a block, or ends with the layout of the operand that
  -- comes last.
  induction h with
  | number hneg =>
      have hends : EndsIn false _ := Binary64.literal_ends (hread _ List.mem_cons_self)
      exact ⟨hends, fun n => hends.after (indent n)⟩
  | @string _ raw =>
      have hends : EndsIn false ('"' :: raw ++ ['"']) := ends_in_visible _ (by decide)
      exact ⟨hends, fun n => hends.after (indent n)⟩
  | @vector _ s hcheck =>
      have hhead := Selector.head_ends hcheck (hread _ List.mem_cons_self).1
      have hends : EndsIn s.timing.leavesSpace (s.head ++ s.timing.toText) :=
        Timing.ends_after (fun part hpart => hread part (List.mem_cons_of_mem _ hpart)) hhead
      exact ⟨hends, fun n => hends.after (indent n)⟩
  | @matrix _ s range hcheck =>
      have hbracket : EndsIn false (s.head ++ '[' :: range.toText ++ [']']) :=
        ends_in_visible _ (by decide)
      have htiming := Timing.ends_after (fun part hpart =>
        hread part (List.mem_cons_of_mem _ (List.mem_cons_of_mem _ hpart))) hbracket
      have hends : EndsIn s.timing.leavesSpace
          (s.head ++ '[' :: range.toText ++ ']' :: s.timing.toText) := by
        rw [List.append_assoc _ [']']] at htiming
        exact htiming
      exact ⟨hends, fun n => hends.after (indent n)⟩
  | @subquery _ inner range step timing hinner hcheck ih =>
      obtain ⟨-, -, -, htiming⟩ := forall_parts_subquery.1 hread
      exact ⟨subquery_text_ends htiming _, fun n => subquery_text_ends htiming _⟩
  | @paren _ inner hinner ih =>
      have hends : EndsIn false ('(' :: inner.oneLine ++ [')']) := ends_in_visible _ (by decide)
      refine ⟨hends, fun n => ?_⟩
      rw [layout]
      split
      · exact block_ends n [] _
      · exact hends.after (indent n)
  | @negative _ inner hlevel hinner hnumber hcheck ih =>
      obtain ⟨hone, hlayout⟩ := ih hread
      refine ⟨hone.cons '-', fun n => ?_⟩
      rw [layout]
      exact ((hlayout n).trim_start.cons '-').after _
  | @binary _ op modifier left right hlevel hleft hedge hright hcheck ihleft ihright =>
      obtain ⟨hone, hlayout⟩ := ihright (forall_parts_binary.1 hread).2.2
      have hends : EndsIn right.leavesSpace
          (left.oneLine ++ ' ' :: op.word ++ modifier.toText ++ ' ' :: right.oneLine) :=
        (hone.cons ' ').after _
      refine ⟨hends, fun n => ?_⟩
      rw [layout]
      split
      · exact ((hlayout (n + 1)).cons '\n').after _
      · exact hends.after (indent n)
  | @call _ f args hf hargs hcheck ih =>
      have hends : EndsIn false (f.name ++ '(' :: commaList (oneLines args) ++ [')']) :=
        ends_in_visible _ (by decide)
      refine ⟨hends, fun n => ?_⟩
      rw [layout]
      split
      · exact block_ends n _ _
      · exact hends.after (indent n)
  | @aggregate _ op grouping param inner hparam hinner hcount hcheck ihparam ihinner =>
      have hends : EndsIn false (oneLine (.aggregate op grouping param inner)) := by
        cases param <;> exact ends_in_visible _ (by decide)
      refine ⟨hends, fun n => ?_⟩
      cases param
      all_goals
        rw [layout]
        split
        · exact block_ends n _ _
        · exact hends.after (indent n)

end Expr

namespace Query

/-- The text is a query whose canonical text ends with a space. -/
def leavesSpace (s : Text) : Bool :=
  match Expr.parse s with
  | .query e => e.leavesSpace
  | _ => false

/-- How canonical texts end. -/
theorem format_ends {s shown : Text} (h : format s = .formatted shown) :
    EndsIn (leavesSpace s) shown := by
  obtain ⟨e, hparse, rfl⟩ := format_eq_formatted_iff.mp h
  have hquoted : Token.QuotedFrom (fun _ => True) ⟨0, .plain⟩ s := fun _ _ _ _ _ _ _ _ => trivial
  obtain ⟨hreads, hread⟩ := Expr.parse_shape (p := fun _ => True) (fun _ _ _ _ _ _ => trivial)
    hquoted hparse
  have hleaves : leavesSpace s = e.leavesSpace := by
    rw [leavesSpace, hparse]
  rw [hleaves]
  exact (hreads.ends hread).2 0

end Query

end QueryTidy
