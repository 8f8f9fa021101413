import QueryTidy.Proofs.Query.Operations

/-!
# Matching vectors in canonical form

Canonical form writes the modifier of an operation in another way: an empty list of ignored labels
is left out, and every side has a list of labels, which may be empty. The canonical text of an
operation is therefore that of another one (`VectorOperation.again`), which is read from it.
`vector_matching_kept` says that it has the same matching.
-/

namespace QueryTidy

open Token (Cuts Ends)

/-! ## What is kept -/

/-- The same matching, where an empty list of ignored labels is as good as none. -/
inductive Matching.Alike : Option Matching → Option Matching → Prop where
  | same (matching : Option Matching) : Alike matching matching
  | omitted : Alike (some (.ignoring [])) none

/-- A modifier says what is written: the flag, the matching, the side and the labels that are
included, in order. -/
structure WrittenModifier.KeptBy (w : WrittenModifier) (m : Modifier) : Prop where
  bool : m.bool = w.bool
  matching : Matching.Alike w.matching m.matching
  group : m.group = w.group.map fun side => (side.1, side.2.getD [])

/-! ## What is written in the canonical text -/

namespace WrittenModifier

/-- The modifier that is written in the canonical text: an empty list of ignored labels is left out,
and every side has a list. -/
def again (w : WrittenModifier) : WrittenModifier where
  bool := w.bool
  matching := w.matching.filter fun k => k ≠ .ignoring []
  group := w.group.map fun side => (side.1, some (side.2.getD []))
  are_labels := by
    intro l hl
    rcases List.mem_append.1 hl with hl | hl
    · obtain ⟨k, hk, hl⟩ := List.mem_flatMap.1 hl
      have hmatching : k ∈ w.matching := (Option.filter_eq_some_iff.1 (Option.mem_toList.1 hk)).1
      exact w.are_labels l (List.mem_append_left _
        (List.mem_flatMap.2 ⟨k, Option.mem_toList.2 hmatching, hl⟩))
    · refine w.are_labels l (List.mem_append_right _ ?_)
      simpa [Option.toList_map, List.flatMap_map] using hl

/-- The modifier that is written in the canonical text says what is written. -/
theorem kept_by_again (w : WrittenModifier) : w.KeptBy w.again.modifier where
  bool := rfl
  matching := by
    show Matching.Alike w.matching (w.matching.filter fun k => k ≠ .ignoring [])
    cases w.matching with
    | none => exact .same none
    | some k =>
        by_cases hk : k = .ignoring []
        · subst hk
          exact .omitted
        · rw [Option.filter_some_pos (by simpa using hk)]
          exact .same (some k)
  group := by simp [modifier, again, Function.comp_def]

/-- What is written in the canonical text is what is read from it. -/
theorem modifier_again (w : WrittenModifier) : w.again.modifier = w.modifier.again := by
  simp [modifier, again, Modifier.again, Function.comp_def]

/-- The tokens of a modifier in which every side has a list. -/
theorem tokens_again (w : WrittenModifier) : w.again.tokens = w.again.modifier.tokens := by
  have hbool : ((if w.bool then [(Reserved.bool, none)] else []).map
      fun word : Reserved × Option (List Text) => word.1.clause word.2).flatMap Prod.snd =
        if w.bool then [.reserved .bool Reserved.bool.word] else [] := by
    cases w.bool <;> rfl
  rw [tokens, words, List.map_append, List.flatMap_append, Modifier.tokens]
  exact congrArg₂ _ hbool (by
    simp [again, modifier, Reserved.clause, List.flatMap_map, Option.toList_map])

end WrittenModifier

namespace WrittenSelector

/-- The selector that the canonical text of one denotes. -/
def again (s : WrittenSelector) (h : s.selection.KeepsNames (some s.name)) : WrittenSelector where
  name := s.name
  selection := s.selection.again
  is_name := s.is_name
  read := s.read.again h

/-- The canonical text of a selector consists of the tokens of the selector that is read from it. -/
theorem laid_again (s : WrittenSelector) (h : s.selection.KeepsNames (some s.name)) :
    Laid (Expr.vector s.selector).oneLine (s.again h).tokens ∧
      ∀ k, Laid ((Expr.vector s.selector).layout k) (s.again h).tokens := by
  have hone : Laid (Expr.vector s.selector).oneLine (s.again h).tokens := by
    refine ⟨by rw [tokens_eq]; exact List.cons_ne_nil _ _, fun depth rest hrest => ?_⟩
    have hbraces : Cuts ⟨depth, .plain⟩ _ _ _ _ :=
      cuts_braces (s.selection.cuts_again s.read h depth) rest
    have htext : (Expr.vector s.selector).oneLine = s.name ++
        if s.selection.isEmpty then [] else '\x7b' :: (s.selection.toText ++ ['\x7d']) := by
      have htiming : s.selector.timing.toText = [] := rfl
      rw [Expr.oneLine, htiming, List.append_nil]
      rfl
    rw [htext, tokens_eq, again, Selection.again_is_empty, List.append_assoc]
    split
    · exact .one (Token.step_word s.is_name.1 hrest)
    · rw [List.cons_append, List.append_assoc]
      exact .next (Token.step_word s.is_name.1 rfl) hbraces
  refine ⟨hone, fun k => ?_⟩
  rw [Expr.layout]
  · exact hone.indent k
  all_goals simp

end WrittenSelector

namespace VectorOperation

variable (x : VectorOperation) (hleft : x.left.selection.KeepsNames (some x.left.name))
  (hright : x.right.selection.KeepsNames (some x.right.name))

/-- The operation that is written in the canonical text of one. -/
def again : VectorOperation where
  op := x.op
  modifier := x.modifier.again
  left := x.left.again hleft
  right := x.right.again hright

variable {x}

/-- The canonical text of an operation consists of the tokens of the operation that is written in
it. -/
theorem laid_again (hread : (Part.modifier x.modifier.modifier).Read Token.Quotable)
    (hstable : x.modifier.modifier.Stable) : Laid x.query.pretty (x.again hleft hright).tokens := by
  have hlaid := (Expr.laid_operation x.op (hstable.again_plain hread)
    (Modifier.again_text _).symm (x.left.laid_again hleft) (x.right.laid_again hright)).2 0
  rwa [← x.modifier.modifier_again, ← x.modifier.tokens_again] at hlaid

/-- The canonical text of an operation denotes the operation that is written in it. -/
theorem parse_again (h : x.query.Reads 1)
    (hread : (Part.modifier x.modifier.modifier).Read Token.Quotable)
    (hstable : x.modifier.modifier.Stable) :
    Expr.parse x.query.pretty = .query (x.again hleft hright).query := by
  have hscan : Token.scan x.query.pretty = .ok (x.again hleft hright).tokens := by
    have hends : Ends [] := rfl
    have hcuts := (laid_again hleft hright hread hstable).cuts 0 [] hends
    rw [List.append_nil] at hcuts
    exact hcuts.scan rfl
  have hgroup : (x.again hleft hright).modifier.group.isSome = true →
      (x.again hleft hright).modifier.matching.isSome = true := by
    have hplain := (hstable.again_plain hread).1.2
    rw [← x.modifier.modifier_again] at hplain
    exact fun hsome => hplain (by rw [← hsome]; exact Option.isSome_map)
  have hmeaning : (x.again hleft hright).meaning = .ok (x.again hleft hright).query := by
    cases h with
    | binary _ hreadleft _ hreadright hcheck =>
      cases hreadleft with
      | vector hcheckleft =>
        cases hreadright with
        | vector hcheckright =>
          have hagain := Expr.check_binary_again x.op x.modifier.modifier .vector .vector
          rw [← x.modifier.modifier_again] at hagain
          exact (meaning_ok_iff _).2 ⟨rfl, Selector.check_again hcheckleft hleft,
            Selector.check_again hcheckright hright, hagain.trans hcheck⟩
  rw [(x.again hleft hright).parse_read hscan hgroup, hmeaning]
  rfl

end VectorOperation

/-! ## Canonical form -/

namespace Query

/-- Canonical form keeps the matching of vectors: for every accepted text of an operation on two
selectors, or every other text that denotes it, the result is accepted and denotes an operation on
selectors of the same metrics with the same operator, flag, matching, side and included labels. A
side must not stand after an empty list of ignored labels, which is left out, and the first of
several alternatives must not lose its name with an `or` at its beginning. -/
theorem vector_matching_kept (x : VectorOperation) {s t : Text}
    (hs : s = x.text ∨ Expr.parse s = .query x.query)
    (hgroup : x.modifier.group.isSome = true → x.modifier.matching ≠ some (.ignoring []))
    (hleft : x.left.selection.KeepsNames (some x.left.name))
    (hright : x.right.selection.KeepsNames (some x.right.name))
    (hformat : format s = .formatted t) :
    (∃ u, format t = .formatted u) ∧
      ∃ m l r, Expr.parse t = .query (.binary x.op m (.vector l) (.vector r)) ∧
        l.name = some x.left.name ∧ r.name = some x.right.name ∧ x.modifier.KeptBy m := by
  obtain ⟨e, hparse, rfl⟩ := format_eq_formatted_iff.1 hformat
  obtain rfl : e = x.query := by
    rcases hs with rfl | hs
    · exact x.query_of_parse hparse
    · rw [hparse] at hs
      exact ParseResult.query.inj hs
  have hany : Token.QuotedFrom (fun _ => True) ⟨0, .plain⟩ s :=
    fun _ _ _ _ _ _ _ _ => trivial
  obtain ⟨hreads, hread⟩ := Expr.parse_shape (p := fun _ => True) (fun _ _ _ _ _ _ => trivial) hany
    hparse
  have hstable : x.modifier.modifier.Stable := by
    intro hsome
    exact hgroup (by simpa [WrittenModifier.modifier] using hsome)
  have hagain :=
    VectorOperation.parse_again hleft hright hreads (hread _ List.mem_cons_self) hstable
  exact ⟨⟨_, format_eq_formatted_iff.2 ⟨_, hagain, rfl⟩⟩, _, _, _, hagain, rfl, rfl,
    x.modifier.kept_by_again⟩

/-- A ratio of many series to one is kept: the conditions are sorted, and the side gets a list. -/
theorem ratio_kept :
    ∃ (x : VectorOperation) (s t : Text),
      s = "errors\x7bcode=\"500\", app=\"x\"\x7d / ignoring (code) group_left total".toList ∧
      t = "errors\x7bapp=\"x\",code=\"500\"\x7d / ignoring (code) group_left () total".toList ∧
      x.text = s ∧ x.modifier.matching = some (.ignoring ["code".toList]) ∧
      x.modifier.group = some (.left, none) ∧
      format s = .formatted t ∧ (∃ u, format t = .formatted u) ∧
      ∃ m l r, Expr.parse t = .query (.binary .divide m (.vector l) (.vector r)) ∧
        l.name = some "errors".toList ∧ r.name = some "total".toList ∧ x.modifier.KeptBy m := by
  have herrors : IsMetricName "errors".toList := ⟨⟨rfl, List.all_eq_true.1 rfl⟩, by decide +kernel⟩
  have htotal : IsMetricName "total".toList := ⟨⟨rfl, List.all_eq_true.1 rfl⟩, by decide +kernel⟩
  have hcode : IsLabel "code".toList := ⟨⟨rfl, List.all_eq_true.1 rfl⟩, by decide +kernel⟩
  let conditions : List Matcher :=
    [⟨"code".toList, .equal, "500".toList⟩, ⟨"app".toList, .equal, "x".toList⟩]
  have hconditions : ∀ m ∈ conditions, m.Read Token.Quotable := by
    intro m hm
    simp only [conditions, List.mem_cons, List.not_mem_nil, or_false] at hm
    obtain rfl | rfl := hm
    · exact ⟨⟨rfl, List.all_eq_true.1 rfl⟩, by decide +kernel, rfl⟩
    · exact ⟨⟨rfl, List.all_eq_true.1 rfl⟩, by decide +kernel, rfl⟩
  let w : WrittenModifier :=
    ⟨false, some (.ignoring ["code".toList]), some (.left, none), fun l hl => by
      obtain rfl : l = "code".toList := List.mem_singleton.1 hl
      exact hcode⟩
  let x : VectorOperation :=
    ⟨.divide, w, ⟨"errors".toList, .all conditions, herrors, hconditions⟩,
      .bare "total".toList htotal⟩
  have hmatching : w.matching ≠ some (.ignoring []) := by simp [w]
  have hformat :
      format "errors\x7bcode=\"500\", app=\"x\"\x7d / ignoring (code) group_left total".toList =
        .formatted
          "errors\x7bapp=\"x\",code=\"500\"\x7d / ignoring (code) group_left () total".toList := by
    decide +kernel
  exact ⟨x, _, _, rfl, rfl, rfl, rfl, rfl, hformat,
    vector_matching_kept x (.inl rfl) (fun _ => hmatching) trivial trivial hformat⟩

/-- An empty list of ignored labels is left out in front of a side, and the result is refused; so is
what is left of an `or` at the beginning of the first alternative. -/
theorem side_without_matching_refused :
    (∃ x : VectorOperation, x.text = "a + ignoring () group_left b".toList ∧
      format "a + ignoring () group_left b".toList = .formatted "a + group_left () b".toList ∧
      format "a + group_left () b".toList = .rejected "unexpected <group_left>".toList) ∧
    ∃ x : VectorOperation, x.text = "a\x7bor1=\"x\" or b=\"c\"\x7d + b".toList ∧
      format "a\x7bor1=\"x\" or b=\"c\"\x7d + b".toList =
        .formatted "a\x7b1=\"x\" or b=\"c\"\x7d + b".toList ∧
      format "a\x7b1=\"x\" or b=\"c\"\x7d + b".toList =
        .rejected "unexpected character inside braces: '1'".toList := by
  have ha : IsMetricName "a".toList := ⟨⟨rfl, List.all_eq_true.1 rfl⟩, by decide +kernel⟩
  have hb : IsMetricName "b".toList := ⟨⟨rfl, List.all_eq_true.1 rfl⟩, by decide +kernel⟩
  have hlabel : Token.IsName "or1".toList := ⟨rfl, List.all_eq_true.1 rfl⟩
  have hlabel' : Token.IsName "b".toList := ⟨rfl, List.all_eq_true.1 rfl⟩
  let alternatives : List (List Matcher) :=
    [[⟨"or1".toList, .equal, "x".toList⟩], [⟨"b".toList, .equal, "c".toList⟩]]
  have halternatives : (Selection.any alternatives).Read Token.Quotable := by
    refine ⟨le_rfl, fun group hgroup => ?_⟩
    simp only [alternatives, List.mem_cons, List.not_mem_nil, or_false] at hgroup
    obtain rfl | rfl := hgroup
    · exact ⟨by simp, fun m hm => List.mem_singleton.1 hm ▸ ⟨hlabel, by decide +kernel, rfl⟩⟩
    · exact ⟨by simp, fun m hm => List.mem_singleton.1 hm ▸ ⟨hlabel', by decide +kernel, rfl⟩⟩
  let side : WrittenModifier :=
    ⟨false, some (.ignoring []), some (.left, none), fun l hl => nomatch hl⟩
  let plain : WrittenModifier := ⟨false, none, none, fun l hl => nomatch hl⟩
  exact ⟨⟨⟨.plus, side, .bare "a".toList ha, .bare "b".toList hb⟩, rfl, by decide +kernel,
      by decide +kernel⟩,
    ⟨.plus, plain, ⟨"a".toList, .any alternatives, ha, halternatives⟩, .bare "b".toList hb⟩, rfl,
      by decide +kernel, by decide +kernel⟩

end Query

end QueryTidy
