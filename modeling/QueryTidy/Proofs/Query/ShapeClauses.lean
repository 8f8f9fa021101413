import QueryTidy.Proofs.Query.ShapeTokens

/-!
# The shape of clauses

What the reader makes of the clauses of a query: the tokens that are left are ones of the text
(`Query.Left`), and the clause is `Part.Read`. The reader goes on after a fault of meaning, so what
is left is described whether or not there was one.
-/

namespace QueryTidy.Query

open Token (Spelled)

variable {p : Text → Prop} {tokens rest rest' : List Token}

/-- What is left of the tokens of a text is no longer and consists of tokens of the text. -/
structure Left (p : Text → Prop) (tokens rest : List Token) : Prop where
  spelled : Spelled p false rest
  length : rest.length ≤ tokens.length

/-- What is left of what is left is left. -/
theorem Left.trans (h : Left p tokens rest) (h' : Left p rest rest') : Left p tokens rest' :=
  ⟨h'.spelled, h'.length.trans h.length⟩

/-- Nothing need be taken. -/
theorem Left.refl (h : Spelled p false tokens) : Left p tokens tokens :=
  ⟨h, le_rfl⟩

/-- All tokens may be taken. -/
theorem Left.nil (tokens : List Token) : Left p tokens [] :=
  ⟨trivial, Nat.zero_le _⟩

/-- A token in front may be taken. -/
theorem Left.cons {token : Token} (h : Left p tokens rest) : Left p (token :: tokens) rest :=
  ⟨h.spelled, h.length.trans (Nat.le_succ _)⟩

/-! ## Labels -/

/-- A token that stands for a label does not lead between braces. -/
theorem label_text_after {token : Token} {text : Text} (h : labelText? token = some text) :
    token.after false = false := by
  cases token with
  | sign s => cases h
  | _ => rfl

/-- A word that stands for a label is one, if it has no colon. -/
theorem label_is_label {token : Token} {text l : Text} (htext : labelText? token = some text)
    (hspelled : token.SpelledIn p false) (hlabel : label text = .ok l) : IsLabel l := by
  unfold label at hlabel
  split at hlabel
  · cases hlabel
  · rename_i hcolon
    cases hlabel
    have hword : Token.IsWord text ∧ Token.ofWord text = token := by
      cases token with
      | identifier t =>
          cases htext
          exact hspelled
      | metricName t =>
          cases htext
          exact hspelled
      | reserved w t =>
          have ht : t = text := by
            cases w <;> first | (cases htext; rfl) | cases htext
          subst ht
          exact hspelled
      | _ => cases htext
    refine ⟨⟨?_, fun c hc => ?_⟩, by rw [hword.2, htext]⟩
    · have hstart := hword.1.start
      cases text with
      | nil => cases hstart
      | cons c rest =>
          have hc : c ≠ ':' := by
            rintro rfl
            exact hcolon List.mem_cons_self
          simpa [Token.isWordStart, hc] using hstart
    · have hne : c ≠ ':' := by
        rintro rfl
        exact hcolon hc
      simpa [Token.isWordRest, hne] using hword.1.all c hc

/-- Labels that are found are labels. -/
def LabelsRead (found : Meaning (List Text)) : Prop :=
  ∀ ls, found = .ok ls → ∀ l ∈ ls, IsLabel l

/-- A word that stands for a label may be added to labels. -/
theorem add_label_read {found : Meaning (List Text)} {token : Token} {text : Text}
    (hfound : LabelsRead found) (htext : labelText? token = some text)
    (hspelled : token.SpelledIn p false) : LabelsRead (addLabel found text) := by
  intro ls hls
  cases found with
  | error e => cases hls
  | ok front =>
      cases hlabel : label text with
      | error e =>
          simp only [addLabel, hlabel] at hls
          cases hls
      | ok l =>
          simp only [addLabel, hlabel] at hls
          cases hls
          intro k hk
          rcases List.mem_append.1 hk with hk | hk
          · exact hfound front rfl k hk
          · obtain rfl : k = l := List.mem_singleton.1 hk
            exact label_is_label htext hspelled hlabel

/-- The rest of a list of labels. -/
theorem labels_from_shape {found meaning : Meaning (List Text)} (hfound : LabelsRead found)
    (hspelled : Spelled p false tokens) (h : labelsFrom found tokens = .ok (meaning, rest)) :
    Left p tokens rest ∧ LabelsRead meaning := by
  induction found, tokens using labelsFrom.induct with
  | case1 found token tail text htext =>
      simp only [labelsFrom, htext] at h
      cases h
      obtain ⟨htoken, -, htail⟩ := hspelled
      rw [label_text_after htext] at htail
      exact ⟨(Left.refl htail).cons.cons, add_label_read hfound htext htoken⟩
  | case2 found token tail htext => simp [labelsFrom, htext] at h
  | case3 found token tail text htext =>
      simp only [labelsFrom, htext] at h
      cases h
      obtain ⟨htoken, -, -, htail⟩ := hspelled
      rw [label_text_after htext] at htail
      exact ⟨(Left.refl htail).cons.cons.cons, add_label_read hfound htext htoken⟩
  | case4 found token tail htext => simp [labelsFrom, htext] at h
  | case5 found token tail hlast text htext ih =>
      rw [labelsFrom] at h
      · simp only [htext] at h
        obtain ⟨htoken, -, htail⟩ := hspelled
        rw [label_text_after htext] at htail
        obtain ⟨hleft, hread⟩ := ih (add_label_read hfound htext htoken) htail h
        exact ⟨hleft.cons.cons, hread⟩
      · exact hlast
  | case6 found token tail hlast htext =>
      rw [labelsFrom] at h
      · simp [htext] at h
      · exact hlast
  | case7 found tokens h1 h2 h3 =>
      rw [labelsFrom] at h
      · cases h
      all_goals assumption

/-- A list of labels in parentheses. -/
theorem labels_shape {meaning : Meaning (List Text)} (hspelled : Spelled p false tokens)
    (h : labels tokens = .ok (meaning, rest)) : Left p tokens rest ∧ LabelsRead meaning := by
  have hnone : LabelsRead (.ok []) := by
    intro ls hls
    cases hls
    simp
  unfold labels at h
  split at h
  · cases h
    exact ⟨(Left.refl hspelled.2.2).cons.cons, hnone⟩
  · obtain ⟨hleft, hread⟩ := labels_from_shape hnone hspelled.2 h
    exact ⟨hleft.cons, hread⟩
  · cases h

/-- A result of `Except.map` that is a success is the image of one. -/
theorem map_ok {ε α β : Type} {f : α → β} {x : Except ε α} {y : β} (h : x.map f = .ok y) :
    ∃ a, x = .ok a ∧ f a = y := by
  cases x with
  | error e => cases h
  | ok a =>
      cases h
      exact ⟨a, rfl, rfl⟩

/-- The labels of an aggregation. -/
theorem grouping_shape {meaning : Meaning Grouping} (hspelled : Spelled p false tokens)
    (h : grouping? tokens = some (.ok (meaning, rest))) :
    Left p tokens rest ∧ ∀ g, meaning = .ok g → ∀ l ∈ g.labels, IsLabel l := by
  unfold grouping? at h
  split at h
  · rw [Option.some.injEq] at h
    obtain ⟨⟨found, after⟩, hlabels, heq⟩ := map_ok h
    cases heq
    obtain ⟨hleft, hread⟩ := labels_shape hspelled.2 hlabels
    refine ⟨hleft.cons, fun g hg => ?_⟩
    obtain ⟨ls, rfl, rfl⟩ := map_ok hg
    exact hread ls rfl
  · rw [Option.some.injEq] at h
    obtain ⟨⟨found, after⟩, hlabels, heq⟩ := map_ok h
    cases heq
    obtain ⟨hleft, hread⟩ := labels_shape hspelled.2 hlabels
    refine ⟨hleft.cons, fun g hg => ?_⟩
    obtain ⟨ls, rfl, rfl⟩ := map_ok hg
    exact hread ls rfl
  · cases h

/-! ## Modifiers -/

/-- A modifier that is found is one that is read. -/
def ModifierRead (meaning : Meaning Modifier) : Prop :=
  ∀ m, meaning = .ok m →
    (∀ l ∈ m.labels, IsLabel l) ∧ (m.group.isSome = true → m.matching.isSome = true)

/-- A side with many series does not lead between braces. -/
theorem group_side_after {token : Token} {side : GroupSide} (h : groupSide? token = some side) :
    token.after false = false := by
  cases token with
  | sign s => cases h
  | _ => rfl

/-- The labels of a matching and what may follow them. -/
theorem matched_group_shape {bool : Bool} {k : Meaning Matching} {meaning : Meaning Modifier}
    (hk : ∀ m, k = .ok m → ∀ l ∈ m.labels, IsLabel l) (hspelled : Spelled p false tokens)
    (h : matchedGroup bool k tokens = .ok (meaning, rest)) :
    Left p tokens rest ∧ ModifierRead meaning := by
  have halone : ∀ group : Option GroupSide,
      ModifierRead (k.map fun m => ⟨bool, some m, group.map fun side => (side, [])⟩) := by
    intro group m hm
    obtain ⟨matching, hmatching, rfl⟩ := map_ok hm
    refine ⟨fun l hl => ?_, fun _ => rfl⟩
    rcases List.mem_append.1 hl with hl | hl
    · exact hk matching hmatching l (by simpa using hl)
    · cases group <;> simp at hl
  unfold matchedGroup at h
  split at h
  · cases h
    exact ⟨Left.refl trivial, halone none⟩
  · rename_i token tail
    split at h
    · cases h
      exact ⟨Left.refl hspelled, halone none⟩
    · rename_i side hside
      have htail : Spelled p false tail := by
        have h := hspelled.2
        rwa [group_side_after hside] at h
      split at h
      · obtain ⟨⟨found, after⟩, hlabels, heq⟩ := map_ok h
        cases heq
        obtain ⟨hleft, hread⟩ := labels_shape htail hlabels
        refine ⟨hleft.cons, fun m hm => ?_⟩
        cases k with
        | error e => cases hm
        | ok matching =>
            cases found with
            | error e => cases hm
            | ok ls =>
                cases hm
                refine ⟨fun l hl => ?_, fun _ => rfl⟩
                rcases List.mem_append.1 hl with hl | hl
                · exact hk matching rfl l (by simpa using hl)
                · exact hread ls rfl l (by simpa using hl)
      · cases h
        exact ⟨(Left.refl htail).cons, halone (some side)⟩

/-- The labels of a matching, if they follow. -/
theorem matching_shape {bool : Bool} {meaning : Meaning Modifier}
    (hspelled : Spelled p false tokens) (h : matching bool tokens = .ok (meaning, rest)) :
    Left p tokens rest ∧ ModifierRead meaning := by
  have hmap : ∀ {found : Meaning (List Text)} {f : List Text → Matching},
      LabelsRead found → (∀ ls, (f ls).labels = ls) →
        ∀ m, found.map f = .ok m → ∀ l ∈ m.labels, IsLabel l := by
    intro found f hfound hf m hm
    obtain ⟨ls, hls, rfl⟩ := map_ok hm
    rw [hf]
    exact hfound ls hls
  unfold matching at h
  split at h
  · split at h
    · rename_i hlabels
      obtain ⟨hleft, hread⟩ := labels_shape hspelled.2 hlabels
      obtain ⟨hleft', hread'⟩ :=
        matched_group_shape (hmap hread fun _ => rfl) hleft.spelled h
      exact ⟨(hleft.trans hleft').cons, hread'⟩
    · cases h
  · split at h
    · rename_i hlabels
      obtain ⟨hleft, hread⟩ := labels_shape hspelled.2 hlabels
      obtain ⟨hleft', hread'⟩ :=
        matched_group_shape (hmap hread fun _ => rfl) hleft.spelled h
      exact ⟨(hleft.trans hleft').cons, hread'⟩
    · cases h
  · cases h
    refine ⟨Left.refl hspelled, fun m hm => ?_⟩
    cases hm
    exact ⟨fun l hl => (nomatch hl), fun h => (nomatch h)⟩

/-- The modifier of an operator. -/
theorem modifier_shape {meaning : Meaning Modifier} (hspelled : Spelled p false tokens)
    (h : modifier tokens = .ok (meaning, rest)) : Left p tokens rest ∧ ModifierRead meaning := by
  unfold modifier at h
  split at h
  · obtain ⟨hleft, hread⟩ := matching_shape hspelled.2 h
    exact ⟨hleft.cons, hread⟩
  · obtain ⟨⟨found, after⟩, hlabels, heq⟩ := map_ok h
    cases heq
    exact ⟨(labels_shape hspelled.2 hlabels).1.cons, fun m hm => by cases hm⟩
  · obtain ⟨⟨found, after⟩, hlabels, heq⟩ := map_ok h
    cases heq
    exact ⟨(labels_shape hspelled.2 hlabels).1.cons, fun m hm => by cases hm⟩
  · exact matching_shape hspelled h

/-! ## Conditions -/

/-- What is left of tokens between braces. -/
structure LeftBraces (p : Text → Prop) (tokens rest : List Token) : Prop where
  spelled : Spelled p true rest
  length : rest.length ≤ tokens.length

/-- A token in front may be taken. -/
theorem LeftBraces.cons {token : Token} (h : LeftBraces p tokens rest) :
    LeftBraces p (token :: tokens) rest :=
  ⟨h.spelled, h.length.trans (Nat.le_succ _)⟩

/-- The sign of a comparison does not lead out of braces. -/
theorem match_op_after {token : Token} {op : MatchOp} (h : matchOp? token = some op) :
    token.after true = true := by
  cases token with
  | sign s => cases s <;> first | rfl | cases h
  | _ => rfl

/-- The value of a condition. -/
theorem matcher_value_shape {name : Text} {op : MatchOp} {meaning : Meaning Matcher}
    (hname : Token.IsName name) (hspelled : Spelled p true tokens)
    (h : matcherValue name op tokens = .ok (meaning, rest)) :
    LeftBraces p tokens rest ∧ ∀ m, meaning = .ok m → m.Read p := by
  unfold matcherValue at h
  split at h
  · rename_i raw tail
    cases h
    refine ⟨LeftBraces.cons ⟨hspelled.2, le_rfl⟩, fun m hm => ?_⟩
    have hbuilt : m = ⟨name, op, raw⟩ := by
      unfold Matcher.build at hm
      cases hrule : require (!op.isPattern || (Pattern.ofValue? raw).isSome)
        (.illegalPattern raw) with
      | error e =>
          rw [hrule] at hm
          cases hm
      | ok _ =>
          rw [hrule] at hm
          cases hm
          rfl
    subst hbuilt
    exact ⟨hname, hspelled.1, hm⟩
  · cases h
    exact ⟨LeftBraces.cons ⟨hspelled.2, le_rfl⟩, fun m hm => nomatch hm⟩
  · split at h
    · cases h
    · rename_i second hsecond
      have htail := hspelled.2
      rw [match_op_after hsecond] at htail
      split at h
      · cases h
        exact ⟨LeftBraces.cons (LeftBraces.cons ⟨htail.2, le_rfl⟩), fun m hm => nomatch hm⟩
      · cases h
        exact ⟨LeftBraces.cons (LeftBraces.cons ⟨htail.2, le_rfl⟩), fun m hm => nomatch hm⟩
      · cases h
        exact ⟨LeftBraces.cons ⟨htail, le_rfl⟩, fun m hm => nomatch hm⟩
  · cases h

/-- A condition. -/
theorem matcher_shape {meaning : Meaning Matcher} (hspelled : Spelled p true tokens)
    (h : matcher tokens = .ok (meaning, rest)) :
    LeftBraces p tokens rest ∧ ∀ m, meaning = .ok m → m.Read p := by
  unfold matcher at h
  split at h
  · split at h
    · rename_i hop
      obtain ⟨hname, htail⟩ := hspelled
      have hafter := htail.2
      rw [show Token.after true _ = true from rfl, match_op_after hop] at hafter
      obtain ⟨hleft, hread⟩ := matcher_value_shape hname hafter h
      exact ⟨hleft.cons.cons, hread⟩
    · cases h
      exact ⟨LeftBraces.cons ⟨hspelled.2, le_rfl⟩, fun m hm => nomatch hm⟩
  · cases h

/-- Conditions that are found, as long as more may follow. -/
def FoundRead (p : Text → Prop) : Selection → Prop
  | .all ms => ms ≠ [] ∧ ∀ m ∈ ms, m.Read p
  | .any groups => (Selection.any groups).Read p

/-- A further condition may be added. -/
theorem found_add_matcher {found : Selection} {m : Matcher} (hfound : FoundRead p found)
    (hm : m.Read p) : FoundRead p (found.addMatcher m) := by
  cases found with
  | all ms =>
      refine ⟨by simp, fun k hk => ?_⟩
      rcases List.mem_append.1 hk with hk | hk
      · exact hfound.2 k hk
      · obtain rfl : k = m := List.mem_singleton.1 hk
        exact hm
  | any groups =>
      obtain ⟨hcount, hgroups⟩ := hfound
      rcases List.eq_nil_or_concat groups with rfl | ⟨front, last, rfl⟩
      · exact absurd hcount (by decide)
      · rw [List.concat_eq_append] at hcount hgroups ⊢
        have hadd : (Selection.any (front ++ [last])).addMatcher m =
            .any (front ++ [last ++ [m]]) := by
          simp [Selection.addMatcher]
        rw [hadd]
        refine ⟨by simpa using hcount, fun group hgroup => ?_⟩
        rcases List.mem_append.1 hgroup with hgroup | hgroup
        · exact hgroups group (List.mem_append_left _ hgroup)
        · obtain rfl : group = last ++ [m] := List.mem_singleton.1 hgroup
          refine ⟨by simp, fun k hk => ?_⟩
          rcases List.mem_append.1 hk with hk | hk
          · exact (hgroups last (by simp)).2 k hk
          · obtain rfl : k = m := List.mem_singleton.1 hk
            exact hm

/-- A condition that begins an alternative may be added. -/
theorem found_add_alternative {found : Selection} {m : Matcher} (hfound : FoundRead p found)
    (hm : m.Read p) : FoundRead p (found.addAlternative m) := by
  have hone : [m] ≠ [] ∧ ∀ k ∈ [m], k.Read p := by
    refine ⟨List.cons_ne_nil _ _, fun k hk => ?_⟩
    obtain rfl : k = m := List.mem_singleton.1 hk
    exact hm
  cases found with
  | all ms =>
      refine ⟨le_rfl, fun group hgroup => ?_⟩
      rcases List.mem_cons.1 hgroup with rfl | hgroup
      · exact hfound
      · obtain rfl : group = [m] := List.mem_singleton.1 hgroup
        exact hone
  | any groups =>
      obtain ⟨hcount, hgroups⟩ := hfound
      refine ⟨hcount.trans (by simp), fun group hgroup => ?_⟩
      rcases List.mem_append.1 hgroup with hgroup | hgroup
      · exact hgroups group hgroup
      · obtain rfl : group = [m] := List.mem_singleton.1 hgroup
        exact hone

/-- Conditions that are found are ones that are read. -/
theorem found_read {found : Selection} (h : FoundRead p found) : found.Read p := by
  cases found with
  | all ms => exact h.2
  | any groups => exact h

/-- The rest of the conditions up to the closing brace. -/
theorem matchers_from_shape {fuel : Nat} {found meaning : Meaning Selection}
    (hfound : ∀ s, found = .ok s → FoundRead p s) (hspelled : Spelled p true tokens)
    (h : matchersFrom fuel found tokens = .ok (meaning, rest)) :
    Left p tokens rest ∧ ∀ s, meaning = .ok s → s.Read p := by
  have hgrown : ∀ {found : Meaning Selection} {m : Meaning Matcher}
      (grow : Selection → Matcher → Selection),
      (∀ {s k}, FoundRead p s → k.Read p → FoundRead p (grow s k)) →
        (∀ s, found = .ok s → FoundRead p s) → (∀ k, m = .ok k → k.Read p) →
          ∀ s, (do pure (grow (← found) (← m))) = Except.ok s → FoundRead p s := by
    intro found m grow hgrow hfound hm s hs
    cases found with
    | error e => cases hs
    | ok s' =>
        cases m with
        | error e => cases hs
        | ok k =>
            cases hs
            exact hgrow (hfound s' rfl) (hm k rfl)
  induction fuel generalizing found tokens with
  | zero => cases h
  | succ fuel ih =>
      simp only [matchersFrom] at h
      split at h
      · cases h
        exact ⟨(Left.refl hspelled.2).cons, fun s hs => found_read (hfound s hs)⟩
      · cases h
        exact ⟨(Left.refl hspelled.2.2).cons.cons, fun s hs => found_read (hfound s hs)⟩
      · split at h
        · rename_i hmatcher
          obtain ⟨hleft, hm⟩ := matcher_shape hspelled.2 hmatcher
          obtain ⟨hleft', hread⟩ := ih
            (hgrown (fun s k => s.addMatcher k) found_add_matcher hfound hm) hleft.spelled h
          exact ⟨⟨hleft'.spelled, hleft'.length.trans hleft.cons.length⟩, hread⟩
        · cases h
      · split at h
        · rename_i hmatcher
          obtain ⟨hleft, hm⟩ := matcher_shape hspelled.2 hmatcher
          obtain ⟨hleft', hread⟩ := ih
            (hgrown (fun s k => s.addAlternative k) found_add_alternative hfound hm) hleft.spelled h
          exact ⟨⟨hleft'.spelled, hleft'.length.trans hleft.cons.length⟩, hread⟩
        · cases h
      · cases h

/-- The conditions after an opening brace. -/
theorem matchers_shape {meaning : Meaning Selection} (hspelled : Spelled p true tokens)
    (h : matchers tokens = .ok (meaning, rest)) :
    Left p tokens rest ∧ ∀ s, meaning = .ok s → s.Read p := by
  unfold matchers at h
  split at h
  · cases h
    refine ⟨(Left.refl hspelled.2).cons, fun s hs => ?_⟩
    cases hs
    exact fun m hm => nomatch hm
  · cases h
    exact ⟨(Left.refl hspelled.2.2).cons.cons, fun s hs => nomatch hs⟩
  · split at h
    · rename_i hmatcher
      obtain ⟨hleft, hm⟩ := matcher_shape hspelled hmatcher
      obtain ⟨hleft', hread⟩ := matchers_from_shape (fun s hs => by
        obtain ⟨m, hm', rfl⟩ := map_ok hs
        refine ⟨List.cons_ne_nil _ _, fun k hk => ?_⟩
        obtain rfl : k = m := List.mem_singleton.1 hk
        exact hm k hm') hleft.spelled h
      exact ⟨⟨hleft'.spelled, hleft'.length.trans hleft.length⟩, hread⟩
    · cases h

/-! ## Queries that are read -/

/-- The query is one that is read at the level, from tokens of a text. -/
structure Good (p : Text → Prop) (level : Nat) (e : Expr) : Prop where
  reads : e.Reads level
  parts : ∀ part ∈ e.parts, part.Read p

/-- What is read where operators bind tightly is also read where they may bind loosely. -/
theorem Good.mono {level level' : Nat} {e : Expr} (h : Good p level e) (hle : level' ≤ level) :
    Good p level' e :=
  ⟨h.reads.mono hle, h.parts⟩

/-- A computation that goes on with the result of another one succeeds if both do. -/
theorem bind_ok {ε α β : Type} {x : Except ε α} {f : α → Except ε β} {y : β}
    (h : (x >>= f) = .ok y) : ∃ a, x = .ok a ∧ f a = .ok y := by
  cases x with
  | error e => cases h
  | ok a => exact ⟨a, rfl, h⟩

/-- A query that passes the check obeys the rules of its outermost node. -/
theorem checked_ok {e e' : Expr} (h : Expr.checked e = .ok e') :
    e' = e ∧ Expr.check e = .ok () := by
  obtain ⟨_, hcheck, hpure⟩ := bind_ok h
  cases hpure
  exact ⟨rfl, hcheck⟩

/-- A selector after its name, if it has one. -/
theorem selector_shape {name : Option Text} {meaning : Meaning Expr}
    (hname : ∀ n ∈ name, IsMetricName n) (hspelled : Spelled p false tokens)
    (h : selector name tokens = .ok (meaning, rest)) :
    Left p tokens rest ∧ ∀ e, meaning = .ok e → Good p Expr.operandLevel e := by
  have hgood : ∀ {selection : Selection} {e : Expr}, selection.Read p →
      Expr.checked (.vector ⟨name, selection, {}⟩) = .ok e → Good p Expr.operandLevel e := by
    intro selection e hselection hchecked
    obtain ⟨rfl, hcheck⟩ := checked_ok hchecked
    refine ⟨.vector hcheck, fun part hpart => ?_⟩
    obtain rfl : part = .selector name selection := List.mem_singleton.1 hpart
    exact ⟨hname, hselection⟩
  unfold selector at h
  split at h
  · obtain ⟨⟨selection, after⟩, hmatchers, heq⟩ := map_ok h
    cases heq
    obtain ⟨hleft, hread⟩ := matchers_shape hspelled.2 hmatchers
    refine ⟨hleft.cons, fun e he => ?_⟩
    cases selection with
    | error error => cases he
    | ok selection => exact hgood (hread selection rfl) he
  · cases h
    have hnone : (Selection.all []).Read p := fun m hm => nomatch hm
    exact ⟨Left.refl hspelled, fun e he => hgood hnone he⟩

/-! ## What follows an operand -/

/-- A duration. -/
theorem duration_shape {d : Meaning Duration} (hspelled : Spelled p false tokens)
    (h : duration tokens = .ok (d, rest)) : Left p tokens rest := by
  unfold duration at h
  split at h
  · cases h
    exact (Left.refl hspelled.2).cons
  · split at h
    · cases h
      exact (Left.refl hspelled.2).cons
    · split at h
      · cases h
        exact (Left.refl hspelled.2).cons
      · split at h <;> cases h
  · cases h

/-- A plus or minus sign. -/
theorem plus_or_minus_shape (hspelled : Spelled p false tokens) :
    Left p tokens (plusOrMinus tokens).2 := by
  unfold plusOrMinus
  split
  · exact (Left.refl hspelled.2).cons
  · exact (Left.refl hspelled.2).cons
  · exact Left.refl hspelled

/-- An evaluation time. -/
theorem instant_shape {meaning : Meaning Instant} (hspelled : Spelled p false tokens)
    (h : instant tokens = .ok (meaning, rest)) :
    Left p tokens rest ∧ ∀ i, meaning = .ok i → i.InRange := by
  unfold instant at h
  split at h
  · cases h
    refine ⟨(Left.refl hspelled.2.2.2).cons.cons.cons, fun i hi => ?_⟩
    cases hi
    trivial
  · cases h
    refine ⟨(Left.refl hspelled.2.2.2).cons.cons.cons, fun i hi => ?_⟩
    cases hi
    trivial
  · have hsign := plus_or_minus_shape hspelled
    split at h
    · rename_i minus token tail heq
      rw [heq] at hsign
      split at h
      · cases h
      · rename_i value hvalue
        have hafter : token.after false = false := by
          cases token with
          | sign s => cases hvalue
          | _ => rfl
        have htail := hsign.spelled.2
        rw [hafter] at htail
        cases h
        refine ⟨hsign.trans (Left.refl htail).cons, fun i hi => ?_⟩
        cases value with
        | error e => cases hi
        | ok v => exact Instant.in_range_of_seconds hi
    · cases h

/-- The parts of a timing are ones that are read as soon as its evaluation time is. -/
theorem timing_parts_read (t : Timing) (h : ∀ i ∈ t.instant, i.InRange) :
    ∀ part ∈ t.parts, part.Read p := by
  intro part hpart
  rcases List.mem_append.1 hpart with hpart | hpart
  · obtain ⟨i, hi, rfl⟩ := List.mem_map.1 hpart
    exact h i (by simpa using hi)
  · obtain ⟨o, -, rfl⟩ := List.mem_map.1 hpart
    trivial

/-- The evaluation time of a timing with parts that are read is in range. -/
theorem in_range_of_parts {t : Timing} (h : ∀ part ∈ t.parts, part.Read p) :
    ∀ i ∈ t.instant, i.InRange := by
  intro i hi
  refine h (.instant i) (List.mem_append_left _ (List.mem_map_of_mem ?_))
  simpa using hi

/-- The parts of a selector with another timing. -/
theorem selector_parts_read {s : Selector} (t : Timing) (ht : ∀ i ∈ t.instant, i.InRange)
    (h : ∀ part ∈ s.parts, part.Read p) :
    ∀ part ∈ Selector.parts { s with timing := t }, part.Read p := by
  intro part hpart
  rcases List.mem_cons.1 hpart with rfl | hpart
  · exact h _ List.mem_cons_self
  · exact timing_parts_read t ht part hpart

/-- A selector with a range. -/
theorem Good.with_range {range : Duration} {e e' : Expr} (h : Good p Expr.operandLevel e)
    (hrange : Expr.withRange range e = .ok e') : Good p Expr.operandLevel e' := by
  cases e with
  | vector s =>
      obtain ⟨hreads, hparts⟩ := h
      obtain ⟨_, -, hinstant⟩ := bind_ok hrange
      obtain ⟨_, -, hresult⟩ := bind_ok hinstant
      cases hresult
      cases hreads with
      | vector hcheck => exact ⟨.matrix hcheck, List.forall_mem_cons.2 ⟨trivial, hparts⟩⟩
  | _ => cases hrange

/-- A subquery. -/
theorem Good.with_subquery {range : Duration} {step : Option Duration} {e e' : Expr}
    (h : Good p Expr.operandLevel e) (hsub : Expr.withSubquery range step e = .ok e') :
    Good p Expr.operandLevel e' := by
  obtain ⟨rfl, hcheck⟩ := checked_ok hsub
  exact ⟨.subquery h.reads hcheck, Expr.forall_parts_subquery.2 ⟨h.parts, trivial,
    fun _ _ => trivial, timing_parts_read {} fun i hi => by cases hi⟩⟩

/-- An offset changes nothing about the evaluation time. -/
theorem set_offset_in_range {offset : Offset} (t t' : Timing) (ht : ∀ i ∈ t.instant, i.InRange)
    (h : t.setOffset offset = .ok t') : ∀ i ∈ t'.instant, i.InRange := by
  unfold Timing.setOffset at h
  split at h
  · cases h
  · cases h
    exact ht

/-- An evaluation time that is set is the one there is. -/
theorem set_instant_in_range {instant : Instant} (hinstant : instant.InRange) (t t' : Timing)
    (_ : ∀ i ∈ t.instant, i.InRange) (h : t.setInstant instant = .ok t') :
    ∀ i ∈ t'.instant, i.InRange := by
  unfold Timing.setInstant at h
  split at h
  · cases h
  · cases h
    intro i hi
    cases hi
    exact hinstant

/-- A query that is evaluated at another time, by a change that keeps evaluation times in range. -/
theorem Good.retime {change : Timing → Except QueryError Timing} {misplaced : QueryError}
    {e e' : Expr} (h : Good p Expr.operandLevel e)
    (hrange : ∀ t t', (∀ i ∈ t.instant, i.InRange) → change t = .ok t' →
      ∀ i ∈ t'.instant, i.InRange)
    (hretime : Expr.retime change misplaced e = .ok e') : Good p Expr.operandLevel e' := by
  obtain ⟨hreads, hparts⟩ := h
  cases e with
  | vector s =>
      obtain ⟨t, hchange, hchecked⟩ := bind_ok hretime
      obtain ⟨rfl, hcheck⟩ := checked_ok hchecked
      have hold := in_range_of_parts (List.forall_mem_cons.1 hparts).2
      exact ⟨.vector hcheck, selector_parts_read t (hrange s.timing t hold hchange) hparts⟩
  | matrix s range =>
      obtain ⟨t, hchange, hchecked⟩ := bind_ok hretime
      obtain ⟨rfl, -⟩ := checked_ok hchecked
      obtain ⟨-, hselector⟩ := List.forall_mem_cons.1 hparts
      have hold := in_range_of_parts (List.forall_mem_cons.1 hselector).2
      cases hreads with
      | matrix hcheck =>
          exact ⟨.matrix hcheck, List.forall_mem_cons.2 ⟨trivial,
            selector_parts_read t (hrange s.timing t hold hchange) hselector⟩⟩
  | subquery inner range step timing =>
      obtain ⟨t, hchange, hchecked⟩ := bind_ok hretime
      obtain ⟨rfl, hcheck⟩ := checked_ok hchecked
      obtain ⟨hpartsinner, -, -, htiming⟩ := Expr.forall_parts_subquery.1 hparts
      have hold := in_range_of_parts htiming
      cases hreads with
      | subquery hinner _ =>
          exact ⟨.subquery hinner hcheck, Expr.forall_parts_subquery.2 ⟨hpartsinner, trivial,
            fun _ _ => trivial, timing_parts_read t (hrange timing t hold hchange)⟩⟩
  | _ => cases hretime

/-- What a meaning has if it is a query. -/
def GoodMeaning (p : Text → Prop) (level : Nat) (meaning : Meaning Expr) : Prop :=
  ∀ e, meaning = .ok e → Good p level e

/-- A meaning that is made of a query and another part of the text. -/
theorem GoodMeaning.bind {α : Type} {e : Meaning Expr} {part : Meaning α}
    {f : α → Expr → Meaning Expr} (he : GoodMeaning p Expr.operandLevel e)
    (hf : ∀ a e e', part = .ok a → Good p Expr.operandLevel e → f a e = .ok e' →
      Good p Expr.operandLevel e') :
    GoodMeaning p Expr.operandLevel (do let e ← e; f (← part) e) := by
  intro e' he'
  cases e with
  | error error => cases he'
  | ok e =>
      cases part with
      | error error => cases he'
      | ok a => exact hf a e e' rfl (he e rfl) he'

/-- A subquery with a step. -/
theorem GoodMeaning.with_step {e : Meaning Expr} {range step : Meaning Duration}
    (he : GoodMeaning p Expr.operandLevel e) :
    GoodMeaning p Expr.operandLevel
      (do let e ← e; let range ← range; Expr.withSubquery range (some (← step)) e) := by
  intro e' he'
  cases e with
  | error error => cases he'
  | ok e =>
      cases range with
      | error error => cases he'
      | ok range =>
          cases step with
          | error error => cases he'
          | ok step => exact (he e rfl).with_subquery he'

/-- A range or a subquery after its opening bracket. -/
theorem bracketed_shape {e meaning : Meaning Expr} (he : GoodMeaning p Expr.operandLevel e)
    (hspelled : Spelled p false tokens) (h : bracketed e tokens = .ok (meaning, rest)) :
    Left p tokens rest ∧ GoodMeaning p Expr.operandLevel meaning := by
  unfold bracketed at h
  split at h
  · cases h
    exact ⟨(Left.refl hspelled.2).cons, fun e he => nomatch he⟩
  · split at h
    · cases h
    · rename_i hrange
      cases h
      have hleft := duration_shape hspelled hrange
      exact ⟨hleft.trans (Left.refl hleft.spelled.2).cons,
        he.bind fun _ _ _ _ hgood => hgood.with_range⟩
    · rename_i hrange
      cases h
      have hleft := duration_shape hspelled hrange
      exact ⟨hleft.trans (Left.refl hleft.spelled.2.2).cons.cons,
        he.bind fun _ _ _ _ hgood => hgood.with_subquery⟩
    · rename_i hrange
      have hleft := duration_shape hspelled hrange
      split at h
      · rename_i hstep
        cases h
        have hleft' := duration_shape hleft.spelled.2 hstep
        exact ⟨hleft.trans (hleft'.trans (Left.refl hleft'.spelled.2).cons).cons, he.with_step⟩
      · cases h
      · cases h
    · cases h

/-- What may follow an operand. -/
theorem postfixes_shape {fuel : Nat} {e meaning : Meaning Expr}
    (he : GoodMeaning p Expr.operandLevel e) (hspelled : Spelled p false tokens)
    (h : postfixes fuel e tokens = .ok (meaning, rest)) :
    Left p tokens rest ∧ GoodMeaning p Expr.operandLevel meaning := by
  induction fuel generalizing e tokens with
  | zero =>
      cases h
      exact ⟨Left.refl hspelled, he⟩
  | succ fuel ih =>
      unfold postfixes at h
      split at h
      · cases h
        exact ⟨Left.nil _, fun e he => nomatch he⟩
      · have hsign := plus_or_minus_shape hspelled.2
        dsimp only at h
        split at h
        · rename_i hduration
          have hleft := duration_shape hsign.spelled hduration
          obtain ⟨hleft', hgood⟩ := ih
            (he.bind fun _ _ _ _ hgood => hgood.retime set_offset_in_range) hleft.spelled h
          exact ⟨(hsign.trans (hleft.trans hleft')).cons, hgood⟩
        · cases h
      · cases h
        exact ⟨Left.nil _, fun e he => nomatch he⟩
      · split at h
        · rename_i hinstant
          obtain ⟨hleft, hrange⟩ := instant_shape hspelled.2 hinstant
          obtain ⟨hleft', hgood⟩ := ih
            (he.bind fun i _ _ hi hgood => hgood.retime (set_instant_in_range (hrange i hi)))
            hleft.spelled h
          exact ⟨(hleft.trans hleft').cons, hgood⟩
        · cases h
      · split at h
        · rename_i hbracketed
          obtain ⟨hleft, hgood⟩ := bracketed_shape he hspelled.2 hbracketed
          obtain ⟨hleft', hgood'⟩ := ih hgood hleft.spelled h
          exact ⟨(hleft.trans hleft').cons, hgood'⟩
        · cases h
      · cases h
        exact ⟨Left.refl hspelled, he⟩

end QueryTidy.Query
