import QueryTidy.Proofs.Query.Tokens

/-!
# Reading clauses back

The tokens of the clauses of a query are read as what they were written for: lists of labels,
modifiers, groupings, conditions, brackets and timings. What may follow a clause is restricted only
where the reader looks one token ahead.
-/

namespace QueryTidy.Query

open QueryTidy (labelTokens)

variable {rest : List Token}

/-! ## Labels -/

/-- A name has no colon. -/
theorem label_of_name {l : Text} (h : Token.IsName l) : label l = .ok l := by
  unfold label
  rw [if_neg]
  intro hcolon
  exact absurd (h.all ':' hcolon) (by decide)

/-- A label is added to those found before. -/
theorem add_label (found : List Text) {l : Text} (h : Token.IsName l) :
    addLabel (.ok found) l = .ok (found ++ [l]) := by
  simp only [addLabel, label_of_name h]
  rfl

/-- A token that stands for a label is no sign. -/
theorem label_not_sign {token : Token} {l : Text} (h : labelText? token = some l) (s : Sign) :
    token ≠ .sign s := by
  rintro rfl
  cases h

/-- The rest of a list of labels is read. -/
theorem labels_from_tokens {l : Text} {ls : List Text} (h : ∀ k ∈ l :: ls, IsLabel k)
    (found : List Text) (rest : List Token) :
    labelsFrom (.ok found)
      (Token.commas ((l :: ls).map fun k => [Token.ofWord k]) ++ .sign .rightParen :: rest) =
        .ok (.ok (found ++ l :: ls), rest) := by
  induction ls generalizing l found with
  | nil =>
      obtain ⟨hname, htext⟩ := h l List.mem_cons_self
      have htokens : Token.commas ([l].map fun k => [Token.ofWord k]) ++ .sign .rightParen :: rest =
          Token.ofWord l :: .sign .rightParen :: rest := rfl
      rw [htokens, labelsFrom]
      simp only [htext, add_label found hname]
  | cons k ls ih =>
      obtain ⟨hname, htext⟩ := h l List.mem_cons_self
      have hmore := ih (fun m hm => h m (List.mem_cons_of_mem _ hm)) (found ++ [l])
      have hnext : Token.ofWord k ≠ .sign .rightParen :=
        label_not_sign (h k (by simp)).2 _
      have htokens : Token.commas ((l :: k :: ls).map fun k => [Token.ofWord k]) ++
          .sign .rightParen :: rest = Token.ofWord l :: .sign .comma ::
            (Token.commas ((k :: ls).map fun k => [Token.ofWord k]) ++
              .sign .rightParen :: rest) := rfl
      rw [htokens, labelsFrom]
      · simp only [htext, add_label found hname, hmore]
        simp
      · intro after hafter
        have hhead : (Token.commas ((k :: ls).map fun k => [Token.ofWord k]) ++
            .sign .rightParen :: rest).head? = some (Token.ofWord k) := by
          cases ls <;> rfl
        rw [hafter] at hhead
        exact hnext (Option.some.inj hhead).symm

/-- A list of labels in parentheses is read. -/
theorem labels_tokens {ls : List Text} (h : ∀ l ∈ ls, IsLabel l) :
    labels (labelTokens ls ++ rest) = .ok (.ok ls, rest) := by
  cases ls with
  | nil => rfl
  | cons l ls =>
      have htokens : labelTokens (l :: ls) ++ rest = .sign .leftParen ::
          (Token.commas ((l :: ls).map fun k => [Token.ofWord k]) ++
            .sign .rightParen :: rest) := by
        simp [labelTokens]
      have hfrom := labels_from_tokens h [] rest
      rw [htokens, labels, hfrom]
      · rfl
      · intro after hafter
        have hhead : (Token.commas ((l :: ls).map fun k => [Token.ofWord k]) ++
            .sign .rightParen :: rest).head? = some (Token.ofWord l) := by
          cases ls <;> rfl
        rw [hafter] at hhead
        exact label_not_sign (h l List.mem_cons_self).2 _ (Option.some.inj hhead).symm

/-- The labels of an aggregation are read. -/
theorem grouping_tokens {g : Grouping} (h : ∀ l ∈ g.labels, IsLabel l) (rest : List Token) :
    grouping? (g.tokens ++ rest) = some (.ok (.ok g, rest)) := by
  cases g with
  | keeping ls =>
      have htokens : (Grouping.keeping ls).tokens ++ rest =
          .reserved .grouping Reserved.grouping.word :: (labelTokens ls ++ rest) := rfl
      have hread : labels (labelTokens ls ++ rest) = .ok (.ok ls, rest) := labels_tokens h
      rw [htokens, grouping?, hread]
      rfl
  | dropping ls =>
      have htokens : (Grouping.dropping ls).tokens ++ rest =
          .reserved .dropping Reserved.dropping.word :: (labelTokens ls ++ rest) := rfl
      have hread : labels (labelTokens ls ++ rest) = .ok (.ok ls, rest) := labels_tokens h
      rw [htokens, grouping?, hread]
      rfl

/-! ## Modifiers -/

/-- The token is a word that can only stand in the modifier of an operator. -/
def isModifierWord : Token → Bool
  | .reserved .bool _ => true
  | .reserved .on _ => true
  | .reserved .ignoring _ => true
  | .reserved .groupLeft _ => true
  | .reserved .groupRight _ => true
  | _ => false

/-- The tokens do not begin with a word of a modifier. -/
def NoModifier (tokens : List Token) : Prop :=
  tokens.head?.all (fun token => !isModifierWord token) = true

/-- The side with many series and its labels are read, if they are there. -/
theorem matched_group_tokens (bool : Bool) (k : Matching) {group : Option (GroupSide × List Text)}
    (hlabels : ∀ l ∈ group.toList.flatMap Prod.snd, IsLabel l) (hrest : NoModifier rest) :
    matchedGroup bool (.ok k)
      (group.toList.flatMap (fun g => g.1.reserved.labelTokens g.2) ++ rest) =
        .ok (.ok ⟨bool, some k, group⟩, rest) := by
  cases group with
  | none =>
      cases rest with
      | nil => rfl
      | cons token rest =>
          have hnone : groupSide? token = none := by
            unfold groupSide?
            split
            · cases hrest
            · cases hrest
            · rfl
          simp only [Option.toList_none, List.flatMap_nil, List.nil_append, matchedGroup, hnone]
          rfl
  | some g =>
      obtain ⟨side, ls⟩ := g
      have hread : labels (labelTokens ls ++ rest) = .ok (.ok ls, rest) :=
        labels_tokens fun l hl => hlabels l (by simpa using hl)
      have hside : groupSide? (.reserved side.reserved side.reserved.word) = some side := by
        cases side <;> rfl
      have htokens : (some (side, ls)).toList.flatMap (fun g => g.1.reserved.labelTokens g.2) ++
          rest = .reserved side.reserved side.reserved.word :: .sign .leftParen ::
            (Token.commas (ls.map fun l => [Token.ofWord l]) ++ .sign .rightParen :: rest) := by
        simp [Reserved.labelTokens, labelTokens]
      have hparen : labelTokens ls ++ rest = .sign .leftParen ::
          (Token.commas (ls.map fun l => [Token.ofWord l]) ++ .sign .rightParen :: rest) := by
        simp [labelTokens]
      rw [hparen] at hread
      rw [htokens, matchedGroup]
      simp only [hside, hread]
      rfl

/-- The labels of a matching are read, and then the side with many series. -/
theorem matching_labels (bool : Bool) {k : Matching} (hlabels : ∀ l ∈ k.labels, IsLabel l)
    (rest : List Token) :
    matching bool (k.reserved.labelTokens k.labels ++ rest) = matchedGroup bool (.ok k) rest := by
  have hread : labels (labelTokens k.labels ++ rest) = .ok (.ok k.labels, rest) :=
    labels_tokens hlabels
  cases k with
  | on ls =>
      simp only [Matching.labels] at hread
      simp only [Matching.reserved, Matching.labels, Reserved.labelTokens, List.cons_append,
        matching, hread]
      rfl
  | ignoring ls =>
      simp only [Matching.labels] at hread
      simp only [Matching.reserved, Matching.labels, Reserved.labelTokens, List.cons_append,
        matching, hread]
      rfl

/-- Without a word of a modifier there is no matching. -/
theorem matching_none (bool : Bool) (hrest : NoModifier rest) :
    matching bool rest = .ok (.ok ⟨bool, none, none⟩, rest) := by
  unfold matching
  split
  · cases hrest
  · cases hrest
  · rfl

/-- The labels of a matching and what follows them are read. -/
theorem matching_tokens (m : Modifier) (hlabels : ∀ l ∈ m.labels, IsLabel l)
    (hgroup : m.group.isSome = true → m.matching.isSome = true) (hrest : NoModifier rest) :
    matching m.bool
      (m.matching.toList.flatMap (fun k => k.reserved.labelTokens k.labels) ++
        (m.group.toList.flatMap (fun g => g.1.reserved.labelTokens g.2) ++ rest)) =
          .ok (.ok m, rest) := by
  obtain ⟨bool, k, group⟩ := m
  cases k with
  | none =>
      have hnone : group = none := by
        cases group with
        | none => rfl
        | some g => cases hgroup rfl
      subst hnone
      exact matching_none bool hrest
  | some k =>
      rw [Option.toList_some, List.flatMap_cons, List.flatMap_nil, List.append_nil,
        matching_labels bool fun l hl => hlabels l (by simp [Modifier.labels, hl])]
      exact matched_group_tokens bool k (fun l hl => hlabels l (List.mem_append_right _ hl)) hrest

/-- Without a word of a modifier there is none. -/
theorem modifier_none (hrest : NoModifier rest) : modifier rest = .ok (.ok {}, rest) := by
  have hnext : modifier rest = matching false rest := by
    unfold modifier
    split
    · cases hrest
    · cases hrest
    · cases hrest
    · rfl
  exact hnext.trans (matching_none false hrest)

/-- A modifier is read. -/
theorem modifier_tokens {m : Modifier} (hlabels : ∀ l ∈ m.labels, IsLabel l)
    (hgroup : m.group.isSome = true → m.matching.isSome = true) (hrest : NoModifier rest) :
    modifier (m.tokens ++ rest) = .ok (.ok m, rest) := by
  have hmatching := matching_tokens m hlabels hgroup hrest
  rw [Modifier.tokens, List.append_assoc, List.append_assoc]
  obtain ⟨bool, k, group⟩ := m
  cases bool with
  | true => exact hmatching
  | false =>
      cases k with
      | some k => cases k <;> exact hmatching
      | none =>
          have hnone : group = none := by
            cases group with
            | none => rfl
            | some g => cases hgroup rfl
          subst hnone
          exact modifier_none hrest

end QueryTidy.Query

/-! ## Conditions -/

namespace QueryTidy.Selection

/-- A selection with further conditions in the newest list. -/
def addMatchers (found : Selection) (ms : List Matcher) : Selection :=
  ms.foldl (fun s m => s.addMatcher m) found

/-- A selection with a further alternative. -/
def addGroup (found : Selection) : List Matcher → Selection
  | [] => found
  | m :: ms => (found.addAlternative m).addMatchers ms

/-- Conditions of which all hold are the first one with the others added. -/
theorem all_add_matchers (front ms : List Matcher) :
    (Selection.all front).addMatchers ms = .all (front ++ ms) := by
  induction ms generalizing front with
  | nil => simp [addMatchers]
  | cons m ms ih =>
      have h := ih (front ++ [m])
      rw [List.append_assoc] at h
      exact h

/-- Conditions are added to the last alternative. -/
theorem any_add_matchers (groups : List (List Matcher)) (last ms : List Matcher) :
    (Selection.any (groups ++ [last])).addMatchers ms = .any (groups ++ [last ++ ms]) := by
  induction ms generalizing last with
  | nil => simp [addMatchers]
  | cons m ms ih =>
      have h := ih (last ++ [m])
      rw [List.append_assoc] at h
      have hone : (Selection.any (groups ++ [last])).addMatcher m =
          .any (groups ++ [last ++ [m]]) := by
        simp [addMatcher]
      rw [addMatchers, List.foldl_cons, hone]
      exact h

/-- Alternatives are added one after the other. -/
theorem any_add_groups (groups more : List (List Matcher)) (h : ∀ group ∈ more, group ≠ []) :
    more.foldl addGroup (Selection.any groups) = .any (groups ++ more) := by
  induction more generalizing groups with
  | nil => simp
  | cons group more ih =>
      obtain ⟨m, ms, rfl⟩ := List.exists_cons_of_ne_nil (h group List.mem_cons_self)
      have hgroup : (Selection.any groups).addGroup (m :: ms) = .any (groups ++ [m :: ms]) :=
        any_add_matchers groups [m] ms
      rw [List.foldl_cons, hgroup, ih _ fun g hg => h g (List.mem_cons_of_mem _ hg),
        List.append_assoc]
      rfl

/-- A list of conditions with an alternative is a list of two. -/
theorem all_add_group (front : List Matcher) {group : List Matcher} (h : group ≠ []) :
    (Selection.all front).addGroup group = .any [front, group] := by
  obtain ⟨m, ms, rfl⟩ := List.exists_cons_of_ne_nil h
  exact any_add_matchers [front] [m] ms

end QueryTidy.Selection

namespace QueryTidy.Query

variable {rest : List Token} {p : Text → Prop}

/-- A condition is read. -/
theorem matcher_tokens {m : Matcher} (h : m.Read p) (rest : List Token) :
    matcher (m.tokens ++ rest) = .ok (.ok m, rest) := by
  obtain ⟨-, -, hbuild⟩ := h
  have hop : matchOp? m.op.token = some m.op := by
    cases m.op <;> rfl
  simp only [Matcher.tokens, List.cons_append, List.nil_append, matcher, hop, matcherValue, hbuild]

/-- The conditions that follow one are read and added to it. -/
theorem further_matchers {ms : List Matcher} (h : ∀ m ∈ ms, m.Read p) (fuel : Nat)
    (found : Selection) :
    matchersFrom (fuel + ms.length) (.ok found)
      ((ms.flatMap fun m => .sign .comma :: m.tokens) ++ rest) =
        matchersFrom fuel (.ok (found.addMatchers ms)) rest := by
  induction ms generalizing found with
  | nil => rfl
  | cons m ms ih =>
      have hm := matcher_tokens (h m List.mem_cons_self)
        ((ms.flatMap fun m => .sign .comma :: m.tokens) ++ rest)
      have hmore := ih (fun k hk => h k (List.mem_cons_of_mem _ hk)) (found.addMatcher m)
      have htokens : ((m :: ms).flatMap fun m => .sign .comma :: m.tokens) ++ rest =
          .sign .comma :: (m.tokens ++
            ((ms.flatMap fun m => .sign .comma :: m.tokens) ++ rest)) := by
        simp
      rw [List.length_cons, ← Nat.add_assoc, htokens, matchersFrom]
      · simp only [hm]
        exact hmore
      · intro after hafter
        cases hafter

/-- The alternatives that follow the first one are read and added to it. -/
theorem further_groups {groups : List (List Matcher)}
    (h : ∀ group ∈ groups, group ≠ [] ∧ ∀ m ∈ group, m.Read p) (fuel : Nat) (found : Selection) :
    matchersFrom (fuel + groups.flatten.length) (.ok found)
      (Selection.furtherTokens groups ++ rest) =
        matchersFrom fuel (.ok (groups.foldl Selection.addGroup found)) rest := by
  induction groups generalizing found with
  | nil => rfl
  | cons group groups ih =>
      obtain ⟨hne, hread⟩ := h group List.mem_cons_self
      obtain ⟨m, ms, rfl⟩ := List.exists_cons_of_ne_nil hne
      have hmore := ih (fun g hg => h g (List.mem_cons_of_mem _ hg)) (found.addGroup (m :: ms))
      have htokens : Selection.furtherTokens ((m :: ms) :: groups) ++ rest =
          .alternative :: (m.tokens ++ ((ms.flatMap fun m => .sign .comma :: m.tokens) ++
            (Selection.furtherTokens groups ++ rest))) := by
        simp [Selection.furtherTokens, Selection.groupTokens, Token.commas_cons,
          List.flatMap_map]
      have hm := matcher_tokens (hread m List.mem_cons_self)
        ((ms.flatMap fun m => .sign .comma :: m.tokens) ++ (Selection.furtherTokens groups ++ rest))
      have hfuel : fuel + ((m :: ms) :: groups).flatten.length =
          (fuel + groups.flatten.length + ms.length) + 1 := by
        simp
        omega
      rw [hfuel, htokens, matchersFrom]
      simp only [hm]
      exact (further_matchers (fun k hk => hread k (List.mem_cons_of_mem _ hk)) _ _).trans hmore

/-- Every condition has tokens. -/
theorem further_length (ms : List Matcher) :
    ms.length ≤ (ms.flatMap fun m => Token.sign .comma :: m.tokens).length := by
  induction ms with
  | nil => exact le_rfl
  | cons m ms ih =>
      rw [List.flatMap_cons, List.length_append, List.length_cons, List.length_cons]
      omega

/-- Every condition of an alternative has tokens. -/
theorem further_tokens_length {groups : List (List Matcher)}
    (h : ∀ group ∈ groups, group ≠ []) :
    groups.flatten.length ≤ (Selection.furtherTokens groups).length := by
  induction groups with
  | nil => exact le_rfl
  | cons group groups ih =>
      obtain ⟨m, ms, rfl⟩ := List.exists_cons_of_ne_nil (h group List.mem_cons_self)
      have hmore := ih fun g hg => h g (List.mem_cons_of_mem _ hg)
      have hms := further_length ms
      simp only [Selection.furtherTokens, Selection.groupTokens, List.map_cons, Token.commas_cons,
        List.flatMap_map, List.flatMap_cons, List.flatten_cons, List.length_append,
        List.length_cons] at hmore hms ⊢
      omega

/-- The conditions between braces are read, the first one first. -/
theorem matchers_cons {m : Matcher} (h : m.Read p) (tokens : List Token) :
    matchers (m.tokens ++ tokens) =
      matchersFrom (tokens.length + 1) (.ok (.all [m])) tokens := by
  have hmatcher := matcher_tokens h tokens
  simp only [Matcher.tokens, List.cons_append, List.nil_append] at hmatcher ⊢
  simp only [matchers, hmatcher]
  rfl

/-- The conditions between braces are read. -/
theorem matchers_tokens {selection : Selection} (h : selection.Read p) (rest : List Token) :
    matchers (selection.tokens ++ .sign .rightBrace :: rest) = .ok (.ok selection, rest) := by
  have hclose : ∀ (fuel : Nat) (found : Selection),
      matchersFrom (fuel + 1) (.ok found) (.sign .rightBrace :: rest) = .ok (.ok found, rest) :=
    fun _ _ => rfl
  have hgroup : ∀ (m : Matcher) (ms : List Matcher), Selection.groupTokens (m :: ms) =
      m.tokens ++ ms.flatMap fun m => .sign .comma :: m.tokens := by
    intro m ms
    rw [Selection.groupTokens, List.map_cons, Token.commas_cons, List.flatMap_map]
  have hfuel : ∀ {n k : Nat}, k < n → ∃ f, n = f + 1 + k :=
    fun {n k} h => ⟨n - k - 1, by omega⟩
  cases selection with
  | all ms =>
      cases ms with
      | nil => rfl
      | cons m ms =>
          have hlength := further_length ms
          rw [Selection.tokens, hgroup, List.append_assoc, matchers_cons (h m List.mem_cons_self)]
          obtain ⟨f, hf⟩ := hfuel (n := ((ms.flatMap fun m => Token.sign .comma :: m.tokens) ++
            .sign .rightBrace :: rest).length + 1) (k := ms.length)
            (by rw [List.length_append]; omega)
          rw [hf, further_matchers fun k hk => h k (List.mem_cons_of_mem _ hk),
            Selection.all_add_matchers]
          exact hclose _ _
  | any groups =>
      obtain ⟨hcount, hgroups⟩ := h
      cases groups with
      | nil => exact absurd hcount (by decide)
      | cons first groups =>
          obtain ⟨hne, hfirst⟩ := hgroups first List.mem_cons_self
          obtain ⟨m, ms, rfl⟩ := List.exists_cons_of_ne_nil hne
          have hmore := fun g hg => hgroups g (List.mem_cons_of_mem _ hg)
          have hlength := further_length ms
          have hlength' := further_tokens_length fun g hg => (hmore g hg).1
          rw [Selection.tokens, hgroup, List.append_assoc, List.append_assoc,
            matchers_cons (hfirst m List.mem_cons_self)]
          obtain ⟨f, hf⟩ := hfuel (n := ((ms.flatMap fun m => Token.sign .comma :: m.tokens) ++
            (Selection.furtherTokens groups ++ .sign .rightBrace :: rest)).length + 1)
            (k := groups.flatten.length + ms.length)
            (by rw [List.length_append, List.length_append]; omega)
          rw [hf, ← Nat.add_assoc,
            further_matchers fun k hk => hfirst k (List.mem_cons_of_mem _ hk),
            Selection.all_add_matchers, further_groups hmore]
          cases groups with
          | nil => exact absurd hcount (by simp)
          | cons second groups =>
              rw [List.foldl_cons, Selection.all_add_group _ (hmore second List.mem_cons_self).1,
                Selection.any_add_groups _ _ fun g hg =>
                  (hmore g (List.mem_cons_of_mem _ hg)).1]
              exact hclose _ _

/-! ## Selectors -/

/-- The token goes on with a name before it, as conditions, arguments or the labels of an
aggregation do. -/
def continuesName : Token → Bool
  | .sign .leftParen => true
  | .sign .leftBrace => true
  | .reserved .grouping _ => true
  | .reserved .dropping _ => true
  | _ => false

/-- The tokens do not go on with a name before them. -/
def Follows (tokens : List Token) : Prop :=
  tokens.head?.all (fun token => !continuesName token) = true

/-- A query that obeys the rules of its outermost node passes the tests. -/
theorem checked_of_check {e : Expr} (h : e.check = .ok ()) : Expr.checked e = .ok e := by
  rw [Expr.checked, h]
  rfl

/-- A selector is read after its name, and its rules are tested. -/
theorem selector_tokens_checked (name : Option Text) {selection : Selection}
    (h : selection.Read p) (hrest : Follows rest) :
    selector name ((if selection.isEmpty then []
      else .sign .leftBrace :: (selection.tokens ++ [.sign .rightBrace])) ++ rest) =
        .ok (Expr.checked (.vector ⟨name, selection, {}⟩), rest) := by
  split
  · rename_i hempty
    have hnone : selection = .all [] := by
      cases selection with
      | all ms =>
          obtain rfl : ms = [] := by simpa [Selection.isEmpty, Selection.matchers] using hempty
          rfl
      | any groups =>
          obtain ⟨hcount, hgroups⟩ := h
          cases groups with
          | nil => exact absurd hcount (by decide)
          | cons group groups =>
              have hne := (hgroups group List.mem_cons_self).1
              simp [Selection.isEmpty, Selection.matchers, hne] at hempty
    subst hnone
    rw [List.nil_append]
    unfold selector
    split
    · cases hrest
    · rfl
  · have hread := matchers_tokens h rest
    simp only [List.cons_append, List.append_assoc, List.nil_append, selector, hread]
    rfl

/-- A selector that obeys the rules is read after its name. -/
theorem selector_tokens (name : Option Text) {selection : Selection} (h : selection.Read p)
    (hcheck : Selector.check ⟨name, selection, {}⟩ = .ok ()) (hrest : Follows rest) :
    selector name ((if selection.isEmpty then []
      else .sign .leftBrace :: (selection.tokens ++ [.sign .rightBrace])) ++ rest) =
        .ok (.ok (.vector ⟨name, selection, {}⟩), rest) := by
  have hrules : Expr.check (.vector ⟨name, selection, {}⟩) = .ok () := hcheck
  rw [selector_tokens_checked name h hrest, checked_of_check hrules]

/-! ## What follows an operand -/

/-- The tokens after an operand make another one of it. -/
def Extends (e : Expr) (tokens : List Token) (e' : Expr) : Prop :=
  ∀ (fuel : Nat) (rest : List Token), (tokens ++ rest).length < fuel →
    ∃ fuel', rest.length < fuel' ∧
      postfixes fuel (.ok e) (tokens ++ rest) = postfixes fuel' (.ok e') rest

variable {e e' e'' : Expr} {tokens tokens' : List Token}

/-- No tokens leave an operand as it is. -/
theorem Extends.refl (e : Expr) : Extends e [] e :=
  fun fuel _ hfuel => ⟨fuel, hfuel, rfl⟩

/-- Tokens may be added one after the other. -/
theorem Extends.trans (h : Extends e tokens e') (h' : Extends e' tokens' e'') :
    Extends e (tokens ++ tokens') e'' := by
  intro fuel rest hfuel
  rw [List.append_assoc] at hfuel ⊢
  obtain ⟨fuel₁, hfuel₁, heq⟩ := h fuel _ hfuel
  obtain ⟨fuel₂, hfuel₂, heq'⟩ := h' fuel₁ rest hfuel₁
  exact ⟨fuel₂, hfuel₂, heq.trans heq'⟩

/-- One round of reading what follows an operand. -/
theorem Extends.one (hne : tokens ≠ [])
    (h : ∀ (fuel : Nat) (rest : List Token),
      postfixes (fuel + 1) (.ok e) (tokens ++ rest) = postfixes fuel (.ok e') rest) :
    Extends e tokens e' := by
  intro fuel rest hfuel
  have hpos := List.length_pos_iff.2 hne
  rw [List.length_append] at hfuel
  cases fuel with
  | zero => omega
  | succ fuel => exact ⟨fuel, by omega, h fuel rest⟩

/-- A duration is read from its text. -/
theorem duration_token {d : Duration} (h : Duration.ofText d.toText = .ok d) (rest : List Token) :
    duration (.duration d.toText :: rest) = .ok (.ok d, rest) := by
  rw [duration, h]
  rfl

/-- A range makes a selector one of values over time. -/
theorem extends_range {range : Duration} (h : Duration.ofText range.toText = .ok range)
    (hrange : Expr.withRange range e = .ok e') :
    Extends e (Expr.rangeTokens range) e' := by
  refine .one (List.cons_ne_nil _ _) fun fuel rest => ?_
  have hbracketed : bracketed (.ok e)
      (.duration range.toText :: .sign .rightBracket :: rest) = .ok (.ok e', rest) := by
    simp only [bracketed, duration_token h]
    exact congrArg (fun meaning => Except.ok (meaning, rest)) hrange
  simp only [Expr.rangeTokens, List.cons_append, List.nil_append, postfixes, hbracketed]

/-- A range and a step make a query a subquery. -/
theorem extends_subquery {range : Duration} {step : Option Duration}
    (hrange : Duration.ofText range.toText = .ok range)
    (hstep : ∀ d ∈ step, Duration.ofText d.toText = .ok d)
    (hsub : Expr.withSubquery range step e = .ok e') :
    Extends e (Expr.subqueryTokens range step) e' := by
  refine .one (List.cons_ne_nil _ _) fun fuel rest => ?_
  cases step with
  | none =>
      have hbracketed : bracketed (.ok e)
          (.duration range.toText :: .sign .colon :: .sign .rightBracket :: rest) =
            .ok (.ok e', rest) := by
        simp only [bracketed, duration_token hrange]
        exact congrArg (fun meaning => Except.ok (meaning, rest)) hsub
      simp only [Expr.subqueryTokens, Option.toList_none, List.map_nil, List.cons_append,
        List.nil_append, postfixes, hbracketed]
  | some d =>
      have hbracketed : bracketed (.ok e)
          (.duration range.toText :: .sign .colon :: .duration d.toText ::
            .sign .rightBracket :: rest) = .ok (.ok e', rest) := by
        simp only [bracketed, duration_token hrange, duration_token (hstep d rfl)]
        exact congrArg (fun meaning => Except.ok (meaning, rest)) hsub
      simp only [Expr.subqueryTokens, Option.toList_some, List.map_cons, List.map_nil,
        List.cons_append, List.nil_append, postfixes, hbracketed]

/-- An offset shifts the evaluation time. -/
theorem extends_offset {o : Offset} (h : Duration.ofText o.span.toText = .ok o.span)
    (hoffset : Expr.withOffset o e = .ok e') : Extends e o.tokens e' := by
  refine .one (by simp [Offset.tokens]) fun fuel rest => ?_
  obtain ⟨negative, span⟩ := o
  cases negative with
  | false =>
      simp only [Offset.tokens, Bool.false_eq_true, ↓reduceIte, List.nil_append, List.cons_append,
        postfixes, plusOrMinus, duration_token h]
      exact congrArg (fun meaning => postfixes fuel meaning rest) hoffset
  | true =>
      simp only [Offset.tokens, ↓reduceIte, List.nil_append, List.cons_append,
        postfixes, plusOrMinus, duration_token h]
      exact congrArg (fun meaning => postfixes fuel meaning rest) hoffset

/-- An evaluation time is read from its text. -/
theorem instant_tokens {i : Instant} (h : i.reread = some i) (rest : List Token) :
    ∃ tail, i.tokens = .sign .at :: tail ∧ tail ≠ [] ∧
      instant (tail ++ rest) = .ok (.ok i, rest) := by
  cases i with
  | start => exact ⟨_, rfl, List.cons_ne_nil _ _, rfl⟩
  | finish => exact ⟨_, rfl, List.cons_ne_nil _ _, rfl⟩
  | time negative millis =>
      refine ⟨_, rfl, List.cons_ne_nil _ _, ?_⟩
      rw [Instant.reread] at h
      split at h
      · rename_i value hvalue
        have hseconds : Instant.ofSeconds value = .ok (.time negative millis) := by
          cases hof : Instant.ofSeconds value with
          | error e =>
              rw [hof] at h
              cases h
          | ok i =>
              rw [hof] at h
              cases h
              rfl
        simp only [List.cons_append, List.nil_append, instant, plusOrMinus, numberOf?, hvalue]
        exact congrArg (fun meaning => Except.ok (meaning, rest)) hseconds
      · cases h

/-- An evaluation time is fixed. -/
theorem extends_instant {i : Instant} (h : i.reread = some i)
    (hinstant : Expr.withInstant i e = .ok e') : Extends e i.tokens e' := by
  refine .one (by cases i <;> simp [Instant.tokens]) fun fuel rest => ?_
  obtain ⟨tail, htokens, hne, hread⟩ := instant_tokens h rest
  obtain ⟨token, tail, rfl⟩ := List.exists_cons_of_ne_nil hne
  rw [htokens]
  rw [List.cons_append] at hread
  simp only [List.cons_append, postfixes, hread]
  exact congrArg (fun meaning => postfixes fuel meaning rest) hinstant

/-- The timing of a selector or a subquery is read. -/
theorem extends_timing {f : Timing → Expr}
    (hretime : ∀ (change : Timing → Except QueryError Timing) (misplaced : QueryError)
      (t t' : Timing), change t = .ok t' → Expr.retime change misplaced (f t) = .ok (f t'))
    {t : Timing} (h : ∀ part ∈ t.parts, part.Shown) : Extends (f {}) t.tokens (f t) := by
  obtain ⟨offset, instant⟩ := t
  have hinstant : Extends (f {}) (instant.toList.flatMap Instant.tokens) (f ⟨none, instant⟩) := by
    cases instant with
    | none => exact .refl _
    | some i =>
        have hi : (Part.instant i).Shown := h _ (by simp [Timing.parts])
        rw [Option.toList_some, List.flatMap_cons, List.flatMap_nil, List.append_nil]
        exact extends_instant hi (hretime _ _ _ _ rfl)
  have hoffset : Extends (f ⟨none, instant⟩) (offset.toList.flatMap Offset.tokens)
      (f ⟨offset, instant⟩) := by
    cases offset with
    | none => exact .refl _
    | some o =>
        have ho : (Part.span o.span).Shown := h _ (by simp [Timing.parts])
        rw [Option.toList_some, List.flatMap_cons, List.flatMap_nil, List.append_nil]
        exact extends_offset ho.2 (hretime _ _ _ _ rfl)
  exact hinstant.trans hoffset

end QueryTidy.Query
