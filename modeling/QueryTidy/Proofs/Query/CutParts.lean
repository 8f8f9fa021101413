import QueryTidy.Proofs.Query.Tokens

/-!
# Cutting the parts of canonical texts

The text of every part of a query that is `Part.Plain` is cut into the tokens of the part, whatever
follows that does not continue the last one.
-/

namespace QueryTidy

/-! ## Labels, modifiers and groupings -/

open Token (Cuts Ends)

variable {depth : Nat} {rest : Text}

/-- Labels in parentheses are cut whole. -/
theorem cuts_labels {labels : List Text} (h : ∀ l ∈ labels, IsLabel l) (rest : Text) :
    Cuts ⟨depth, .plain⟩ (labelList labels ++ rest) (labelTokens labels) ⟨depth, .plain⟩ rest := by
  have hitems : Cuts ⟨depth + 1, .plain⟩ (Text.join ", ".toList labels ++ ')' :: rest)
      (Token.commas (labels.map fun l => [Token.ofWord l])) ⟨depth + 1, .plain⟩ (')' :: rest) := by
    have hcut := Token.cuts_commas (s := ⟨depth + 1, .plain⟩) (.inl rfl) [' '] Token.blank_space
      Ends (fun _ => rfl) (labels.map fun l => (l, [Token.ofWord l])) ?_ (')' :: rest) rfl
    · simpa [Function.comp_def] using hcut
    · intro item hitem
      obtain ⟨l, hl, rfl⟩ := List.mem_map.1 hitem
      exact ⟨List.cons_ne_nil _ _, fun rest hrest =>
        .one (Token.step_word (h l hl).1.is_word hrest)⟩
  have htext : labelList labels ++ rest = '(' :: (Text.join ", ".toList labels ++ ')' :: rest) := by
    simp [labelList, commaList]
  rw [htext]
  exact .next (Token.step_open _ _) (hitems.append (.one (Token.step_close _ _)))

/-! ## Conditions -/

/-- The sign of a comparison is cut whole before a value. -/
theorem step_match_op (op : MatchOp) (t : Text) :
    Token.step ⟨depth, .braces⟩ (op.word ++ '"' :: t) =
      .emit op.token ⟨depth, .braces⟩ ('"' :: t) := by
  cases op <;> rfl

/-- A condition is cut whole. -/
theorem cuts_matcher {m : Matcher} (h : m.Read Token.Quotable) (rest : Text) :
    Cuts ⟨depth, .braces⟩ (m.toText ++ rest) m.tokens ⟨depth, .braces⟩ rest := by
  have htext : m.toText ++ rest = m.name ++ (m.op.word ++ '"' :: (m.value ++ '"' :: rest)) := by
    simp [Matcher.toText]
  rw [htext]
  refine .next (Token.step_label h.1 ?_ ?_)
    (.next (step_match_op _ _) (.one (Token.step_value h.2.1 rest)))
  · cases m.op <;> rfl
  · cases m.op <;> simp [MatchOp.word]

/-- Conditions of which all hold are cut whole, however the commas are spaced. -/
theorem cuts_group (blank : Text) (hblank : ∀ c ∈ blank, Token.isSpace c = true)
    {ms : List Matcher} (h : ∀ m ∈ ms, m.Read Token.Quotable) (rest : Text) :
    Cuts ⟨depth, .braces⟩ (Text.join (',' :: blank) (ms.map Matcher.toText) ++ rest)
      (Selection.groupTokens ms) ⟨depth, .braces⟩ rest := by
  have hcut := Token.cuts_commas (s := ⟨depth, .braces⟩) (.inr rfl) blank hblank (fun _ => True)
    (fun _ => trivial) (ms.map fun m => (m.toText, m.tokens)) ?_ rest trivial
  · simpa [Function.comp_def, Selection.groupTokens] using hcut
  · intro item hitem
    obtain ⟨m, hm, rfl⟩ := List.mem_map.1 hitem
    exact ⟨List.cons_ne_nil _ _, fun rest _ => cuts_matcher (h m hm) rest⟩

/-- Conditions of which there are some have tokens. -/
theorem group_tokens_ne_nil {ms : List Matcher} (h : ms ≠ []) : Selection.groupTokens ms ≠ [] := by
  cases ms with
  | nil => exact absurd rfl h
  | cons m ms => exact Token.commas_ne_nil (List.cons_ne_nil _ _) _

/-- The text of the alternatives after the first one. -/
def Selection.furtherText (groups : List (List Matcher)) : Text :=
  groups.flatMap fun group => " or ".toList ++ commaList (group.map Matcher.toText)

/-- Alternatives after the first one are cut whole. -/
theorem cuts_further {groups : List (List Matcher)}
    (h : ∀ group ∈ groups, group ≠ [] ∧ ∀ m ∈ group, m.Read Token.Quotable) (rest : Text) :
    Cuts ⟨depth, .braces⟩ (Selection.furtherText groups ++ rest)
      (Selection.furtherTokens groups) ⟨depth, .braces⟩ rest := by
  induction groups with
  | nil => exact .done _ _
  | cons group groups ih =>
      obtain ⟨hne, hread⟩ := h group List.mem_cons_self
      have hmore := ih fun g hg => h g (List.mem_cons_of_mem _ hg)
      have hgroup : Cuts ⟨depth, .braces⟩ _ _ _ _ := cuts_group [' '] Token.blank_space hread
        (Selection.furtherText groups ++ rest)
      obtain ⟨first, tail, hcons⟩ := List.exists_cons_of_ne_nil (group_tokens_ne_nil hne)
      have htext : Selection.furtherText (group :: groups) ++ rest =
          [' '] ++ ("or".toList ++ ' ' :: (Text.join [',', ' '] (group.map Matcher.toText) ++
            (Selection.furtherText groups ++ rest))) := by
        simp [Selection.furtherText, commaList]
      have htokens : Selection.furtherTokens (group :: groups) =
          .alternative :: Selection.groupTokens group ++ Selection.furtherTokens groups := by
        simp [Selection.furtherTokens]
      rw [htext, htokens]
      refine (Cuts.append
        (.blank _ (.inr rfl) Token.blank_space (.next (Token.step_alternative _ _) ?_))
        hmore)
      rw [hcons] at hgroup ⊢
      exact hgroup.blank [' '] (.inr rfl) Token.blank_space

/-- A character that stands for itself in ASCII is not blank. -/
theorem not_blank_of_visible {c : Char} (h : 0x21 ≤ c.toNat ∧ c.toNat ≤ 0x7E) :
    Text.isBlank c = false := by
  simp only [Text.isBlank, Text.blankRanges, CodeRanges.contains, List.any_cons, List.any_nil,
    Bool.or_false, Bool.or_eq_false_iff, Bool.and_eq_false_iff, decide_eq_false_iff_not]
  omega

/-- The first character of a word is visible. -/
theorem word_start_visible {c : Char} (h : Token.isWordStart c = true) :
    0x21 ≤ c.toNat ∧ c.toNat ≤ 0x7E := by
  simp only [Token.isWordStart, Text.isNameStart, Text.isLetter, Bool.or_eq_true,
    Bool.and_eq_true, decide_eq_true_eq, beq_iff_eq, Char.le_def, UInt32.le_iff_toNat_le] at h
  unfold Char.toNat
  rcases h with ((h | h) | rfl) | rfl
  · have ha : 'a'.val.toNat = 97 := rfl
    have hz : 'z'.val.toNat = 122 := rfl
    omega
  · have hA : 'A'.val.toNat = 65 := rfl
    have hZ : 'Z'.val.toNat = 90 := rfl
    omega
  · decide
  · decide

namespace Selection

/-- The text of a condition begins with its name and ends with a quote. -/
theorem matcher_text_ends {m : Matcher} {p : Text → Prop} (h : m.Read p) :
    ∃ c tail, m.name = c :: tail ∧ Text.isBlank c = false ∧
      ∃ body, m.toText = c :: (body ++ ['"']) := by
  have hstart := h.1.start
  cases hname : m.name with
  | nil => simp [hname] at hstart
  | cons c tail =>
      have hc : Text.isNameStart c = true := by simpa [hname] using hstart
      refine ⟨c, tail, rfl, not_blank_of_visible (word_start_visible (by
        rw [Token.isWordStart, hc, Bool.true_or])), tail ++ m.op.word ++ '"' :: m.value, ?_⟩
      simp [Matcher.toText, hname]

/-- The text of conditions begins with the name of the first one and ends with a quote. -/
theorem group_text_ends {ms : List Matcher} {p : Text → Prop} (hne : ms ≠ [])
    (h : ∀ m ∈ ms, m.Read p) :
    ∃ m rest, ms = m :: rest ∧ (∃ body, commaList (ms.map Matcher.toText) = m.toText ++ body) ∧
      ∃ body, commaList (ms.map Matcher.toText) = body ++ ['"'] := by
  induction ms with
  | nil => exact absurd rfl hne
  | cons m ms ih =>
      obtain ⟨c, -, -, -, body, hm⟩ := matcher_text_ends (h m List.mem_cons_self)
      refine ⟨m, ms, rfl, ?_⟩
      cases ms with
      | nil =>
          exact ⟨⟨[], by simp [commaList, Text.join]⟩, c :: body,
            by simp [commaList, Text.join, hm]⟩
      | cons next ms =>
          obtain ⟨-, -, -, -, body', hends⟩ := ih (List.cons_ne_nil _ _) fun k hk =>
            h k (List.mem_cons_of_mem _ hk)
          have htext : commaList ((m :: next :: ms).map Matcher.toText) =
              m.toText ++ ", ".toList ++ commaList ((next :: ms).map Matcher.toText) :=
            Text.join_cons_cons _ _ _ _
          refine ⟨⟨_, by rw [htext, List.append_assoc]⟩, m.toText ++ ", ".toList ++ body', ?_⟩
          rw [htext, hends, List.append_assoc _ body']

/-- A text that ends with a quote has no blanks to be trimmed at its end. -/
theorem trim_end_quote (t : Text) : Text.trimEnd (t ++ ['"']) = t ++ ['"'] := by
  have hquote : Text.isBlank '"' = false := by decide
  simp [Text.trimEnd, Text.dropEndWhile, hquote]

/-- A beginning that cannot be dropped is none. -/
theorem drop_start_none_iff {start whole : Text} :
    Text.dropStart? start whole = none ↔ ¬start <+: whole := by
  rw [Option.eq_none_iff_forall_ne_some]
  constructor
  · rintro h ⟨rest, rfl⟩
    exact h rest ((Text.dropStart?_eq_some_iff _ _ _).2 rfl)
  · intro h rest hsome
    exact h ⟨rest, ((Text.dropStart?_eq_some_iff _ _ _).1 hsome).symm⟩

/-- A condition whose name does not begin with an `or` does not begin so. -/
theorem drop_or_none {m : Matcher} {p : Text → Prop} (h : m.Read p)
    (hname : Text.dropStart? "or".toList m.name = none) (rest : Text) :
    Text.dropStart? "or".toList (m.toText ++ rest) = none := by
  rw [drop_start_none_iff] at hname ⊢
  obtain ⟨c, tail, hcons, -⟩ := matcher_text_ends h
  rintro ⟨after, hafter⟩
  have htext : m.toText ++ rest =
      m.name ++ (m.op.word ++ ('"' :: m.value ++ '"' :: rest)) := by
    simp [Matcher.toText]
  rw [htext, hcons] at hafter
  have hor : "or".toList = ['o', 'r'] := rfl
  rw [hor] at hafter hname
  cases tail with
  | nil =>
      -- After a name of one letter stands the sign of the comparison.
      have hr : (m.op.word ++ ('"' :: m.value ++ '"' :: rest)).head? = some 'r' := by
        have htail : 'r' :: after = m.op.word ++ ('"' :: m.value ++ '"' :: rest) :=
          (List.cons.inj hafter).2
        rw [← htail]
        rfl
      revert hr
      cases m.op <;> simp [MatchOp.word]
  | cons d tail =>
      simp only [List.cons_append, List.nil_append, List.cons.injEq] at hafter
      rw [hcons, ← hafter.1, ← hafter.2.1] at hname
      exact hname ⟨tail, rfl⟩

/-- The text of the first alternative and those after it ends with a quote. -/
theorem further_text_ends {groups : List (List Matcher)} {p : Text → Prop}
    (h : ∀ group ∈ groups, group ≠ [] ∧ ∀ m ∈ group, m.Read p) {t : Text}
    (ht : ∃ body, t = body ++ ['"']) : ∃ body, t ++ furtherText groups = body ++ ['"'] := by
  induction groups generalizing t with
  | nil => simpa [furtherText] using ht
  | cons group groups ih =>
      obtain ⟨hne, hread⟩ := h group List.mem_cons_self
      obtain ⟨-, -, -, -, body, hends⟩ := group_text_ends hne hread
      have htext : t ++ furtherText (group :: groups) =
          (t ++ " or ".toList ++ commaList (group.map Matcher.toText)) ++ furtherText groups := by
        simp [furtherText]
      rw [htext]
      refine ih (fun g hg => h g (List.mem_cons_of_mem _ hg)) ⟨t ++ " or ".toList ++ body, ?_⟩
      rw [hends, List.append_assoc _ body]

/-- The text of conditions in the order in which they are written. -/
def written : Selection → Text
  | .all ms => commaList (ms.map Matcher.toText)
  | .any [] => []
  | .any (group :: groups) => commaList (group.map Matcher.toText) ++ furtherText groups

/-- Alternatives with an ` or` before each are the written ones after the first ` or`. -/
theorem flat_written (group : List Matcher) (groups : List (List Matcher)) :
    ((group :: groups).flatMap fun group =>
      " or ".toList ++ commaList (group.map Matcher.toText)) =
        " or".toList ++ ' ' :: (Selection.any (group :: groups)).written := by
  simp [written, furtherText]

/-- Written alternatives begin with the first condition and end with a quote. -/
theorem written_ends {group : List Matcher} {groups : List (List Matcher)} {p : Text → Prop}
    (hread : (Selection.any (group :: groups)).Read p) :
    (∃ m ms body, group = m :: ms ∧
      (Selection.any (group :: groups)).written = m.toText ++ body) ∧
        ∃ front, (Selection.any (group :: groups)).written = front ++ ['"'] := by
  obtain ⟨hne, hgroup⟩ := hread.2 group List.mem_cons_self
  obtain ⟨m, ms, hcons, ⟨body, hbegin⟩, hends⟩ := group_text_ends hne hgroup
  refine ⟨⟨m, ms, body ++ furtherText groups, hcons, ?_⟩,
    further_text_ends (fun g hg => hread.2 g (List.mem_cons_of_mem _ hg)) hends⟩
  rw [written, hbegin, List.append_assoc]

/-- Written alternatives do not begin with a blank. -/
theorem written_start {group : List Matcher} {groups : List (List Matcher)} {p : Text → Prop}
    (hread : (Selection.any (group :: groups)).Read p) :
    ∃ c tail, (Selection.any (group :: groups)).written = c :: tail ∧ Text.isBlank c = false := by
  obtain ⟨⟨m, ms, body, hcons, hbegin⟩, -⟩ := written_ends hread
  have hm : m.Read p :=
    (hread.2 group List.mem_cons_self).2 m (by rw [hcons]; exact List.mem_cons_self)
  obtain ⟨c, tail, -, hblank, middle, hmtext⟩ := matcher_text_ends hm
  exact ⟨c, middle ++ ['"'] ++ body, by rw [hbegin, hmtext]; simp, hblank⟩

/-- Written alternatives have no blanks to be trimmed. -/
theorem trim_written {group : List Matcher} {groups : List (List Matcher)} {p : Text → Prop}
    (hread : (Selection.any (group :: groups)).Read p) :
    Text.trim (Selection.any (group :: groups)).written =
      (Selection.any (group :: groups)).written := by
  obtain ⟨c, tail, hstart, hblank⟩ := written_start hread
  obtain ⟨-, front, hfront⟩ := written_ends hread
  have htrim : Text.trimStart (Selection.any (group :: groups)).written =
      (Selection.any (group :: groups)).written := by
    rw [hstart, Text.trimStart, List.dropWhile_cons_of_neg (by simp [hblank])]
  rw [Text.trim, htrim, hfront, trim_end_quote]

/-- The text of alternatives begins with the first one, unless that one begins with an `or`. -/
theorem any_text_eq {group : List Matcher} {groups : List (List Matcher)} {p : Text → Prop}
    (hread : (Selection.any (group :: groups)).Read p)
    (hshown : (Selection.any (group :: groups)).Shown) :
    (Selection.any (group :: groups)).toText = (Selection.any (group :: groups)).written := by
  obtain ⟨⟨m, ms, body, hcons, hbegin⟩, -⟩ := written_ends hread
  have hm : m.Read p :=
    (hread.2 group List.mem_cons_self).2 m (by rw [hcons]; exact List.mem_cons_self)
  have hname : Text.dropStart? "or".toList m.name = none :=
    hshown m.name (by rw [firstName?, hcons]; rfl)
  have htrim := trim_written hread
  have hflat := flat_written group groups
  generalize (Selection.any (group :: groups)).written = whole at hbegin htrim hflat ⊢
  have hnone : Text.dropStart? " or".toList (' ' :: whole) = none := by
    rw [hbegin]
    exact drop_or_none hm hname body
  have hdrop : dropRepeated " or".toList ((" or".toList ++ (' ' :: whole)).length + 1)
      (" or".toList ++ (' ' :: whole)) = ' ' :: whole := by
    have hfirst : Text.dropStart? " or".toList (" or".toList ++ (' ' :: whole)) =
        some (' ' :: whole) := (Text.dropStart?_eq_some_iff _ _ _).2 rfl
    have hfuel : (" or".toList ++ (' ' :: whole)).length = (whole.length + 3) + 1 := by
      simp
    rw [hfuel, dropRepeated, hfirst]
    simp only [dropRepeated, hnone]
  have hspace : Text.isBlank ' ' = true := by decide
  unfold toText
  simp only [hflat, hdrop]
  rw [Text.trim, Text.trimStart, List.dropWhile_cons_of_pos hspace]
  exact htrim

end Selection

/-- Conditions as they are written are cut whole. -/
theorem cuts_written {selection : Selection} (hread : selection.Read Token.Quotable)
    (rest : Text) :
    Cuts ⟨depth, .braces⟩ (selection.written ++ rest) selection.tokens ⟨depth, .braces⟩ rest := by
  cases selection with
  | all ms => exact cuts_group [' '] Token.blank_space hread rest
  | any groups =>
      cases groups with
      | nil => exact .done _ _
      | cons group groups =>
          rw [Selection.written, List.append_assoc]
          exact (cuts_group [' '] Token.blank_space (hread.2 group List.mem_cons_self).2
            _).append (cuts_further (fun g hg => hread.2 g (List.mem_cons_of_mem _ hg)) rest)

/-- The conditions between braces are cut whole. -/
theorem cuts_selection {selection : Selection} (hread : selection.Read Token.Quotable)
    (hshown : selection.Shown) (rest : Text) :
    Cuts ⟨depth, .braces⟩ (selection.toText ++ rest) selection.tokens ⟨depth, .braces⟩ rest := by
  cases selection with
  | all ms =>
      have htext : (Selection.all ms).toText = Text.join [','] (ms.map Matcher.toText) := by
        rw [Selection.toText, hshown]
      rw [htext]
      exact cuts_group [] (by simp) hread rest
  | any groups =>
      cases groups with
      | nil => exact absurd hread.1 (by decide)
      | cons group groups =>
          rw [Selection.any_text_eq hread hshown]
          exact cuts_written hread rest

/-- Conditions in braces are cut whole if the text of the conditions is. -/
theorem cuts_braces {t : Text} {tokens : List Token}
    (h : ∀ rest, Cuts ⟨depth, .braces⟩ (t ++ rest) tokens ⟨depth, .braces⟩ rest) (rest : Text) :
    Cuts ⟨depth, .plain⟩ ('\x7b' :: (t ++ '\x7d' :: rest))
      (.sign .leftBrace :: (tokens ++ [.sign .rightBrace])) ⟨depth, .plain⟩ rest :=
  .next rfl ((h _).append (.one rfl))

/-! ## Selectors -/

/-- The name and the conditions of a selector are cut whole. -/
theorem cuts_head {s : Selector} (hname : ∀ n ∈ s.name, IsMetricName n)
    (hread : s.selection.Read Token.Quotable) (hshown : s.selection.Shown) {rest : Text}
    (hrest : Ends rest) :
    Cuts ⟨depth, .plain⟩ (s.head ++ rest) s.headTokens ⟨depth, .plain⟩ rest := by
  have hbraces : Cuts ⟨depth, .plain⟩ _ _ _ _ := cuts_braces (cuts_selection hread hshown) rest
  unfold Selector.head Selector.headTokens
  cases hn : s.name with
  | none =>
      split
      · exact .done _ _
      · simpa using hbraces
  | some name =>
      have hword := (hname name (by rw [hn]; rfl)).1
      split
      · rw [Option.getD_some, List.append_nil]
        exact .one (Token.step_word hword hrest)
      · simp only [Option.getD_some, Option.toList_some, List.map_cons, List.map_nil,
          List.append_assoc, List.cons_append, List.nil_append]
        exact .next (Token.step_word hword rfl) hbraces

/-! ## Durations and times -/

/-- A step at a digit between brackets reads a number or a duration. -/
theorem step_bracket_digit {fresh colon : Bool} {c : Char} (hc : Text.isDigit c = true)
    (rest : Text) :
    Token.step ⟨depth, .brackets fresh colon⟩ (c :: rest) =
      Token.emitRead ⟨depth, .brackets false colon⟩ (Token.scanNumber (c :: rest)) := by
  have hspace := (Token.not_blank_of hc (by decide)).1
  simp only [Token.step, List.dropWhile_cons, hspace, Bool.false_eq_true, ↓reduceIte,
    Token.bracketStep, hc]

/-- A text that is read as a number or a duration is one token. -/
theorem step_number {t : Text} {token : Token} (hscan : Token.scanNumber t = .ok (token, rest))
    (hhead : t.head?.any Text.isDigit = true) :
    Token.step ⟨depth, .plain⟩ t = .emit token ⟨depth, .plain⟩ rest := by
  cases t with
  | nil => cases hhead
  | cons c tail =>
      rw [Token.step_digit (by simpa using hhead), hscan]
      rfl

/-- A text that is read as a number or a duration is one token between brackets. -/
theorem step_bracket_number {fresh colon : Bool} {t : Text} {token : Token}
    (hscan : Token.scanNumber t = .ok (token, rest)) (hhead : t.head?.any Text.isDigit = true) :
    Token.step ⟨depth, .brackets fresh colon⟩ t =
      .emit token ⟨depth, .brackets false colon⟩ rest := by
  cases t with
  | nil => cases hhead
  | cons c tail =>
      rw [step_bracket_digit (by simpa using hhead), hscan]
      rfl

/-- A duration is cut whole. -/
theorem step_duration {d : Duration} (hd : 0 < d.millis) (hrest : Token.EndsName rest) :
    Token.step ⟨depth, .plain⟩ (d.toText ++ rest) =
      .emit (.duration d.toText) ⟨depth, .plain⟩ rest := by
  obtain ⟨hscan, c, tail, hcons, hc⟩ := Duration.scan_number_duration hd hrest
  exact step_number hscan (by simp [hcons, hc])

/-- A duration is cut whole between brackets. -/
theorem step_bracket_duration {fresh colon : Bool} {d : Duration} (hd : 0 < d.millis)
    (hrest : Token.EndsName rest) :
    Token.step ⟨depth, .brackets fresh colon⟩ (d.toText ++ rest) =
      .emit (.duration d.toText) ⟨depth, .brackets false colon⟩ rest := by
  obtain ⟨hscan, c, tail, hcons, hc⟩ := Duration.scan_number_duration hd hrest
  exact step_bracket_number hscan (by simp [hcons, hc])

end QueryTidy
