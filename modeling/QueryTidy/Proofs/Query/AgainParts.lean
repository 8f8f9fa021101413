import QueryTidy.Proofs.Query.CutClauses
import Mathlib.Data.List.Sort

/-!
# The parts of queries in canonical texts

What the text of a part denotes (`Part.again?`). Where the text of a part cannot show all there is,
the part that is read from it is another one. A part is `Part.Stable` if its text denotes a part
with the same text.
-/

namespace QueryTidy

/-! ## The order of texts -/

namespace Text

/-- Of two texts one does not come after the other. -/
theorem not_after_total (t u : Text) : notAfter t u = true ∨ notAfter u t = true := by
  induction t generalizing u with
  | nil => exact .inl rfl
  | cons a t ih =>
      cases u with
      | nil => exact .inr rfl
      | cons b u =>
          simp only [notAfter, Bool.or_eq_true, decide_eq_true_eq, Bool.and_eq_true, beq_iff_eq]
          rcases Nat.lt_trichotomy a.toNat b.toNat with hab | hab | hab
          · exact .inl (.inl hab)
          · obtain rfl : a = b := Char.toNat_inj.1 hab
            rcases ih u with h | h
            · exact .inl (.inr ⟨rfl, h⟩)
            · exact .inr (.inr ⟨rfl, h⟩)
          · exact .inr (.inl hab)

/-- The order of texts is transitive. -/
theorem not_after_trans {t u v : Text} (htu : notAfter t u = true) (huv : notAfter u v = true) :
    notAfter t v = true := by
  induction t generalizing u v with
  | nil => rfl
  | cons a t ih =>
      cases u with
      | nil => cases htu
      | cons b u =>
          cases v with
          | nil => cases huv
          | cons c v =>
              simp only [notAfter, Bool.or_eq_true, decide_eq_true_eq, Bool.and_eq_true,
                beq_iff_eq] at htu huv ⊢
              rcases htu with hab | ⟨rfl, htu⟩
              · rcases huv with hbc | ⟨rfl, -⟩
                · exact .inl (hab.trans hbc)
                · exact .inl hab
              · rcases huv with hbc | ⟨rfl, huv⟩
                · exact .inl hbc
                · exact .inr ⟨rfl, ih htu huv⟩

/-- Texts are sorted by insertion. -/
theorem sort_eq (ts : List Text) :
    sort ts = ts.insertionSort fun t u => notAfter t u = true := by
  have hinsert (t : Text) (us : List Text) :
      insertSorted t us = us.orderedInsert (fun t u => notAfter t u = true) t := by
    induction us with
    | nil => rfl
    | cons u us ih => rw [insertSorted, List.orderedInsert_cons, ih]
  induction ts with
  | nil => rfl
  | cons t ts ih => rw [sort, ih, List.insertionSort_cons, hinsert]

/-- Sorted texts stay as they are. -/
theorem sort_sort (ts : List Text) : sort (sort ts) = sort ts := by
  have : IsTrans Text fun t u => notAfter t u = true := ⟨fun _ _ _ => not_after_trans⟩
  have : Std.Total fun t u : Text => notAfter t u = true := ⟨not_after_total⟩
  rw [sort_eq (sort ts), sort_eq ts]
  exact (List.pairwise_insertionSort _ ts).insertionSort_eq

end Text

/-! ## Durations and times -/

namespace Duration

/-- The duration that the text of one denotes, or the duration itself if the text denotes none. -/
def again (d : Duration) : Duration :=
  (ofText d.toText).toOption.getD d

/-- The text of the duration denotes a duration with the same text. -/
def Stable (d : Duration) : Prop :=
  ∃ d', ofText d.toText = .ok d' ∧ d'.toText = d.toText

/-- What is read from the text of a stable duration has the same text. -/
theorem Stable.again_text {d : Duration} (h : d.Stable) : d.again.toText = d.toText := by
  obtain ⟨d', hread, htext⟩ := h
  rw [again, hread]
  exact htext

/-- A duration that is read from a text has a millisecond at least. -/
theorem millis_pos_of_text {t : Text} {d : Duration} (h : ofText t = .ok d) : 0 < d.millis := by
  unfold ofText at h
  split at h
  · cases h
  · cases h
  · rename_i n hn _
    obtain rfl : ofMillis n = d := by simpa using h
    have hpos : n ≠ 0 := by
      rintro rfl
      exact hn rfl
    simp only [millis, ofMillis]
    omega

/-- What is read from the text of a stable duration is read from its own text. -/
theorem Stable.again_shown {d : Duration} (h : d.Stable) : (Part.span d.again).Shown := by
  have htext := h.again_text
  obtain ⟨d', hread, -⟩ := h
  have hd' : d.again = d' := by rw [again, hread]; rfl
  rw [hd'] at htext ⊢
  exact ⟨millis_pos_of_text hread, by rw [htext, hread]⟩

/-- The step that is read from the text of one. Nothing is read from no text. -/
def stepAgain (d : Duration) : Option Duration :=
  if d.toText = [] then none else some d.again

end Duration

namespace Instant

/-- The evaluation time that the text of one denotes, or the time itself if the text denotes
none. -/
def again (i : Instant) : Instant :=
  i.reread.getD i

/-- The text of the evaluation time denotes one with the same text. -/
def Stable (i : Instant) : Prop :=
  ∃ i', i.reread = some i' ∧ i'.toText = i.toText

/-- What is read from the text of a stable evaluation time has the same text. -/
theorem Stable.again_text {i : Instant} (h : i.Stable) : i.again.toText = i.toText := by
  obtain ⟨i', hread, htext⟩ := h
  rw [again, hread]
  exact htext

/-- What is read from the text of an evaluation time is in range if the time is. -/
theorem InRange.again {i : Instant} (h : i.InRange) : i.again.InRange := by
  unfold Instant.again
  cases hread : i.reread with
  | none => exact h
  | some i' => exact reread_in_range hread

/-- What is read from the text of a stable evaluation time is read from its own text. -/
theorem Stable.again_shown {i : Instant} (h : i.Stable) : (Part.instant i.again).Shown := by
  obtain ⟨i', hread, htext⟩ := h
  have hi' : i.again = i' := by rw [again, hread]; rfl
  rw [hi']
  change i'.reread = some i'
  cases i with
  | start =>
      obtain rfl : Instant.start = i' := by simpa [reread] using hread
      rfl
  | finish =>
      obtain rfl : Instant.finish = i' := by simpa [reread] using hread
      rfl
  | time negative millis =>
      have htime : ∃ negative' millis', i' = .time negative' millis' := by
        simp only [reread] at hread
        split at hread
        · rename_i value _
          unfold ofSeconds at hread
          split at hread
          · cases hread
          · split at hread
            · cases hread
            · exact ⟨_, _, (Option.some.inj hread).symm⟩
        · cases hread
      obtain ⟨negative', millis', rfl⟩ := htime
      rw [to_text_time, to_text_time, List.append_cancel_left_eq] at htext
      rw [← hread, reread, reread, htext]

end Instant

/-! ## Conditions -/

namespace Matcher

/-- The condition under another name. -/
def rename (f : Text → Text) (m : Matcher) : Matcher :=
  { m with name := f m.name }

/-- A condition that is read is also read under another name. -/
theorem Read.rename {p : Text → Prop} {m : Matcher} (h : m.Read p) {f : Text → Text}
    (hname : Token.IsName (f m.name)) : (m.rename f).Read p := by
  refine ⟨hname, h.2.1, ?_⟩
  have hbuild := h.2.2
  unfold build at hbuild ⊢
  change (require (!m.op.isPattern || (Pattern.ofValue? m.value).isSome)
    (.illegalPattern m.value) >>= fun _ => _) = _
  cases hrequire : require (!m.op.isPattern || (Pattern.ofValue? m.value).isSome)
      (.illegalPattern m.value) with
  | error error =>
      rw [hrequire] at hbuild
      cases hbuild
  | ok => rfl

/-- The conditions in the order of their texts. -/
def sort (ms : List Matcher) : List Matcher :=
  ms.insertionSort fun m n => Text.notAfter m.toText n.toText = true

/-- The texts of sorted conditions are sorted. -/
theorem map_sort (ms : List Matcher) :
    (sort ms).map Matcher.toText = Text.sort (ms.map Matcher.toText) := by
  rw [sort, Text.sort_eq]
  exact List.map_insertionSort _ _ _ _ fun _ _ _ _ => Iff.rfl

end Matcher

namespace Selection

/-- A name without the `or` at its beginning. -/
def withoutOr (name : Text) : Text :=
  (Text.dropStart? "or".toList name).getD name

/-- The alternatives with another name in the first condition. -/
def renameFirst (f : Text → Text) : List (List Matcher) → List (List Matcher)
  | (m :: ms) :: groups => (m.rename f :: ms) :: groups
  | groups => groups

/-- The conditions that the text of conditions denotes: they are sorted if all must hold, and the
first of several alternatives loses an `or` at its beginning. -/
def again : Selection → Selection
  | .all ms => .all (Matcher.sort ms)
  | .any groups => .any (renameFirst withoutOr groups)

/-- What is left of the first name of several alternatives, if an `or` is dropped from it, is a name
without another `or` that may stand beside the name of the metric. -/
def Stable (name : Option Text) : Selection → Prop
  | .all _ => True
  | .any groups =>
      ∀ first ∈ firstName? groups, ∀ stripped ∈ Text.dropStart? "or".toList first,
        Token.IsName stripped ∧ Text.dropStart? "or".toList stripped = none ∧
          (name.isSome = true → stripped ≠ Selector.nameLabel)

/-- What is left of the first name of several alternatives, if an `or` is dropped from it, is a name
that may stand beside the name of the metric. -/
def KeepsNames (name : Option Text) : Selection → Prop
  | .all _ => True
  | .any groups =>
      ∀ first ∈ firstName? groups, ∀ stripped ∈ Text.dropStart? "or".toList first,
        Token.IsName stripped ∧ (name.isSome = true → stripped ≠ Selector.nameLabel)

/-- Stable conditions keep their names. -/
theorem Stable.keeps_names {name : Option Text} {selection : Selection}
    (h : selection.Stable name) : selection.KeepsNames name := by
  cases selection with
  | all ms => trivial
  | any groups =>
      intro first hfirst stripped hstripped
      obtain ⟨hisname, -, hlabel⟩ := h first hfirst stripped hstripped
      exact ⟨hisname, hlabel⟩

/-- A name either has no `or` at its beginning or loses it. -/
theorem without_or_cases (name : Text) :
    (Text.dropStart? "or".toList name = none ∧ withoutOr name = name) ∨
      Text.dropStart? "or".toList name = some (withoutOr name) := by
  unfold withoutOr
  cases Text.dropStart? "or".toList name with
  | none => exact .inl ⟨rfl, rfl⟩
  | some stripped => exact .inr rfl

/-- Conditions are read with all values that they have. -/
theorem Read.with_values {p q : Text → Prop} {selection : Selection} (h : selection.Read p)
    (hq : ∀ m ∈ selection.matchers, q m.value) : selection.Read q := by
  cases selection with
  | all ms => exact fun m hm => ⟨(h m hm).1, hq m hm, (h m hm).2.2⟩
  | any groups =>
      refine ⟨h.1, fun group hgroup => ⟨(h.2 group hgroup).1, fun m hm => ?_⟩⟩
      obtain ⟨hname, -, hbuild⟩ := (h.2 group hgroup).2 m hm
      exact ⟨hname, hq m (List.mem_flatten.2 ⟨group, hgroup, hm⟩), hbuild⟩

/-- The values of conditions that are read. -/
theorem Read.values {p : Text → Prop} {selection : Selection} (h : selection.Read p) :
    ∀ m ∈ selection.matchers, p m.value := by
  intro m hm
  cases selection with
  | all ms => exact (h m hm).2.1
  | any groups =>
      obtain ⟨group, hgroup, hm⟩ := List.mem_flatten.1 hm
      exact ((h.2 group hgroup).2 m hm).2.1

/-- Alternatives that are read have a first condition. -/
theorem Read.first {p : Text → Prop} {groups : List (List Matcher)}
    (h : (Selection.any groups).Read p) : ∃ m ms rest, groups = (m :: ms) :: rest ∧ m.Read p := by
  obtain ⟨hlength, hgroups⟩ := h
  cases groups with
  | nil => exact absurd hlength (by decide)
  | cons group rest =>
      obtain ⟨hne, hread⟩ := hgroups group List.mem_cons_self
      obtain ⟨m, ms, rfl⟩ := List.exists_cons_of_ne_nil hne
      exact ⟨m, ms, rest, rfl, hread m List.mem_cons_self⟩

/-- What is read from the text of conditions that keep their names are conditions that are read. -/
theorem Read.again {p : Text → Prop} {name : Option Text} {selection : Selection}
    (h : selection.Read p) (hnames : selection.KeepsNames name) : selection.again.Read p := by
  cases selection with
  | all ms => exact fun m hm => h m ((List.mem_insertionSort _).1 hm)
  | any groups =>
      obtain ⟨m, ms, rest, rfl, hm⟩ := h.first
      obtain ⟨hlength, hgroups⟩ := h
      obtain ⟨-, hgroup⟩ := hgroups _ List.mem_cons_self
      have hrename : (m.rename withoutOr).Read p := by
        refine hm.rename ?_
        rcases without_or_cases m.name with ⟨-, hsame⟩ | hdrop
        · rw [hsame]
          exact hm.1
        · exact (hnames _ rfl _ hdrop).1
      refine ⟨hlength, fun group hmem => ?_⟩
      rcases List.mem_cons.1 hmem with rfl | hmem
      · refine ⟨List.cons_ne_nil _ _, fun n hn => ?_⟩
        rcases List.mem_cons.1 hn with rfl | hn
        · exact hrename
        · exact hgroup n (List.mem_cons_of_mem _ hn)
      · exact hgroups group (List.mem_cons_of_mem _ hmem)

/-- What is read from the text of stable conditions is written as it is. -/
theorem Stable.again_shown {p : Text → Prop} {name : Option Text} {selection : Selection}
    (h : selection.Read p) (hstable : selection.Stable name) : selection.again.Shown := by
  cases selection with
  | all ms =>
      change Text.sort ((Matcher.sort ms).map Matcher.toText) = (Matcher.sort ms).map Matcher.toText
      rw [Matcher.map_sort, Text.sort_sort]
  | any groups =>
      obtain ⟨m, ms, rest, rfl, -⟩ := h.first
      intro first hfirst
      obtain rfl : withoutOr m.name = first := Option.some.inj hfirst
      rcases without_or_cases m.name with ⟨hnone, hsame⟩ | hdrop
      · rw [hsame]
        exact hnone
      · exact (hstable _ rfl _ hdrop).2.1

/-- An `or` at the beginning of the first name is dropped with the one before the alternatives, and
nothing else. -/
theorem any_text_or {p : Text → Prop} {m : Matcher} {ms : List Matcher}
    {rest : List (List Matcher)} (h : (Selection.any ((m :: ms) :: rest)).Read p) :
    (Selection.any ((m.rename ("or".toList ++ ·) :: ms) :: rest)).toText =
      (Selection.any ((m :: ms) :: rest)).written := by
  have hlong : (Selection.any ((m.rename ("or".toList ++ ·) :: ms) :: rest)).written =
      "or".toList ++ (Selection.any ((m :: ms) :: rest)).written := by
    cases ms <;> simp [written, commaList, Text.join, Matcher.toText, Matcher.rename]
  have hflat := flat_written (m.rename ("or".toList ++ ·) :: ms) rest
  have htrim := trim_written h
  obtain ⟨c, tail, hstart, hblank⟩ := written_start h
  rw [hlong] at hflat
  generalize (Selection.any ((m :: ms) :: rest)).written = whole at hflat htrim hstart ⊢
  have hstop : Text.dropStart? " or".toList whole = none := by
    rw [hstart, drop_start_none_iff]
    rintro ⟨t, ht⟩
    obtain rfl : ' ' = c := (List.cons.inj ht).1
    exact absurd hblank (by decide)
  have hdrop {t : Text} (fuel : Nat) : dropRepeated " or".toList (fuel + 1) (" or".toList ++ t) =
      dropRepeated " or".toList fuel t := by
    rw [dropRepeated, (Text.dropStart?_eq_some_iff _ _ _).2 rfl]
  have hstay (fuel : Nat) : dropRepeated " or".toList fuel whole = whole := by
    cases fuel with
    | zero => rfl
    | succ fuel => rw [dropRepeated, hstop]
  have hwhole : ' ' :: ("or".toList ++ whole) = " or".toList ++ whole := rfl
  have hfuel : (" or".toList ++ (" or".toList ++ whole)).length + 1 = whole.length + 5 + 1 + 1 := by
    simp
  simp only [toText, hflat, hwhole, hfuel, hdrop, hstay]
  exact htrim

/-- A name that loses an `or` is the name that is left with an `or` before it. -/
theorem rename_without_or {m : Matcher}
    (h : Text.dropStart? "or".toList m.name = some (withoutOr m.name)) :
    (m.rename withoutOr).rename ("or".toList ++ ·) = m := by
  have hname : m.name = "or".toList ++ withoutOr m.name :=
    (Text.dropStart?_eq_some_iff _ _ _).1 h
  cases m
  simp only [Matcher.rename, Matcher.mk.injEq, and_self, and_true]
  exact hname.symm

/-- What is read from the text of stable conditions has the same text. -/
theorem Stable.again_text {p : Text → Prop} {name : Option Text} {selection : Selection}
    (h : selection.Read p) (hstable : selection.Stable name) :
    selection.again.toText = selection.toText := by
  have hagain := h.again hstable.keeps_names
  have hshown := hstable.again_shown h
  cases selection with
  | all ms => simp only [again, toText, Matcher.map_sort, Text.sort_sort]
  | any groups =>
      obtain ⟨m, ms, rest, rfl, -⟩ := h.first
      rcases without_or_cases m.name with ⟨-, hsame⟩ | hdrop
      · have hrename : m.rename withoutOr = m := by
          rw [Matcher.rename, hsame]
        simp only [again, renameFirst, hrename]
      · have htext := any_text_or hagain
        rw [rename_without_or hdrop] at htext
        exact (any_text_eq hagain hshown).trans htext.symm

/-- The text of conditions that keep their names is cut into those that are read from it. -/
theorem cuts_again {name : Option Text} {selection : Selection}
    (h : selection.Read Token.Quotable) (hnames : selection.KeepsNames name) (depth : Nat)
    (rest : Text) : Token.Cuts ⟨depth, .braces⟩ (selection.toText ++ rest) selection.again.tokens
      ⟨depth, .braces⟩ rest := by
  have hagain := h.again hnames
  have hcuts : selection.Stable name → Token.Cuts ⟨depth, .braces⟩ (selection.toText ++ rest)
      selection.again.tokens ⟨depth, .braces⟩ rest := by
    intro hstable
    rw [← hstable.again_text h]
    exact cuts_selection hagain (hstable.again_shown h) rest
  cases selection with
  | all ms => exact hcuts trivial
  | any groups =>
      obtain ⟨m, ms, after, rfl, -⟩ := h.first
      rcases without_or_cases m.name with ⟨hnone, -⟩ | hdrop
      · refine hcuts fun first hfirst stripped hstripped => ?_
        obtain rfl : m.name = first := Option.some.inj hfirst
        rw [hnone] at hstripped
        cases hstripped
      · -- The text is that of the alternatives without the `or`, which may begin with another one.
        have htext := any_text_or hagain
        rw [rename_without_or hdrop] at htext
        rw [htext]
        exact cuts_written hagain rest

/-- The conditions that are read hold of the same empty values. -/
theorem again_matches_empty (selection : Selection) :
    (selection.again.matchers.map Matcher.matchesEmpty).Perm
      (selection.matchers.map Matcher.matchesEmpty) := by
  cases selection with
  | all ms => exact (List.perm_insertionSort _ ms).map _
  | any groups =>
      match groups with
      | (m :: ms) :: rest => exact .refl _
      | [] :: rest => exact .refl _
      | [] => exact .refl _

/-- The conditions that are read have the same names, except the first one of alternatives. -/
theorem again_names (selection : Selection) :
    ∀ n ∈ selection.again.matchers, (∃ m ∈ selection.matchers, n.name = m.name) ∨
      ∃ groups, selection = .any groups ∧
        ∃ first ∈ firstName? groups, Text.dropStart? "or".toList first = some n.name := by
  intro n hn
  cases selection with
  | all ms => exact .inl ⟨n, (List.mem_insertionSort _).1 hn, rfl⟩
  | any groups =>
      match groups with
      | (m :: ms) :: rest =>
          rcases List.mem_cons.1 hn with rfl | hn
          · rcases without_or_cases m.name with ⟨-, hsame⟩ | hdrop
            · exact .inl ⟨m, List.mem_cons_self, hsame⟩
            · exact .inr ⟨_, rfl, m.name, rfl, hdrop⟩
          · exact .inl ⟨n, List.mem_cons_of_mem _ hn, rfl⟩
      | [] :: rest => exact .inl ⟨n, hn, rfl⟩
      | [] => cases hn

/-- There are conditions in the text if there are some. -/
theorem again_is_empty (selection : Selection) :
    selection.again.isEmpty = selection.isEmpty := by
  have hlength := selection.again_matches_empty.length_eq
  rw [List.length_map, List.length_map] at hlength
  rw [Bool.eq_iff_iff, isEmpty, isEmpty, List.isEmpty_iff_length_eq_zero,
    List.isEmpty_iff_length_eq_zero, hlength]

end Selection

/-! ## Selectors -/

namespace Selector

/-- The rules of a selector. -/
theorem check_ok_iff (s : Selector) : s.check = .ok () ↔
    (s.name.isSome = true → ∀ m ∈ s.selection.matchers, m.name ≠ nameLabel) ∧
      (s.name = none → ∃ m ∈ s.selection.matchers, m.matchesEmpty = false) := by
  unfold check
  cases s.name with
  | none =>
      cases hall : s.selection.matchers.all Matcher.matchesEmpty <;>
        simp_all [require]
  | some name =>
      cases hfind : s.selection.matchers.find? fun m => m.name = nameLabel with
      | none => simpa using hfind
      | some m =>
          have hm := List.find?_some hfind
          simp only [decide_eq_true_eq] at hm
          simp only [reduceCtorEq, Option.isSome_some, forall_const, false_implies, and_true,
            false_iff, not_forall, not_not]
          exact ⟨m, List.mem_of_find?_eq_some hfind, hm⟩

end Selector

namespace Timing

/-- The timing that the text of one denotes. -/
def again (t : Timing) : Timing where
  offset := t.offset.map fun o => { o with span := o.span.again }
  instant := t.instant.map Instant.again

end Timing

namespace Selector

/-- The selector that the text of one denotes. -/
def again (s : Selector) : Selector where
  name := s.name
  selection := s.selection.again
  timing := s.timing.again

/-- A selector that keeps the names of its conditions obeys the rules when it is read from its
text. -/
theorem check_again {s : Selector} (hcheck : s.check = .ok ())
    (hnames : s.selection.KeepsNames s.name) : s.again.check = .ok () := by
  rw [check_ok_iff] at hcheck ⊢
  refine ⟨fun hname n hn => ?_, fun hname => ?_⟩
  · rcases s.selection.again_names n hn with ⟨m, hm, hsame⟩ | ⟨groups, hany, first, hfirst, hn⟩
    · rw [hsame]
      exact hcheck.1 hname m hm
    · rw [hany] at hnames
      exact (hnames first hfirst n.name hn).2 hname
  · obtain ⟨m, hm, hempty⟩ := hcheck.2 hname
    have hmem : m.matchesEmpty ∈ s.selection.again.matchers.map Matcher.matchesEmpty :=
      s.selection.again_matches_empty.mem_iff.2 (List.mem_map_of_mem hm)
    obtain ⟨n, hn, hsame⟩ := List.mem_map.1 hmem
    exact ⟨n, hn, hsame.trans hempty⟩

end Selector

/-! ## Modifiers and groupings -/

namespace Modifier

/-- The modifier that the text of one denotes, without an empty list of ignored labels. -/
def again (m : Modifier) : Modifier :=
  { m with matching := m.matching.filter fun k => k ≠ .ignoring [] }

/-- A side with many series has a matching before it that is written. -/
def Stable (m : Modifier) : Prop :=
  m.group.isSome = true → m.matching ≠ some (.ignoring [])

/-- What is read from the text of a modifier has the same text. -/
theorem again_text (m : Modifier) : m.again.toText = m.toText := by
  have hmatching : matchingText m.again.matching = matchingText m.matching := by
    obtain ⟨bool, matching, group⟩ := m
    cases matching with
    | none => rfl
    | some k =>
        cases k with
        | on labels => rfl
        | ignoring labels => cases labels <;> rfl
  delta toText
  rw [hmatching]
  rfl

/-- What is read from the text of a stable modifier is read from its own text. -/
theorem Stable.again_plain {p : Text → Prop} {m : Modifier} (h : (Part.modifier m).Read p)
    (hstable : m.Stable) : (Part.modifier m.again).Plain := by
  have hkept : ∀ k ∈ m.again.matching, k ∈ m.matching ∧ k ≠ .ignoring [] := by
    simp [again]
  obtain ⟨hlabels, hgroup⟩ := h
  refine ⟨⟨fun l hl => ?_, fun hsome => ?_⟩, fun k hk => (hkept k hk).2⟩
  · rcases List.mem_append.1 hl with hl | hl
    · obtain ⟨k, hk, hl⟩ := List.mem_flatMap.1 hl
      have hk' := (hkept k (Option.mem_toList.1 hk)).1
      exact hlabels l (List.mem_append_left _
        (List.mem_flatMap.2 ⟨k, Option.mem_toList.2 hk', hl⟩))
    · exact hlabels l (List.mem_append_right _ hl)
  · obtain ⟨k, hk⟩ := Option.isSome_iff_exists.1 (hgroup hsome)
    have hne : k ≠ .ignoring [] := fun hk' => hstable hsome (hk' ▸ hk)
    simp [again, hk, hne]

end Modifier

namespace Grouping

/-- The labels of an aggregation that its text denotes, without an empty list of labels to keep. -/
def again (grouping : Option Grouping) : Option Grouping :=
  grouping.filter fun g => g ≠ .keeping []

/-- What is read from the text of the labels of an aggregation has the same text. -/
theorem again_text (grouping : Option Grouping) : toText (again grouping) = toText grouping := by
  cases grouping with
  | none => rfl
  | some g =>
      cases g with
      | keeping labels => cases labels <;> rfl
      | dropping labels => rfl

end Grouping

/-! ## All parts -/

namespace Part

/-- The part that the text of one denotes, if there is one. -/
def again? : Part → Option Part
  | .number value => some (.number value)
  | .string raw => some (.string raw)
  | .selector name selection => some (.selector name selection.again)
  | .span d => some (.span d.again)
  | .step d => d.stepAgain.map .step
  | .instant i => some (.instant i.again)
  | .modifier m => some (.modifier m.again)
  | .grouping g => (Grouping.again (some g)).map .grouping

/-- The text of the part denotes a part with the same text. -/
def Stable : Part → Prop
  | .number _ => True
  | .string raw => Token.Quotable raw
  | .selector name selection => (∀ m ∈ selection.matchers, Token.Quotable m.value) ∧
      selection.Stable name
  | .span d => d.Stable
  | .step d => d.toText = [] ∨ d.Stable
  | .instant i => i.Stable
  | .modifier m => m.Stable
  | .grouping _ => True

/-- What is read from the text of a stable part is read from its own text. -/
theorem Read.again_plain {p : Text → Prop} {part : Part} (hread : part.Read p)
    (hstable : part.Stable) : ∀ part' ∈ part.again?, part'.Plain := by
  intro part' hpart'
  cases part with
  | number value =>
      obtain rfl : Part.number value = part' := Option.some.inj hpart'
      exact ⟨hread, trivial⟩
  | string raw =>
      obtain rfl : Part.string raw = part' := Option.some.inj hpart'
      exact ⟨hstable, trivial⟩
  | selector name selection =>
      obtain rfl : Part.selector name selection.again = part' := Option.some.inj hpart'
      have hquotable := hread.2.with_values hstable.1
      exact ⟨⟨hread.1, hquotable.again hstable.2.keeps_names⟩, hstable.2.again_shown hquotable⟩
  | span d =>
      obtain rfl : Part.span d.again = part' := Option.some.inj hpart'
      exact ⟨trivial, hstable.again_shown⟩
  | step d =>
      simp only [again?, Duration.stepAgain, Option.mem_def, Option.map_eq_some_iff,
        Option.ite_none_left_eq_some, Option.some.injEq] at hpart'
      obtain ⟨d', ⟨hne, rfl⟩, rfl⟩ := hpart'
      have hspan : d.Stable := hstable.resolve_left hne
      exact ⟨trivial, hspan.again_shown⟩
  | instant i =>
      obtain rfl : Part.instant i.again = part' := Option.some.inj hpart'
      have hrange : i.InRange := hread
      exact ⟨hrange.again, hstable.again_shown⟩
  | modifier m =>
      obtain rfl : Part.modifier m.again = part' := Option.some.inj hpart'
      exact hstable.again_plain hread
  | grouping g =>
      simp only [again?, Grouping.again, Option.mem_def, Option.map_eq_some_iff,
        Option.filter_eq_some_iff, Option.some.injEq, ne_eq, decide_not, Bool.not_eq_eq_eq_not,
        Bool.not_true, decide_eq_false_iff_not] at hpart'
      obtain ⟨g', ⟨rfl, hne⟩, rfl⟩ := hpart'
      exact ⟨hread, hne⟩

end Part

end QueryTidy
