import QueryTidy.Proofs.Preview.Found
import QueryTidy.Proofs.Query.Endings
import QueryTidy.Proofs.Text.Numerals
import QueryTidy.Proofs.Text.Pieces
import Mathlib.Data.List.DropRight

/-!
# The grammar of versions

`GitVersion.Announced` is the grammar of what the version control system prints as its version: the
announcement, blanks, and a word whose first two pieces between dots are numerals of 32 bits. The
reader of versions follows it exactly (`GitVersion.parse_iff`), in the three layers of the grammar:
the first word of a text (`Text.first_word_iff`), the first two pieces of a word
(`Text.first_pieces_iff`) and the number of a piece (`GitVersion.number_iff`).
-/

namespace QueryTidy

namespace Text

/-! ## Words and pieces -/

/-- The word begins with two pieces, with a dot after the first one, and a dot or nothing more after
the second one. -/
def FirstPieces (word first second : Text) : Prop :=
  ∃ more, word = first ++ '.' :: (second ++ more) ∧ '.' ∉ first ∧ '.' ∉ second ∧
    ∀ c ∈ more.head?, c = '.'

/-- Cutting a word at its dots yields its first two pieces first. -/
theorem first_pieces_iff {word first second : Text} :
    (∃ pieces, splitAt (· == '.') word = first :: second :: pieces) ↔
      FirstPieces word first second := by
  have hnone : ∀ {t : Text}, '.' ∉ t → ∀ c ∈ t, (c == '.') = false := by
    intro t ht c hc
    exact beq_false_of_ne (ne_of_mem_of_not_mem hc ht)
  have hnot : ∀ {t : Text}, (∀ c ∈ t, (c == '.') = false) → '.' ∉ t := by
    intro t ht hmem
    exact absurd (ht '.' hmem) (by decide)
  constructor
  · rintro ⟨pieces, hpieces⟩
    obtain ⟨front, rest, rfl, hfront, hrest⟩ := exists_first_cut (· == '.') word
    rw [split_at_append hfront hrest] at hpieces
    obtain ⟨rfl, hfurther⟩ := List.cons.inj hpieces
    cases rest with
    | nil => cases hfurther
    | cons dot rest =>
        obtain rfl : dot = '.' := eq_of_beq (hrest dot rfl)
        obtain ⟨next, more, rfl, hnext, hmore⟩ := exists_first_cut (· == '.') rest
        rw [List.tail?_cons, Option.elim_some, split_at_append hnext hmore] at hfurther
        obtain ⟨rfl, -⟩ := List.cons.inj hfurther
        exact ⟨more, rfl, hnot hfront, hnot hnext, fun c hc => eq_of_beq (hmore c hc)⟩
  · rintro ⟨more, rfl, hfirst, hsecond, hmore⟩
    refine ⟨more.tail?.elim [] (splitAt (· == '.')), ?_⟩
    rw [split_at_append (hnone hfirst) (by simp), List.tail?_cons, Option.elim_some,
      split_at_append (hnone hsecond) fun c hc => beq_iff_eq.mpr (hmore c hc)]

/-- The first word of the text: it stands after blanks only and reaches up to a blank or the end. -/
def FirstWord (t word : Text) : Prop :=
  ∃ gap rest, t = gap ++ (word ++ rest) ∧ (∀ c ∈ gap, isBlank c = true) ∧ word ≠ [] ∧
    (∀ c ∈ word, isBlank c = false) ∧ ∀ c ∈ rest.head?, isBlank c = true

/-- Blanks in front of a text belong to no word. -/
theorem words_append_blanks {gap : Text} (hgap : ∀ c ∈ gap, isBlank c = true) (t : Text) :
    words (gap ++ t) = words t := by
  induction gap with
  | nil => rfl
  | cons c gap ih =>
      have hc : isBlank c = true := hgap c List.mem_cons_self
      rw [← ih fun d hd => hgap d (List.mem_cons_of_mem _ hd)]
      simp [words, splitAt, hc]

/-- The first word of a text is the first one of its words. -/
theorem first_word_iff {t word : Text} : (words t).head? = some word ↔ FirstWord t word := by
  have hhead : ∀ {word rest : Text}, word ≠ [] → (∀ c ∈ word, isBlank c = false) →
      (∀ c ∈ rest.head?, isBlank c = true) → (words (word ++ rest)).head? = some word := by
    intro word rest hne hword hrest
    rw [words, split_at_append hword hrest, List.filter_cons_of_pos (by simpa using hne)]
    rfl
  constructor
  · intro h
    obtain ⟨gap, tail, rfl, hgap, htail⟩ := exists_first_cut (!isBlank ·) t
    replace hgap : ∀ c ∈ gap, isBlank c = true := by simpa using hgap
    rw [words_append_blanks hgap] at h
    obtain ⟨first, rest, rfl, hfirst, hrest⟩ := exists_first_cut isBlank tail
    have hne : first ≠ [] := by
      rintro rfl
      -- A text that does not begin with a blank and has nothing in front of its first blank is
      -- empty.
      cases rest with
      | nil => cases h
      | cons c rest =>
          have hvisible : isBlank c = false := by simpa using htail c rfl
          rw [hrest c rfl] at hvisible
          cases hvisible
    rw [hhead hne hfirst hrest] at h
    obtain rfl : first = word := Option.some.inj h
    exact ⟨gap, rest, rfl, hgap, hne, hfirst, hrest⟩
  · rintro ⟨gap, rest, rfl, hgap, hne, hword, hrest⟩
    rw [words_append_blanks hgap]
    exact hhead hne hword hrest

/-- Trimming the end of a text takes nothing off before its last visible character. -/
theorem trim_end_append (front rest : Text) {c : Char} (hc : isBlank c = false) :
    trimEnd (front ++ [c] ++ rest) = front ++ [c] ++ trimEnd rest := by
  have hreverse : (front ++ [c] ++ rest).reverse = rest.reverse ++ c :: front.reverse := by simp
  have hstop : (c :: front.reverse).dropWhile isBlank = c :: front.reverse :=
    List.dropWhile_cons_of_neg (by simp [hc])
  unfold trimEnd dropEndWhile
  rw [hreverse, List.dropWhile_append, hstop]
  split
  · rename_i hempty
    rw [List.isEmpty_iff.mp hempty]
    simp
  · simp

/-- Trimming the end of a text leaves a beginning of it. -/
theorem trim_end_prefix (t : Text) : trimEnd t <+: t :=
  List.rdropWhile_prefix isBlank t

end Text

namespace GitVersion

/-! ## Versions -/

/-- The text is a numeral of 32 bits for the number: digits, zeros in front included, after an
optional plus sign. -/
def IsNumeral (t : Text) (n : Nat) : Prop :=
  ∃ digits, (t = digits ∨ t = '+' :: digits) ∧ digits ≠ [] ∧ (∀ c ∈ digits, Text.isDigit c = true) ∧
    Text.toNat digits = n ∧ n < 2 ^ 32

/-- The text announces the version: after the announcement, the first word begins with the numerals
of its two numbers. -/
def Announced (t : Text) (v : GitVersion) : Prop :=
  ∃ rest word major minor, t = announcement ++ rest ∧ Text.FirstWord rest word ∧
    Text.FirstPieces word major minor ∧ IsNumeral major v.major ∧ IsNumeral minor v.minor

/-- The numbers are read from their numerals. -/
theorem number_iff {t : Text} {n : Nat} : number? t = some n ↔ IsNumeral t n := by
  have hread : ∀ digits : Text,
      (if digits ≠ [] ∧ digits.all Text.isDigit ∧ Text.toNat digits < 2 ^ 32 then
        some (Text.toNat digits) else none) = some n ↔
      digits ≠ [] ∧ (∀ c ∈ digits, Text.isDigit c = true) ∧ Text.toNat digits = n ∧ n < 2 ^ 32 := by
    intro digits
    constructor
    · intro h
      split at h
      · rename_i hdigits
        cases h
        exact ⟨hdigits.1, List.all_eq_true.mp hdigits.2.1, rfl, hdigits.2.2⟩
      · cases h
    · rintro ⟨hne, hdigits, rfl, hless⟩
      rw [if_pos ⟨hne, List.all_eq_true.mpr hdigits, hless⟩]
  have hplus : ∀ {rest : Text}, ¬∀ c ∈ '+' :: rest, Text.isDigit c = true := by
    intro rest hdigits
    exact absurd (hdigits '+' List.mem_cons_self) (by decide)
  unfold number? IsNumeral
  dsimp only
  split
  · rename_i rest
    rw [hread]
    constructor
    · exact fun h => ⟨rest, .inr rfl, h⟩
    · rintro ⟨digits, rfl | hsign, h⟩
      · exact absurd h.2.1 hplus
      · obtain ⟨-, rfl⟩ := List.cons.inj hsign
        exact h
  · rename_i hnosign
    rw [hread]
    constructor
    · exact fun h => ⟨t, .inl rfl, h⟩
    · rintro ⟨digits, rfl | hsign, h⟩
      · exact h
      · exact absurd hsign (hnosign digits)

/-- The reader of versions follows the grammar. -/
theorem parse_iff {printed : Text} {v : GitVersion} :
    parse? printed = some v ↔ Announced (Text.trim printed) v := by
  unfold parse? Announced
  simp only [bind, pure, Option.bind_eq_some_iff, Text.dropStart?_eq_some_iff]
  constructor
  · rintro ⟨rest, hrest, word, hword, h⟩
    split at h
    · rename_i major minor pieces hpieces
      obtain ⟨a, ha, h⟩ := Option.bind_eq_some_iff.mp h
      obtain ⟨b, hb, h⟩ := Option.bind_eq_some_iff.mp h
      obtain rfl : GitVersion.mk a b = v := Option.some.inj h
      exact ⟨rest, word, major, minor, hrest, Text.first_word_iff.mp hword,
        Text.first_pieces_iff.mp ⟨pieces, hpieces⟩, number_iff.mp ha, number_iff.mp hb⟩
    · cases h
  · rintro ⟨rest, word, major, minor, hrest, hword, hpieces, hmajor, hminor⟩
    obtain ⟨pieces, hsplit⟩ := Text.first_pieces_iff.mpr hpieces
    refine ⟨rest, hrest, word, Text.first_word_iff.mpr hword, ?_⟩
    rw [hsplit]
    exact Option.bind_eq_some_iff.mpr ⟨v.major, number_iff.mpr hmajor,
      Option.bind_eq_some_iff.mpr ⟨v.minor, number_iff.mpr hminor, rfl⟩⟩

/-- The decimal numeral of a number of 32 bits is one of its numerals. -/
theorem is_numeral_of_nat {n : Nat} (h : n < 2 ^ 32) : IsNumeral (Text.ofNat n) n :=
  ⟨Text.ofNat n, .inl rfl, Text.of_nat_ne_nil n, fun _ hc => Text.of_nat_digits hc,
    Text.to_nat_of_nat n, h⟩

/-- A version and a suffix that does not go on with its second number announce the version. -/
theorem announced_of_suffix {a b : Nat} (ha : a < 2 ^ 32) (hb : b < 2 ^ 32) {suffix : Text}
    (hsuffix : ∀ c ∈ suffix.head?, c = '.' ∨ Text.isBlank c = true) :
    Announced (announcement ++ (Text.ofNat a ++ '.' :: (Text.ofNat b ++ suffix))) ⟨a, b⟩ := by
  have hdigit : ∀ {n : Nat} {c : Char}, c ∈ Text.ofNat n → Text.isBlank c = false ∧ c ≠ '.' := by
    intro n c hc
    have hd := Text.of_nat_digits hc
    refine ⟨digit_visible hd, ?_⟩
    rintro rfl
    exact absurd hd (by decide)
  obtain ⟨more, rest, rfl, hmore, hrest⟩ := Text.exists_first_cut Text.isBlank suffix
  refine ⟨_, Text.ofNat a ++ '.' :: (Text.ofNat b ++ more), Text.ofNat a, Text.ofNat b, rfl,
    ⟨[], rest, by simp, by simp, by simp, ?_, hrest⟩, ⟨more, rfl, ?_, ?_, ?_⟩,
    is_numeral_of_nat ha, is_numeral_of_nat hb⟩
  · have hdot : Text.isBlank '.' = false := by decide
    intro c hc
    simp only [List.mem_append, List.mem_cons] at hc
    rcases hc with hc | rfl | hc | hc
    · exact (hdigit hc).1
    · exact hdot
    · exact (hdigit hc).1
    · exact hmore c hc
  · exact fun hmem => (hdigit hmem).2 rfl
  · exact fun hmem => (hdigit hmem).2 rfl
  · intro c hc
    cases more with
    | nil => cases hc
    | cons d more =>
        obtain rfl : d = c := Option.some.inj hc
        rcases hsuffix d rfl with hdot | hblank
        · exact hdot
        · rw [hmore d List.mem_cons_self] at hblank
          cases hblank

/-- Trimming a text that begins with an announced version leaves a text that does. -/
theorem trim_version (a b : Nat) (suffix : Text) : ∃ left, left <+: suffix ∧
    Text.trim (announcement ++ (Text.ofNat a ++ '.' :: (Text.ofNat b ++ suffix))) =
      announcement ++ (Text.ofNat a ++ '.' :: (Text.ofNat b ++ left)) := by
  refine ⟨Text.trimEnd suffix, Text.trim_end_prefix suffix, ?_⟩
  obtain ⟨front, d, hlast⟩ : ∃ front d, Text.ofNat b = front ++ [d] :=
    ⟨_, _, (List.dropLast_concat_getLast (Text.of_nat_ne_nil b)).symm⟩
  have hd : Text.isBlank d = false := by
    refine digit_visible (Text.of_nat_digits (n := b) ?_)
    rw [hlast]
    simp
  have hstart : ∀ t : Text, Text.trimStart (announcement ++ t) = announcement ++ t := fun _ => rfl
  rw [Text.trim, hstart, hlast]
  have hgroup : ∀ t : Text, announcement ++ (Text.ofNat a ++ '.' :: (front ++ [d] ++ t)) =
      announcement ++ (Text.ofNat a ++ '.' :: front) ++ [d] ++ t := by simp
  rw [hgroup, hgroup, Text.trim_end_append _ _ hd]

/-- A version is read off the text that announces it, whatever follows its second number, as long as
it does not go on with it. -/
theorem parse_of_suffix {a b : Nat} (ha : a < 2 ^ 32) (hb : b < 2 ^ 32) {suffix : Text}
    (hsuffix : ∀ c ∈ suffix.head?, c = '.' ∨ Text.isBlank c = true) :
    parse? (announcement ++ (Text.ofNat a ++ '.' :: (Text.ofNat b ++ suffix))) = some ⟨a, b⟩ := by
  obtain ⟨left, ⟨cut, hleft⟩, htrim⟩ := trim_version a b suffix
  rw [parse_iff, htrim]
  refine announced_of_suffix ha hb fun c hc => hsuffix c ?_
  rw [← hleft, List.head?_append, Option.mem_def.mp hc]
  rfl

end GitVersion

namespace Availability

variable {tools : Toolset}

/-- The version control system is found if it is executable, exits with 0 when it is asked for its
version, and announces version 2.42 or a later one. -/
theorem found_git_iff_announced :
    (found tools).git = true ↔ ∃ tool v, tools.git = some (.executable tool) ∧
      tool.versionExit = .code 0 ∧
      GitVersion.Announced (Text.trim (Utf8.decodeLossy tool.version)) v ∧
      (2 < v.major ∨ v.major = 2 ∧ 42 ≤ v.minor) := by
  rw [found_git_iff]
  constructor
  · rintro ⟨tool, htool, hexit, v, hv, hleast⟩
    exact ⟨tool, v, htool, hexit, GitVersion.parse_iff.mp hv, hleast⟩
  · rintro ⟨tool, v, htool, hexit, hv, hleast⟩
    exact ⟨tool, htool, hexit, v, GitVersion.parse_iff.mpr hv, hleast⟩

/-- A release that is not older than one that can be used can be used as well. -/
theorem found_git_mono {newer : Toolset} {tool other : ToolBehavior} {v w : GitVersion}
    (hold : tools.git = some (.executable tool))
    (hv : GitVersion.Announced (Text.trim (Utf8.decodeLossy tool.version)) v)
    (hnew : newer.git = some (.executable other)) (hexit : other.versionExit = .code 0)
    (hw : GitVersion.Announced (Text.trim (Utf8.decodeLossy other.version)) w)
    (hle : v.major < w.major ∨ v.major = w.major ∧ v.minor ≤ w.minor)
    (h : (found tools).git = true) : (found newer).git = true := by
  obtain ⟨tool', v', htool, -, hv', hleast⟩ := found_git_iff_announced.mp h
  rw [hold] at htool
  cases htool
  have hsame : v' = v :=
    Option.some.inj ((GitVersion.parse_iff.mpr hv').symm.trans (GitVersion.parse_iff.mpr hv))
  subst hsame
  exact found_git_iff_announced.mpr ⟨other, w, hnew, hexit, hw, by omega⟩

end Availability

open GitVersion (announcement)

/-- The version is read by the grammar of announcements, and no other text has one: what the program
prints is decoded and trimmed, and two numbers of 32 bits are read off exactly when they are
announced. So every version is read that stands after the announcement and in front of a dot, a
blank or the end. The version control system counts as found exactly when it is executable, exits
with 0 after printing its version, and announces version 2.42 or a later one, and this depends on
the version monotonically. -/
theorem git_version_grammar (tools : Toolset) :
    (∀ (printed : Bytes) (v : GitVersion),
      GitVersion.parse? (Utf8.decodeLossy printed) = some v ↔
        GitVersion.Announced (Text.trim (Utf8.decodeLossy printed)) v) ∧
    (∀ (a b : Nat) (suffix : Text), a < 2 ^ 32 → b < 2 ^ 32 →
      (∀ c ∈ suffix.head?, c = '.' ∨ Text.isBlank c = true) →
      GitVersion.parse? (announcement ++ (Text.ofNat a ++ '.' :: (Text.ofNat b ++ suffix))) =
        some ⟨a, b⟩) ∧
    (∀ t : Tree, ((Availability.probe tools).run t).result = .finished (Availability.found tools)) ∧
    ((Availability.found tools).git = true ↔ ∃ tool v, tools.git = some (.executable tool) ∧
      tool.versionExit = .code 0 ∧
      GitVersion.Announced (Text.trim (Utf8.decodeLossy tool.version)) v ∧
      (2 < v.major ∨ v.major = 2 ∧ 42 ≤ v.minor)) ∧
    ∀ (newer : Toolset) (tool other : ToolBehavior) (v w : GitVersion),
      tools.git = some (.executable tool) →
      GitVersion.Announced (Text.trim (Utf8.decodeLossy tool.version)) v →
      newer.git = some (.executable other) → other.versionExit = .code 0 →
      GitVersion.Announced (Text.trim (Utf8.decodeLossy other.version)) w →
      (v.major < w.major ∨ v.major = w.major ∧ v.minor ≤ w.minor) →
      (Availability.found tools).git = true → (Availability.found newer).git = true := by
  refine ⟨fun printed v => GitVersion.parse_iff, ?_, ?_, Availability.found_git_iff_announced, ?_⟩
  · intro a b suffix ha hb hsuffix
    exact GitVersion.parse_of_suffix ha hb hsuffix
  · intro t
    obtain ⟨logs, hrun, -⟩ := Availability.probe_run tools
    rw [hrun]
  · intro newer tool other v w hold hv hnew hexit hw hle h
    exact Availability.found_git_mono hold hv hnew hexit hw hle h

/-- Version 2.39 from a vendor is read, a plus sign and zeros in front do not matter, 2.42-rc1 is no
version, and a later release than one that can be used can be used. -/
theorem versions_of_releases :
    let behavior (version : String) : ToolBehavior :=
      .echoing (Utf8.encode version.toList) (.code 0) (.code 0)
    let tools (version : String) : Toolset := ⟨none, some (.executable (behavior version))⟩
    GitVersion.parse? "git version 2.39 (Apple Git-145)".toList = some ⟨2, 39⟩ ∧
      GitVersion.parse? (Utf8.decodeLossy (Utf8.encode "git version +2.042.windows\n".toList)) =
        some ⟨2, 42⟩ ∧
      (∀ v, ¬GitVersion.Announced
        (Text.trim (Utf8.decodeLossy (Utf8.encode "git version 2.42-rc1".toList))) v) ∧
      (Availability.found (tools "git version 2.43.0")).git = true ∧
      (Availability.found (tools "git version 3.0.0")).git = true := by
  intro behavior tools
  have hread : ∀ version v, GitVersion.parse? (Utf8.decodeLossy (Utf8.encode version)) = some v →
      GitVersion.Announced (Text.trim (Utf8.decodeLossy (Utf8.encode version))) v := by
    intro version v h
    exact ((git_version_grammar (tools "")).1 _ v).mp h
  have hold : (Availability.found (tools "git version 2.43.0")).git = true := by decide +kernel
  refine ⟨?_, by decide +kernel, ?_, hold, ?_⟩
  · refine (git_version_grammar (tools "")).2.1 2 39 " (Apple Git-145)".toList (by decide)
      (by decide) fun c hc => ?_
    obtain rfl : ' ' = c := Option.some.inj hc
    exact .inr (by decide)
  · intro v hv
    have hnone : GitVersion.parse?
        (Utf8.decodeLossy (Utf8.encode "git version 2.42-rc1".toList)) = none := by decide +kernel
    rw [((git_version_grammar (tools "")).1 _ v).mpr hv] at hnone
    cases hnone
  · refine (git_version_grammar (tools "git version 2.43.0")).2.2.2.2 (tools "git version 3.0.0")
      (behavior "git version 2.43.0") (behavior "git version 3.0.0") ⟨2, 43⟩ ⟨3, 0⟩ rfl
      (hread _ _ ?_) rfl rfl (hread _ _ ?_) (by decide) hold
    all_goals decide +kernel

end QueryTidy
