import QueryTidy.Files.Path
import QueryTidy.Proofs.Text.Pieces
import Mathlib.Data.List.Basic
import Mathlib.Logic.Relation

/-!
# Paths with the same components

Two paths have the same components if one is made of the other by steps of a `Path.Respelling`:
repeated slashes, a dot inside or at the end, and a slash at the end are put in or left out
(`Path.same_iff_respelled`). Soundness goes through what components are made of: whether the path is
absolute, whether it begins with a dot, and its names other than dots (`Path.same_iff_names`).
Completeness goes through the shortest spelling of components, `Path.spell`, which every path has as
a respelling.
-/

namespace QueryTidy.Path

/-- A step from one spelling of a path to another. -/
inductive Respelling : Path → Path → Prop
  /-- A slash is repeated. -/
  | slash (a b : Path) : Respelling (a ++ slash :: slash :: b) (a ++ slash :: b)
  /-- A dot stands between slashes. -/
  | innerDot (a b : Path) : Respelling (a ++ slash :: (dot ++ slash :: b)) (a ++ slash :: b)
  /-- A dot stands after the last slash. -/
  | finalDot (a : Path) : Respelling (a ++ slash :: dot) (a ++ [slash])
  /-- A slash stands at the end, and something before it. -/
  | finalSlash (a : Path) : a ≠ [] → Respelling (a ++ [slash]) a

/-- One path is another one with repeated slashes, dots inside or at the end, or a slash at the end
put in or left out. -/
def Respelled (p q : Path) : Prop :=
  Relation.EqvGen Respelling p q

/-- A relative path that begins with a dot as its first name. -/
def beginsHere (p : Path) : Bool :=
  !isAbsolute p && (names p).head? = some dot

/-- The names other than dots. -/
def properNames (p : Path) : List Bytes :=
  (names p).filter fun n => n ≠ dot

variable {p q : Path} {n : Bytes}

/-! ## What components are made of -/

/-- The components are those of the beginning and of the names other than dots. -/
theorem parts_eq (p : Path) :
    parts p = (if isAbsolute p then [.root] else if beginsHere p then [.here] else []) ++
      (properNames p).map partOfName := by
  unfold parts beginsHere properNames
  cases isAbsolute p with
  | true => rfl
  | false =>
      by_cases h : (names p).head? = some dot
      · simp [h]
      · simp [h]

/-- Different names are different components. -/
theorem part_of_name_injective : Function.Injective partOfName := by
  intro m n h
  unfold partOfName at h
  split at h <;> split at h
  · simp [*]
  · cases h
  · cases h
  · exact Part.name.inj h

/-- Names are neither the root nor the dot at the beginning. -/
theorem part_of_name_ne (n : Bytes) : partOfName n ≠ .root ∧ partOfName n ≠ .here := by
  unfold partOfName
  split <;> exact ⟨nofun, nofun⟩

/-- Two paths have the same components if both are absolute or neither is, both begin with a dot or
neither does, and they have the same names other than dots, byte for byte. -/
theorem same_iff_names :
    same p q = true ↔ isAbsolute p = isAbsolute q ∧ beginsHere p = beginsHere q ∧
      properNames p = properNames q := by
  have hnames : ∀ {l m : List Bytes}, l.map partOfName = m.map partOfName ↔ l = m := fun {l m} =>
    (List.map_injective_iff.mpr part_of_name_injective).eq_iff
  have hroot : ∀ {l : List Bytes} {rest : List Part}, l.map partOfName ≠ .root :: rest := by
    intro l rest h
    obtain ⟨n, -, -, hn, -⟩ := List.map_eq_cons_iff.mp h
    exact (part_of_name_ne n).1 hn
  have hhere : ∀ {l : List Bytes} {rest : List Part}, l.map partOfName ≠ .here :: rest := by
    intro l rest h
    obtain ⟨n, -, -, hn, -⟩ := List.map_eq_cons_iff.mp h
    exact (part_of_name_ne n).2 hn
  have habsolute : ∀ {r : Path}, isAbsolute r = true → beginsHere r = false := by
    intro r hr
    rw [beginsHere, hr]
    rfl
  rw [same, decide_eq_true_eq, parts_eq, parts_eq]
  cases hp : isAbsolute p <;> cases hq : isAbsolute q
  · cases hp' : beginsHere p <;> cases hq' : beginsHere q <;>
      simp [hnames, hhere, hhere.symm]
  · cases hp' : beginsHere p <;> simp [hroot]
  · cases hq' : beginsHere q <;> simp [hroot.symm]
  · simp [habsolute hp, habsolute hq, hnames]

/-! ## Names -/

/-- A slash lies between the names before it and the names after it. -/
theorem names_append_slash (a b : Path) : names (a ++ slash :: b) = names a ++ names b := by
  rw [names, Text.split_at_append_cons (by decide), List.filter_append]
  rfl

/-- A stretch without slashes is one name, unless it is empty. -/
theorem names_of_no_slash (h : slash ∉ n) : names n = if n = [] then [] else [n] := by
  rw [names, Text.split_at_of_none fun b hb => beq_false_of_ne (ne_of_mem_of_not_mem hb h)]
  cases n <;> rfl

/-- There is a name in a path that begins with something else than a slash. -/
theorem names_ne_nil (hne : p ≠ []) (h : isAbsolute p = false) : names p ≠ [] := by
  obtain ⟨front, rest, rfl, hfront, hrest⟩ := Text.exists_first_cut (· == slash) p
  rw [names, Text.split_at_append hfront hrest, List.filter_cons_of_pos]
  · exact List.cons_ne_nil _ _
  · cases front with
    | cons b front => rfl
    | nil =>
        cases rest with
        | nil => exact absurd rfl hne
        | cons b rest =>
            rw [isAbsolute, decide_eq_false_iff_not] at h
            exact absurd (congrArg some (eq_of_beq (hrest b rfl))) h

/-- What follows a slash does not count for how the path begins. -/
theorem begins_append_slash (a b : Path) :
    isAbsolute (a ++ slash :: b) = isAbsolute (a ++ [slash]) ∧
      beginsHere (a ++ slash :: b) = beginsHere (a ++ [slash]) := by
  cases a with
  | nil => exact ⟨rfl, rfl⟩
  | cons c a =>
      refine ⟨rfl, ?_⟩
      have hsame : ∀ d, isAbsolute (c :: a ++ slash :: d) = isAbsolute (c :: a) := fun _ => rfl
      simp only [beginsHere, hsame, names_append_slash]
      cases habsolute : isAbsolute (c :: a) with
      | true => rfl
      | false =>
          obtain ⟨n, more, hnames⟩ :=
            List.exists_cons_of_ne_nil (names_ne_nil (List.cons_ne_nil c a) habsolute)
          rw [hnames]
          rfl

/-- Every step keeps the components. -/
theorem Respelling.same (h : Respelling p q) : same p q = true := by
  rw [same_iff_names]
  have hdot : names dot = [dot] := by decide
  have hnil : names [] = [] := rfl
  cases h with
  | slash a b =>
      obtain ⟨habsolute, hhere⟩ := begins_append_slash a (Path.slash :: b)
      obtain ⟨habsolute', hhere'⟩ := begins_append_slash a b
      have hnames : names (Path.slash :: b) = names b := names_append_slash [] b
      refine ⟨habsolute.trans habsolute'.symm, hhere.trans hhere'.symm, ?_⟩
      rw [properNames, properNames, names_append_slash, names_append_slash, hnames]
  | innerDot a b =>
      obtain ⟨habsolute, hhere⟩ := begins_append_slash a (dot ++ Path.slash :: b)
      obtain ⟨habsolute', hhere'⟩ := begins_append_slash a b
      refine ⟨habsolute.trans habsolute'.symm, hhere.trans hhere'.symm, ?_⟩
      rw [properNames, properNames, names_append_slash, names_append_slash, names_append_slash,
        hdot]
      simp
  | finalDot a =>
      obtain ⟨habsolute, hhere⟩ := begins_append_slash a dot
      refine ⟨habsolute, hhere, ?_⟩
      rw [properNames, properNames, names_append_slash, names_append_slash, hdot, hnil]
      simp
  | finalSlash a hne =>
      obtain ⟨c, a, rfl⟩ := List.exists_cons_of_ne_nil hne
      have hnames : names (c :: a ++ [Path.slash]) = names (c :: a) := by
        rw [names_append_slash, hnil, List.append_nil]
      refine ⟨rfl, ?_, ?_⟩
      · rw [beginsHere, beginsHere, hnames]
        rfl
      · rw [properNames, properNames, hnames]

/-! ## The shortest spelling -/

/-- Each of the names after a slash. -/
def tail (names : List Bytes) : Path :=
  names.flatMap fun n => Path.slash :: n

/-- The names that are left out of a path: the empty one and the dot. -/
def isIdle (n : Bytes) : Bool :=
  n = [] || n = dot

/-- The name of a component. -/
def Part.text : Part → Bytes
  | .root => []
  | .here => dot
  | .parent => dotDot
  | .name n => n

/-- The shortest spelling of components. -/
def spell : List Part → Path
  | [] => []
  | [.root] => [slash]
  | part :: parts => part.text ++ tail (parts.map Part.text)

/-- The name of the component of a name. -/
theorem text_part_of_name (n : Bytes) : (partOfName n).text = n := by
  unfold partOfName
  split
  · simp [Part.text, *]
  · rfl

/-- The names of the components of names. -/
theorem map_text_part_of_name (l : List Bytes) : (l.map partOfName).map Part.text = l := by
  have htext : Part.text ∘ partOfName = id := funext text_part_of_name
  rw [List.map_map, htext, List.map_id]

/-- Components are spelled one after the other, but for a single root. -/
theorem spell_cons {part : Part} {parts : List Part} (h : part ≠ .root ∨ parts ≠ []) :
    spell (part :: parts) = part.text ++ tail (parts.map Part.text) := by
  unfold spell
  split
  · cases ‹_ = []›
  · simp_all
  · cases ‹_ = _›
    rfl

/-- Every path is a first name and names after slashes. -/
theorem exists_names (p : Path) :
    ∃ first rest, p = first ++ tail rest ∧ slash ∉ first ∧ ∀ n ∈ rest, slash ∉ n := by
  induction p with
  | nil => exact ⟨[], [], rfl, List.not_mem_nil, fun _ h => nomatch h⟩
  | cons b p ih =>
      obtain ⟨first, rest, rfl, hfirst, hrest⟩ := ih
      by_cases hb : b = slash
      · refine ⟨[], first :: rest, by rw [hb]; rfl, List.not_mem_nil, ?_⟩
        intro n hn
        rcases List.mem_cons.mp hn with rfl | hn
        · exact hfirst
        · exact hrest n hn
      · refine ⟨b :: first, rest, rfl, ?_, hrest⟩
        rw [List.mem_cons, not_or]
        exact ⟨Ne.symm hb, hfirst⟩

/-- The names of a path that is a first name and names after slashes. -/
theorem names_append_tail {first : Bytes} {rest : List Bytes} (hfirst : slash ∉ first)
    (hrest : ∀ n ∈ rest, slash ∉ n) :
    names (first ++ tail rest) = (first :: rest).filter fun n => !n.isEmpty := by
  induction rest generalizing first with
  | nil =>
      rw [tail, List.flatMap_nil, List.append_nil, names_of_no_slash hfirst]
      cases first <;> rfl
  | cons n rest ih =>
      have htail : tail (n :: rest) = slash :: (n ++ tail rest) := rfl
      rw [htail, names_append_slash, names_of_no_slash hfirst,
        ih (hrest n List.mem_cons_self) fun m hm => hrest m (List.mem_cons_of_mem _ hm)]
      cases first <;> rfl

/-- An idle name can be left out in front of others. -/
theorem respelled_idle (a : Path) (hn : isIdle n = true) {rest : List Bytes} (hrest : rest ≠ []) :
    Respelled (a ++ tail (n :: rest)) (a ++ tail rest) := by
  obtain ⟨m, more, rfl⟩ := List.exists_cons_of_ne_nil hrest
  simp only [isIdle, Bool.or_eq_true, decide_eq_true_eq] at hn
  rcases hn with rfl | rfl
  · exact .rel _ _ (.slash a (m ++ tail more))
  · exact .rel _ _ (.innerDot a (m ++ tail more))

/-- A slash may be what is left of an idle name at the end. -/
theorem respelled_last_idle (a : Path) (hn : isIdle n = true) :
    Respelled (a ++ tail [n]) (a ++ [slash]) := by
  simp only [isIdle, Bool.or_eq_true, decide_eq_true_eq] at hn
  rcases hn with rfl | rfl
  · exact .refl _
  · exact .rel _ _ (.finalDot a)

/-- Idle names can be left out after something. -/
theorem respelled_tail {a : Path} (hne : a ≠ []) (rest : List Bytes) :
    Respelled (a ++ tail rest) (a ++ tail (rest.filter fun n => !isIdle n)) := by
  induction rest generalizing a with
  | nil => exact .refl _
  | cons n rest ih =>
      cases hn : isIdle n with
      | true =>
          rw [List.filter_cons_of_neg (by simp [hn])]
          cases rest with
          | nil =>
              refine .trans _ _ _ (respelled_last_idle a hn) (.rel _ _ ?_)
              rw [List.filter_nil, tail, List.flatMap_nil, List.append_nil]
              exact .finalSlash a hne
          | cons m rest => exact .trans _ _ _ (respelled_idle a hn (List.cons_ne_nil _ _)) (ih hne)
      | false =>
          rw [List.filter_cons_of_pos (by simp [hn])]
          have hcons : ∀ l, a ++ tail (n :: l) = a ++ slash :: n ++ tail l := by
            intro l
            simp [tail]
          rw [hcons, hcons]
          exact ih (by simp)

/-- Idle names can be left out after a slash at the beginning. -/
theorem respelled_root {rest : List Bytes} (hne : rest ≠ []) :
    Respelled (tail rest) (spell (.root :: (rest.filter fun n => !isIdle n).map partOfName)) := by
  induction rest with
  | nil => exact absurd rfl hne
  | cons n rest ih =>
      cases hn : isIdle n with
      | true =>
          rw [List.filter_cons_of_neg (by simp [hn])]
          cases rest with
          | nil => exact respelled_last_idle [] hn
          | cons m rest =>
              exact .trans _ _ _ (respelled_idle [] hn (List.cons_ne_nil _ _))
                (ih (List.cons_ne_nil _ _))
      | false =>
          rw [List.filter_cons_of_pos (by simp [hn])]
          rw [List.map_cons, spell_cons (.inr (List.cons_ne_nil _ _)), ← List.map_cons,
            map_text_part_of_name]
          exact respelled_tail (a := slash :: n) (List.cons_ne_nil _ _) rest

/-- Every path is a respelling of the shortest spelling of its components. -/
theorem respelled_spell (p : Path) : Respelled p (spell (parts p)) := by
  obtain ⟨first, rest, rfl, hfirst, hrest⟩ := exists_names p
  have hnames := names_append_tail hfirst hrest
  have hproper : properNames (first ++ tail rest) =
      if isIdle first then rest.filter fun n => !isIdle n
      else first :: rest.filter fun n => !isIdle n := by
    rw [properNames, hnames, List.filter_filter]
    have hidle : ∀ n : Bytes, (decide (n ≠ dot) && !n.isEmpty) = !isIdle n := by
      intro n
      cases n <;> simp [isIdle]
    simp only [hidle, List.filter_cons]
    cases isIdle first <;> rfl
  rw [parts_eq, hproper]
  cases first with
  | nil =>
      have hidle : isIdle [] = true := rfl
      cases rest with
      | nil => exact .refl _
      | cons n rest => exact respelled_root (List.cons_ne_nil n rest)
  | cons b first =>
      have hrelative : isAbsolute (b :: first ++ tail rest) = false := by
        refine decide_eq_false fun h => hfirst ?_
        rw [← Option.some.inj h]
        exact List.mem_cons_self
      have hhere : beginsHere (b :: first ++ tail rest) = decide (b :: first = dot) := by
        rw [beginsHere, hrelative, hnames]
        simp
      have hidle : isIdle (b :: first) = decide (b :: first = dot) := by simp [isIdle]
      rw [hrelative, hhere, hidle]
      by_cases hdot : b :: first = dot
      · simp only [hdot, decide_true, Bool.false_eq_true, ↓reduceIte, List.singleton_append]
        have hne : Part.here ≠ Part.root := nofun
        rw [spell_cons (.inl hne), map_text_part_of_name]
        exact respelled_tail (List.cons_ne_nil _ _) rest
      · simp only [hdot, decide_false, Bool.false_eq_true, ↓reduceIte, List.nil_append,
          List.map_cons]
        rw [spell_cons (.inl (part_of_name_ne _).1), map_text_part_of_name, text_part_of_name]
        exact respelled_tail (List.cons_ne_nil _ _) rest

/-- Paths have the same components exactly if one is a respelling of the other. -/
theorem same_iff_respelled : same p q = true ↔ Respelled p q := by
  constructor
  · intro h
    rw [same, decide_eq_true_eq] at h
    have hq := respelled_spell q
    rw [← h] at hq
    exact .trans _ _ _ (respelled_spell p) (.symm _ _ hq)
  · intro h
    rw [same, decide_eq_true_eq]
    induction h with
    | rel p q hstep => exact of_decide_eq_true hstep.same
    | refl p => rfl
    | symm p q _ ih => exact ih.symm
    | trans p q r _ _ first second => exact first.trans second

end QueryTidy.Path
