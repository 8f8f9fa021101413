import QueryTidy.Text.Utf8

/-!
# Plain text

Messages that do not go to a terminal carry no control sequences: `plain` leaves out the sequences
that begin with an escape character, and all control characters other than the ASCII blanks.
-/

namespace QueryTidy.Text

/-- What the characters that come next belong to. -/
inductive ControlState where
  /-- The text itself. -/
  | ground
  /-- A sequence of which only the escape character was seen. -/
  | escape
  /-- A short sequence of which intermediate characters were seen. -/
  | intermediate
  /-- A control sequence, which a character from `@` to `~` ends. -/
  | sequence
  /-- A string that is meant for the terminal. -/
  | string
  /-- A string that a bell ends as well. -/
  | command
  deriving DecidableEq, Repr

/-- An ASCII blank other than the space. -/
def isBlankControl (c : Char) : Bool :=
  c = '\t' || c = '\n' || c = '\x0c' || c = '\r'

/-- The character is kept in a text without control sequences. -/
def isKept (c : Char) : Bool :=
  isBlankControl c || (0x20 ≤ c.toNat && c.toNat ≠ 0x7F)

namespace ControlState

/-- The state after a character that every state treats alike, if it is one: an escape begins a new
sequence, and the characters for cancelling and substitution end any. -/
def interrupted? (c : Char) : Option ControlState :=
  if c = '\x1b' then some .escape
  else if c = '\x18' ∨ c = '\x1a' then some .ground
  else none

/-- The state after a character inside a sequence. -/
def next (s : ControlState) (c : Char) : ControlState :=
  match interrupted? c with
  | some s => s
  | none =>
      let n := c.toNat
      match s with
      | .ground => .ground
      | .escape =>
          if 0x20 ≤ n ∧ n ≤ 0x2F then .intermediate
          else if c = '[' then .sequence
          else if c = ']' then .command
          else if c = 'P' ∨ c = 'X' ∨ c = '^' ∨ c = '_' then .string
          else if 0x30 ≤ n ∧ n ≤ 0x7E then .ground
          else .escape
      | .intermediate => if 0x30 ≤ n ∧ n ≤ 0x7E then .ground else .intermediate
      | .sequence => if 0x40 ≤ n ∧ n ≤ 0x7E then .ground else .sequence
      | .string => if 0x9C ∈ Utf8.encodeChar c then .ground else .string
      | .command => if c = '\x07' then .ground else .command

/-- The character is kept where it stands: a blank inside a sequence is, but not inside a string. -/
def keeps (s : ControlState) (c : Char) : Bool :=
  match s with
  | .ground => isKept c
  | .escape => isBlankControl c
  | .intermediate => isBlankControl c
  | .sequence => isBlankControl c
  | .string => false
  | .command => false

end ControlState

/-- Leave out control sequences from the given state on. Once a character was kept (`keeping`),
those after it are text up to the next control character; only then does an unfinished sequence
go on. -/
def plainFrom (keeping : Bool) (s : ControlState) : Text → Text
  | [] => []
  | c :: rest =>
      let s := if keeping then (ControlState.interrupted? c).getD s else s
      if (if keeping then isKept c else s.keeps c) then
        c :: plainFrom true (if 0x80 ≤ c.toNat then .ground else s) rest
      else plainFrom false (s.next c) rest

/-- The text without control sequences and control characters. -/
def plain (t : Text) : Text :=
  plainFrom false .ground t

/-- A text of which every character is kept is plain. -/
theorem plain_eq_self {t : Text} (h : ∀ c ∈ t, isKept c = true) : plain t = t := by
  have go : ∀ (t : Text) (keeping : Bool), (∀ c ∈ t, isKept c = true) →
      plainFrom keeping .ground t = t := by
    intro t
    induction t with
    | nil => intro _ _; rfl
    | cons c rest ih =>
        intro keeping h
        have hc : isKept c = true := h c (by simp)
        have hi : ControlState.interrupted? c = none := by
          unfold ControlState.interrupted?
          have h1 : c ≠ '\x1b' := by rintro rfl; revert hc; decide
          have h2 : ¬(c = '\x18' ∨ c = '\x1a') := by
            rintro (rfl | rfl) <;> (revert hc; decide)
          simp [h1, h2]
        have hrest := ih true fun d hd => h d (by simp [hd])
        simp [plainFrom, hi, ControlState.keeps, hc, hrest]
  exact go t false h

end QueryTidy.Text
