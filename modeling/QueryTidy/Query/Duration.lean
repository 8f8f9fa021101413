import QueryTidy.Number.Decimal

/-!
# Durations

A duration is a whole number of nanoseconds. It is written as a sequence of numbers with units, from
years down to milliseconds (`Duration.ofText`), or as a number of seconds (`Duration.ofSeconds?`),
and shown in the units again (`Duration.toText`).
-/

namespace QueryTidy

-- The power of natural numbers is that of the core library, also where monoids are known.
attribute [local instance (1100)] instPowNat

/-- A span of time in nanoseconds. -/
structure Duration where
  nanos : Nat
  deriving DecidableEq, Repr

/-- The units in which a duration is written, from the greatest to the least. -/
inductive TimeUnit where
  | year | week | day | hour | minute | second | millisecond
  deriving DecidableEq, Repr

namespace TimeUnit

/-- All units, in the order in which they are written. -/
def all : List TimeUnit :=
  [.year, .week, .day, .hour, .minute, .second, .millisecond]

/-- The letters of a unit. -/
def symbol : TimeUnit → Text
  | .year => ['y']
  | .week => ['w']
  | .day => ['d']
  | .hour => ['h']
  | .minute => ['m']
  | .second => ['s']
  | .millisecond => ['m', 's']

/-- The length of a unit in milliseconds; a year has 365 days. -/
def millis : TimeUnit → Nat
  | .year => 365 * 86400000
  | .week => 7 * 86400000
  | .day => 86400000
  | .hour => 3600000
  | .minute => 60000
  | .second => 1000
  | .millisecond => 1

/-- A unit is printed only as a whole when it is a year or a week; the other units take as much of
the rest as they can. -/
def needsExact : TimeUnit → Bool
  | .year => true
  | .week => true
  | _ => false

end TimeUnit

/-- Why a text denotes no duration. -/
inductive DurationError where
  | invalid (text : Text)
  | notPositive
  deriving DecidableEq, Repr

namespace DurationError

/-- The wording of the error. -/
def message : DurationError → Text
  | .invalid text => "not a valid duration string: ".toList ++ text
  | .notPositive => "duration must be greater than 0".toList

end DurationError

namespace Duration

/-- The duration of a number of milliseconds. -/
def ofMillis (n : Nat) : Duration :=
  ⟨n * 1000000⟩

/-- The whole milliseconds of a duration. -/
def millis (d : Duration) : Nat :=
  d.nanos / 1000000

/-- The digits of a part that counts: a number that needs more than 32 bits is worth nothing. -/
def partCount (digits : Text) : Nat :=
  if Text.toNat digits < 2 ^ (32 : Nat) then Text.toNat digits else 0

/-- Read parts, each a nonempty run of digits and a unit, whose units are among the given ones and
in that order. Every unit is tried once; the answer is the total in milliseconds. -/
def readParts : List TimeUnit → Text → Option Nat
  | [], text => if text = [] then some 0 else none
  | unit :: units, text =>
      let digits := text.takeWhile Text.isDigit
      let rest := text.dropWhile Text.isDigit
      let letters := rest.takeWhile fun c => !Text.isDigit c
      let rest := rest.dropWhile fun c => !Text.isDigit c
      if digits ≠ [] ∧ letters = unit.symbol then
        (readParts units rest).map (partCount digits * unit.millis + ·)
      else readParts units text

/-- Read a duration: parts in descending units, each unit at most once, with a positive total. -/
def ofText (text : Text) : Except DurationError Duration :=
  match readParts TimeUnit.all text with
  | none => .error (.invalid text)
  | some 0 => .error .notPositive
  | some n => .ok (ofMillis n)

/-- The parts in which an amount of milliseconds is shown, the given units being left. -/
def showParts : List TimeUnit → Nat → Text
  | [], _ => []
  | unit :: units, rest =>
      if rest ≠ 0 ∧ unit.millis ≤ rest ∧ (unit.needsExact → rest % unit.millis = 0) then
        Text.ofNat (rest / unit.millis) ++ unit.symbol ++ showParts units (rest % unit.millis)
      else showParts units rest

/-- A duration in its units. Fractions of a millisecond are not shown, so a positive duration below
one millisecond has an empty text. -/
def toText (d : Duration) : Text :=
  if d.nanos = 0 then "0s".toList else showParts TimeUnit.all d.millis

/-- A number of seconds as a duration, rounded to the nanosecond with a half going to the even
neighbour; `none` for numbers that are negative, not finite or at least `2 ^ 64`. -/
def ofSeconds? : Binary64 → Option Duration
  | .nan => none
  | .infinite _ => none
  | .finite negative m e =>
      let (num, den) := Binary64.fraction m e
      if negative ∧ m ≠ 0 then none
      else if 2 ^ (64 : Nat) * den ≤ num then none
      else some ⟨divHalfEven (num * 1000000000) den⟩

/-- The length in seconds as a double-precision number: the whole seconds and the rest are rounded
apart, then their sum is. -/
def seconds (d : Duration) : Binary64 :=
  match (Binary64.ofNat (d.nanos / 1000000000)).magnitude?,
      (Binary64.ofRatio false (d.nanos % 1000000000) 1000000000).magnitude? with
  | some whole, some rest => Binary64.addMagnitudes whole rest
  | _, _ => .nan

end Duration

end QueryTidy
