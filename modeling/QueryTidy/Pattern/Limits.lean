import QueryTidy.Pattern.Basic

/-!
# Well-formed patterns

Three conditions on a syntax tree beyond its grammar: it is not nested too deeply, it never leaves
the encodings of texts where Unicode is switched off, and its expansion is not too large.
-/

namespace QueryTidy

namespace CharSet

mutual
/-- How deeply brackets, unions and set operations are nested. -/
def depth : CharSet → Nat
  | .bracketed _ inner => depth inner + 1
  | .union items => depthAll items + 1
  | .combined left right => max (depth left) (depth right) + 1
  | _ => 0

/-- The greatest depth in a list. -/
def depthAll : List CharSet → Nat
  | [] => 0
  | s :: ss => max (depth s) (depthAll ss)
end

/-- The character is an ASCII character, so that it is one byte. -/
def asciiOnly (c : PatternChar) : Bool :=
  c.char.toNat < 0x80

mutual
/-- The set stands for ASCII characters only when Unicode is switched off. A negated set never
does. -/
def isAscii : CharSet → Bool
  | .empty => true
  | .single c => asciiOnly c
  | .range low high => asciiOnly low && asciiOnly high
  | .named negated => !negated
  | .bracketed negated inner => !negated && isAscii inner
  | .union items => allAscii items
  | .combined left right => isAscii left && isAscii right

/-- Every set of the list stands for ASCII characters only. -/
def allAscii : List CharSet → Bool
  | [] => true
  | s :: ss => isAscii s && allAscii ss
end

end CharSet

namespace Pattern

/-- The greatest depth of nesting that is accepted. -/
def greatestDepth : Nat := 250

mutual
/-- How deeply groups, repetitions, sequences, choices and brackets are nested. -/
def depth : Pattern → Nat
  | .brackets _ inner => inner.depth + 1
  | .repeated _ _ inner => depth inner + 1
  | .group _ inner => depth inner + 1
  | .concat parts => depthAll parts + 1
  | .choice branches => depthAll branches + 1
  | _ => 0

/-- The greatest depth in a list. -/
def depthAll : List Pattern → Nat
  | [] => 0
  | p :: ps => max (depth p) (depthAll ps)
end

mutual
/-- Check a pattern that is read with Unicode switched on or off: where it is off, nothing may match
a byte beyond ASCII other than as part of a written character. The answer is the state of the switch
after the pattern, or `none` when the check fails; a group restores the state before it. -/
def unicodeAfter? (unicode : Bool) : Pattern → Option Bool
  | .flags change => some (change.apply .unicode unicode)
  | .char c => if unicode || !c.byte || CharSet.asciiOnly c then some unicode else none
  | .dot => if unicode then some unicode else none
  | .brackets negated inner =>
      if unicode || (!negated && inner.isAscii) then some unicode else none
  | .repeated _ _ inner => unicodeAfter? unicode inner
  | .group change inner =>
      let inside := match change with
        | some change => change.apply .unicode unicode
        | none => unicode
      (unicodeAfter? inside inner).map fun _ => unicode
  | .concat parts => unicodeAfterAll? unicode parts
  | .choice branches => unicodeAfterAll? unicode branches
  | _ => some unicode

/-- Check the patterns of a list in order. -/
def unicodeAfterAll? (unicode : Bool) : List Pattern → Option Bool
  | [] => some unicode
  | p :: ps =>
      match unicodeAfter? unicode p with
      | some unicode => unicodeAfterAll? unicode ps
      | none => none
end

/-- The greatest size of an expanded pattern, in bytes of the states that it needs. -/
def greatestSize : Nat := 10 * 1024 * 1024

mutual
/-- The size of the pattern with its repetitions written out. It stands for the size of the
automaton that a pattern is compiled to, in bytes. A byte of a character takes a state, which has 32
bytes; a dot takes the states of all encodings; brackets count as a few states, whatever is between
them; and a repetition, a group and a choice need some of their own. Close to the greatest size
these numbers decide nothing: the automaton may have somewhat fewer bytes or somewhat more. -/
def size : Pattern → Nat
  | .char c => 32 * Text.charBytes c.char
  | .dot => 370
  | .brackets _ _ => 40
  | .assertion _ => 32
  | .repeated least none inner => size inner * max least 1 + 40
  | .repeated least (some most) inner => size inner * max least most + 40 * (most - least)
  | .group _ inner => size inner + 64
  | .concat parts => sizeAll parts
  | .choice branches => sizeAll branches + 32
  | _ => 0

/-- The sizes of the patterns of a list together. -/
def sizeAll : List Pattern → Nat
  | [] => 0
  | p :: ps => size p + sizeAll ps
end

/-- All three conditions. -/
def wellFormed (p : Pattern) : Bool :=
  p.depth ≤ greatestDepth && (p.unicodeAfter? true).isSome && p.size ≤ greatestSize

end Pattern

end QueryTidy
