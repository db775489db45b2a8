/-!
# Texts, character classes and spans

A text is a list of characters, and every offset counts characters.  The character classes that
the C grammar uses are ASCII classes.  The offsets of a span are integers, because a base offset
may be of either sign.
-/

namespace CBoundary.Text

/-- Letters, digits and the underscore of ASCII. -/
def isWordChar (c : Char) : Bool := c.isAlphanum || c == '_'

/-- A letter of ASCII or the underscore. -/
def isNameStart (c : Char) : Bool := c.isAlpha || c == '_'

/-- The six white space characters of ASCII. -/
def isSpace (c : Char) : Bool :=
  c == ' ' || c == '\t' || c == '\n' || c == '\r' || c == '\x0b' || c == '\x0c'

/-- Blanks inside a line. -/
def isBlank (c : Char) : Bool := c == ' ' || c == '\t' || c == '\r'

/-- White space of all scripts. -/
def isSpaceOfAnyScript (c : Char) : Bool :=
  let n := c.toNat
  (9 ≤ n && n ≤ 13) || (28 ≤ n && n ≤ 32) || n == 0x85 || n == 0xa0 || n == 0x1680 ||
    (0x2000 ≤ n && n ≤ 0x200a) || n == 0x2028 || n == 0x2029 || n == 0x202f || n == 0x205f ||
    n == 0x3000

/-- The text without the white space at its ends. -/
def trim (s : List Char) : List Char :=
  ((s.dropWhile isSpaceOfAnyScript).reverse.dropWhile isSpaceOfAnyScript).reverse

/-- Does a word character stand here? -/
def wordAt (c : Option Char) : Bool := c.any isWordChar

/-- Exactly one of two neighbours is a word character. -/
def isBoundary (left right : Option Char) : Bool := wordAt left != wordAt right

/-- Length of the longest leading run. -/
def runLength (p : Char → Bool) (s : List Char) : Nat := (s.takeWhile p).length

/-- Is the text an identifier of at least two characters?  One line break may
follow it. -/
def isLongName : List Char → Bool
  | [] => false
  | c :: cs =>
    isNameStart c &&
      match cs.dropWhile isWordChar with
      | [] => !cs.isEmpty
      | [d] => d == '\n' && cs.length != 1
      | _ => false

/-! ## Slices with signed bounds -/

/-- A signed bound counts from the end when it is negative, and is kept inside
the text. -/
def clampBound (length : Nat) (i : Int) : Nat :=
  if i < 0 then (i + length).toNat else min i.toNat length

/-- The characters from one bound up to another; empty when they cross. -/
def slice (s : List Char) (start stop : Int) : List Char :=
  let i := clampBound s.length start
  let j := clampBound s.length stop
  (s.drop i).take (j - i)

/-- The characters from a bound to the end. -/
def sliceFrom (s : List Char) (start : Int) : List Char := s.drop (clampBound s.length start)

/-- The text between its first and its last character. -/
def interior (s : List Char) : List Char := (s.drop 1).dropLast

/-- The string without its first and its last character. -/
def interiorOf (s : String) : String := String.ofList (interior s.toList)

/-! ## Lines and columns -/

/-- Every line break becomes a single line feed. -/
def unifyLineBreaks : List Char → List Char
  | [] => []
  | [c] => [if c = '\r' then '\n' else c]
  | c :: d :: cs =>
    if c = '\r' then
      if d = '\n' then '\n' :: unifyLineBreaks cs else '\n' :: unifyLineBreaks (d :: cs)
    else c :: unifyLineBreaks (d :: cs)

/-- One plus the number of line breaks before a position. -/
def lineNumber (s : List Char) (pos : Option Int) : Nat :=
  let before := match pos with
    | none => s
    | some p => s.take (clampBound s.length p)
  before.count '\n' + 1

/-- Index of the last element that satisfies `p`. -/
def lastIndexOf? (p : Char → Bool) (s : List Char) : Option Nat :=
  (s.reverse.findIdx? p).map fun i => s.length - 1 - i

/-- Column of a position, from the line break before it, or from one on the first line. -/
def columnNumber (s : List Char) (pos : Option Int) : Int :=
  let before := match pos with
    | none => s
    | some p => s.take (clampBound s.length p)
  let p := pos.getD s.length
  match lastIndexOf? (· == '\n') before with
  | some i => p - i + 1
  | none => p + 1

end CBoundary.Text

namespace CBoundary

/-! ## Spans -/

/-- A range of character offsets. -/
structure Span where
  start : Int
  stop : Int
  deriving DecidableEq, Repr, Inhabited

namespace Span

/-- The span moved by an offset. -/
def shift (s : Span) (offset : Int) : Span := ⟨s.start + offset, s.stop + offset⟩

/-- The span without its two ends. -/
def interior (s : Span) : Span := ⟨s.start + 1, s.stop - 1⟩

@[simp] theorem shift_zero (s : Span) : s.shift 0 = s := by
  cases s; simp [shift]

@[simp] theorem shift_shift (s : Span) (a b : Int) : (s.shift a).shift b = s.shift (a + b) := by
  cases s; simp [shift, Int.add_assoc]

end Span

end CBoundary
