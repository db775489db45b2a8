import CBoundary.Text.Basic

/-!
# Fat tokens

A rule looks at the front of a text and answers with the length of what it finds there, or with
zero.  The rules that read from right to left take the reversed text before a position.  A fat token
is a leaf, or a whole bracketed block: an opener, a run of fat tokens, which takes as many as it
can, and the matching closer.
-/

namespace CBoundary.Lex

open CBoundary.Text

/-! ## Leaves -/

/-- A rule gives the length of what it finds at the front of a text, zero for
nothing. -/
abbrev Rule := List Char → Nat

/-- The first rule that finds something decides. -/
def firstOf : List Rule → Rule
  | [], _ => 0
  | r :: rs, s =>
    match r s with
    | 0 => firstOf rs s
    | n + 1 => n + 1

/-- Adds the length of an opener to a rule's finding. -/
def opened (opener found : Nat) : Nat := if found = 0 then 0 else opener + found

/-! ## Reading forwards -/

/-- What stands in front of a stop. -/
def escapedRun (stop : Char) : Rule
  | [] => 0
  | [c] => if c = '\\' ∨ c = stop then 0 else 1
  | c :: d :: cs =>
    if c = '\\' then 2 + escapedRun stop cs
    else if c = stop then 0
    else 1 + escapedRun stop (d :: cs)

/-- Such a run with the `stop` that must end it. -/
def closedRun (stop : Char) (s : List Char) : Nat :=
  let n := escapedRun stop s
  if (s.drop n).head? = some stop then n + 1 else 0

/-- A comment that ends with its line. -/
def lineComment : Rule
  | c :: d :: cs => if c = '/' ∧ d = '/' then opened 2 (closedRun '\n' cs) else 0
  | _ => 0

/-- A directive, up to and including its line break; a backslash pair does not
end it. -/
def directive : Rule
  | c :: cs => if c = '#' then opened 1 (closedRun '\n' cs) else 0
  | [] => 0

/-- Length of the inside of a block comment: a star goes with its right neighbour but a slash. -/
def commentRun : Rule
  | [] => 0
  | [c] => if c = '*' then 0 else 1
  | c :: d :: cs =>
    if c = '*' then (if d = '/' then 0 else 2 + commentRun cs)
    else 1 + commentRun (d :: cs)

/-- A comment between `/*` and `*/`. -/
def blockComment : Rule
  | c :: d :: cs =>
    if c = '/' ∧ d = '*' then
      let n := commentRun cs
      if (cs.drop n).take 2 = ['*', '/'] then n + 4 else 0
    else 0
  | _ => 0

/-- A literal between two marks of the same kind. -/
def quoted (mark : Char) : Rule
  | c :: cs => if c = mark then opened 1 (closedRun mark cs) else 0
  | [] => 0

/-- A string literal or a character literal. -/
def literal : Rule := firstOf [quoted '\"', quoted '\'']

/-- A single line break. -/
def lineBreak : Rule
  | c :: _ => if c = '\n' then 1 else 0
  | [] => 0

/-- Blanks inside a line. -/
def blanks : Rule := runLength isBlank

/-- A backslash with the character after it. -/
def escape : Rule
  | c :: _ :: _ => if c = '\\' then 2 else 0
  | _ => 0

/-- A word. -/
def word : Rule := runLength isWordChar

/-- The first spelling that the text starts with. -/
def spelling (spellings : List (List Char)) : Rule := fun s =>
  match spellings.find? (·.isPrefixOf s) with
  | some op => op.length
  | none => 0

/-- The operators as they are tried; an exclamation mark is taken alone. -/
def operators : List (List Char) :=
  [",", ";", "?", ":", "!", "~", "<<=", ">>=",
   "++", "--", "->", "<<", ">>", "<=", ">=", "==", "!=",
   "&&", "||", "+=", "-=", "*=", "/=", "%=", "&=", "^=", "|=",
   ".", "+", "-", "*", "&", "/", "%", "<", ">", "^", "|", "=", "@"].map String.toList

/-- An operator. -/
def operator : Rule := spelling operators

/-! ## Reading backwards

The argument is the reversed text before a position, so that its head is the
character just left of the position. -/

/-- Length of the longest run of plain characters and backslash pairs behind a `mark`. -/
def escapedReach? (mark : Char) : List Char → Option Nat
  | [] => none
  | [c] => if c = mark then some 0 else none
  | c :: d :: cs =>
    if c ≠ '\\' ∧ c ≠ mark then (escapedReach? mark (d :: cs)).map (· + 1)
    else
      match if d = '\\' then escapedReach? mark cs else none with
      | some n => some (n + 2)
      | none => if c = mark then some 0 else none

/-- A literal that ends here. -/
def quotedBack (mark : Char) : Rule
  | c :: cs =>
    if c = mark then
      match escapedReach? mark cs with
      | some n => n + 2
      | none => 0
    else 0
  | [] => 0

/-- Length of the inside of a block comment to the left; stars count in pairs. -/
def commentRunBack : Rule
  | [] => 0
  | [c] => if c = '*' then 0 else 1
  | c :: d :: cs =>
    if c = '*' then (if d = '*' then 2 + commentRunBack cs else 0)
    else 1 + commentRunBack (d :: cs)

/-- A block comment that ends here. -/
def blockCommentBack : Rule
  | c :: d :: cs =>
    if c = '/' ∧ d = '*' then
      let n := commentRunBack cs
      if (cs.drop n).take 2 = ['*', '/'] then n + 4 else 0
    else 0
  | _ => 0

/-- A character with a backslash on its left. -/
def escapeBack : Rule
  | _ :: d :: _ => if d = '\\' then 2 else 0
  | _ => 0

/-- An operator that ends here. -/
def operatorBack : Rule := spelling (operators.map List.reverse)

/-! ## Blocks -/

/-- The rules of a fat-token grammar in the order in which they are tried. -/
structure Grammar where
  early : Rule
  closer : Char → Option Char
  late : Rule

namespace Grammar

mutual

/-- Length of the fat token at the front of a text, zero if there is none. -/
def tokenLength (g : Grammar) (s : List Char) : Nat :=
  match s with
  | [] => 0
  | c :: cs =>
    match g.early (c :: cs) with
    | n + 1 => n + 1
    | 0 =>
      match g.closer c with
      | some d =>
        let n := g.runLength cs
        if (cs.drop n).head? = some d then n + 2 else g.late (c :: cs)
      | none => g.late (c :: cs)
termination_by 2 * s.length

/-- Length of the longest run of fat tokens at the front of a text. -/
def runLength (g : Grammar) (s : List Char) : Nat :=
  match s with
  | [] => 0
  | c :: cs =>
    match g.tokenLength (c :: cs) with
    | 0 => 0
    | n + 1 => n + 1 + g.runLength (cs.drop n)
termination_by 2 * s.length + 1

end

/-- Length of a block with an opener, zero if there is none. -/
def blockLength (g : Grammar) (opener : Char) : Rule
  | c :: cs => if c = opener then g.tokenLength (c :: cs) else 0
  | [] => 0

end Grammar

/-- A piece of a text and where it starts. -/
structure Lexeme where
  start : Nat
  chars : List Char
  deriving DecidableEq, Repr

/-- Position just after a lexeme. -/
def Lexeme.stop (l : Lexeme) : Nat := l.start + l.chars.length

/-- Every finding of a rule from left to right. -/
def findings (r : Rule) (start : Nat) (s : List Char) : List Lexeme :=
  match s with
  | [] => []
  | c :: cs =>
    match r (c :: cs) with
    | 0 => findings r (start + 1) cs
    | n + 1 => ⟨start, c :: cs.take n⟩ :: findings r (start + n + 1) (cs.drop n)
termination_by s.length

/-- The closer of a bracket. -/
def closerOf : Char → Option Char
  | '(' => some ')'
  | '[' => some ']'
  | '\x7b' => some '\x7d'
  | _ => none

/-- The opener of a bracket. -/
def openerOf : Char → Option Char
  | ')' => some '('
  | ']' => some '['
  | '\x7d' => some '\x7b'
  | _ => none

/-- Comments and directives. -/
def note : Rule := firstOf [directive, lineComment, blockComment]

/-- The fat tokens of C text. -/
def code : Grammar where
  early := firstOf [note, literal]
  closer := closerOf
  late := firstOf [lineBreak, blanks, escape, operator, word]

/-- The fat tokens of C text from right to left; notes that end with their line are not seen. -/
def codeBack : Grammar where
  early := firstOf [blockCommentBack, quotedBack '\"', quotedBack '\'']
  closer := openerOf
  late := firstOf [lineBreak, blanks, escapeBack, operatorBack, word]

/-- The fat token that ends at a position, by its bounds. -/
def tokenBefore? (s : List Char) (stop : Nat) : Option (Nat × Nat) :=
  let stop := min stop s.length
  match codeBack.tokenLength (s.take stop).reverse with
  | 0 => none
  | n + 1 => some (stop - (n + 1), stop)

end CBoundary.Lex
