import CBoundary.Lex.Fat

/-!
# Cleaning a text

A cleaner takes a text apart into runs of notes, literals and plain characters, and replaces
notes (and literals, if it is asked to) by a single space or by as many spaces as they are long.
-/

namespace CBoundary.Text

open CBoundary.Lex

/-- A piece of a text to be cleaned. -/
inductive Piece where
  | notes (chars : List Char)
  | literal (chars : List Char)
  | plain (char : Char)
  deriving DecidableEq, Repr

/-- Length of the longest run of findings of a rule. -/
def repeated (r : Rule) (s : List Char) : Nat :=
  match s with
  | [] => 0
  | c :: cs =>
    match r (c :: cs) with
    | 0 => 0
    | n + 1 => n + 1 + repeated r (cs.drop n)
termination_by s.length

/-- The pieces of a text for a given rule of notes. -/
def pieces (gap : Rule) (s : List Char) : List Piece :=
  match s with
  | [] => []
  | c :: cs =>
    match repeated gap (c :: cs) with
    | n + 1 => .notes (c :: cs.take n) :: pieces gap (cs.drop n)
    | 0 =>
      match Lex.literal (c :: cs) with
      | n + 1 => .literal (c :: cs.take n) :: pieces gap (cs.drop n)
      | 0 => .plain c :: pieces gap cs
termination_by s.length

/-- Every character but a line break becomes a space. -/
def blankOut (s : List Char) : List Char := s.map fun c => if c = '\n' then c else ' '

/-- Notes become spaces; nothing moves. -/
def blankNotes (s : List Char) : List Char :=
  (pieces note s).flatMap fun
    | .notes cs => blankOut cs
    | .literal cs => cs
    | .plain c => [c]

/-- Notes and literals become spaces; nothing moves. -/
def blankNotesAndLiterals (s : List Char) : List Char :=
  (pieces note s).flatMap fun
    | .notes cs => blankOut cs
    | .literal cs => blankOut cs
    | .plain c => [c]

/-- Each run of what the rule takes for notes becomes one space. -/
def collapse (gap : Rule) (s : List Char) : List Char :=
  (pieces gap s).flatMap fun
    | .notes _ => [' ']
    | .literal cs => cs
    | .plain c => [c]

/-- Each run of notes becomes one space. -/
def dropNotes (s : List Char) : List Char := collapse note s

/-- Each run of notes and white space becomes one space. -/
def compact (s : List Char) : List Char := collapse (firstOf [runLength isSpace, note]) s

/-- Comments of a replacement text become spaces; a number sign starts no note. -/
def blankComments (s : List Char) : List Char :=
  (pieces (firstOf [lineComment, blockComment]) s).flatMap fun
    | .notes cs => blankOut cs
    | .literal cs => cs
    | .plain c => [c]

end CBoundary.Text
