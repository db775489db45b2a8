/-!
# Patterns

A pattern is searched for in a text.  It is made of characters that stand for
themselves, a dot for any character but a line break, a circumflex for the start
of the text and a dollar sign for its end.  A plus sign repeats what it follows
once or more; a second one forbids to give any repetition back.
-/

namespace CBoundary.Text

namespace Pattern

/-- What one element of a pattern matches. -/
inductive Atom where
  | char (c : Char)
  | any
  | start
  | stop
  deriving DecidableEq, Repr

/-- How often an element is matched. -/
inductive Count where
  | once
  /-- Once or more. -/
  | several
  /-- Once or more, and as often as possible. -/
  | greedy
  deriving DecidableEq, Repr

/-- One element of a pattern. -/
structure Item where
  atom : Atom
  count : Count := .once
  deriving DecidableEq, Repr

/-- The atom that a character writes. -/
def Atom.ofChar : Char → Atom
  | '.' => any
  | '^' => start
  | '$' => stop
  | c => char c

/-- Does an atom match a character? -/
def Atom.accepts : Atom → Char → Bool
  | char c, d => c == d
  | any, d => d != '\n'
  | _, _ => false

/-- The elements of a written pattern. -/
def parse : List Char → List Item
  | [] => []
  | c :: '+' :: '+' :: cs => ⟨.ofChar c, .greedy⟩ :: parse cs
  | c :: '+' :: cs => ⟨.ofChar c, .several⟩ :: parse cs
  | c :: cs => ⟨.ofChar c, .once⟩ :: parse cs

/-- Is this the end of the text, or is only a line break left? -/
def atEnd (s : List Char) : Bool := s.isEmpty || s == ['\n']

/-- Does a pattern match at the front of a text, which is the start or not? -/
def matchesAt (isStart : Bool) (s : List Char) : List Item → Bool
  | [] => true
  | ⟨.start, _⟩ :: items => isStart && matchesAt isStart s items
  | ⟨.stop, _⟩ :: items => atEnd s && matchesAt isStart s items
  | ⟨atom, count⟩ :: items =>
    let run := (s.takeWhile atom.accepts).length
    match count with
    | .once => 0 < run && matchesAt false (s.drop 1) items
    | .several => (List.range run).any fun n => matchesAt false (s.drop (n + 1)) items
    | .greedy => 0 < run && matchesAt false (s.drop run) items

/-- Does a pattern match anywhere in the rest of a text? -/
def occursFrom (items : List Item) (isStart : Bool) : List Char → Bool
  | [] => matchesAt isStart [] items
  | c :: cs => matchesAt isStart (c :: cs) items || occursFrom items false cs

end Pattern

/-- Does a text contain a pattern? -/
def matchesPattern (pattern text : String) : Bool :=
  Pattern.occursFrom (Pattern.parse pattern.toList) true text.toList

end CBoundary.Text
