import CBoundary.Lex.Fat

/-!
# Fat tokens of replacement texts

In the replacement text of a macro a number sign is an operator, alone or twice.  A block there is
found if there is any way to read its inside as tokens.  The table of a text is built from the
right, so that every end is looked at once.
-/

namespace CBoundary.Lex.Replacement

/-- The operators of replacement texts, as they are tried. -/
def operators : List (List Char) :=
  [",", ";", "?", ":", "!", "~", "<<=", ">>=", "##",
   "++", "--", "->", "<<", ">>", "<=", ">=", "==", "!=",
   "&&", "||", "+=", "-=", "*=", "/=", "%=", "&=", "^=", "|=",
   "#", ".", "+", "-", "*", "&", "/", "%", "<", ">", "^", "|", "=", "@"].map String.toList

/-- What can start at one end of a text. -/
structure Rung where
  /-- Lengths of the tokens that can start here, the preferred one first. -/
  tokens : List Nat
  /-- For each closer, the length of a run of tokens and the closer. -/
  closings : List (Char × Nat)
  deriving Repr

/-- Length of a run of tokens that ends with a closer. -/
def Rung.closing? (r : Rung) (d : Char) : Option Nat := r.closings.lookup d

/-- Length of a block, given the rung just inside it. -/
def blockLength (c : Char) (inside : Option Rung) : Nat :=
  match closerOf c with
  | none => 0
  | some d => ((inside.bind fun r => r.closing? d).map (· + 1)).getD 0

/-- One rung for each end of a text, the whole text first. -/
def table : List Char → List Rung
  | [] => [⟨[], []⟩]
  | c :: cs =>
    let below := table cs
    let s := c :: cs
    let tokens := ([lineComment s, blockComment s, literal s, blockLength c below.head?,
      lineBreak s, blanks s, escape s, spelling operators s, word s]).filter (· != 0)
    let closings := [')', ']', '\x7d'].filterMap fun d =>
      let viaToken := tokens.findSome? fun n =>
        ((below[n - 1]?).bind fun r => r.closing? d).map fun m => n + m
      let found := match viaToken with
        | some n => some n
        | none => if c = d then some 1 else none
      found.map fun n => (d, n)
    ⟨tokens, closings⟩ :: below

/-- The tokens of a text by its table; what starts none is passed over. -/
def walk (start skip : Nat) : List Char → List Rung → List Lexeme
  | c :: cs, r :: rs =>
    match skip with
    | k + 1 => walk (start + 1) k cs rs
    | 0 =>
      match r.tokens.head? with
      | some n => ⟨start, (c :: cs).take n⟩ :: walk (start + 1) (n - 1) cs rs
      | none => walk (start + 1) 0 cs rs
  | _, _ => []

/-- The fat tokens of a replacement text. -/
def scan (s : List Char) : List Lexeme := walk 0 0 s (table s)

/-- Do the tokens cover the text without a gap? -/
def isWellformedFrom (s : List Char) (offset : Nat) : List Lexeme → Bool
  | [] => offset == s.length
  | l :: ls => if l.start != offset then false else isWellformedFrom s l.stop ls

/-- Do the tokens of a replacement text leave no gap? -/
def isWellformed (s : List Char) : Bool := isWellformedFrom s 0 (scan s)

/-- Puts the pieces of a text between tokens, from an offset on, behind those already found. -/
def gapsFrom (s : List Char) (offset : Nat) (found : List (List Char)) :
    List Lexeme → List (List Char)
  | [] => if offset != s.length then found ++ [s.drop offset] else found
  | l :: ls =>
    gapsFrom s l.stop
      (if l.start != offset then found ++ [(s.take l.start).drop offset] else found) ls

/-- The pieces of a replacement text that belong to no token. -/
def gaps (s : List Char) : List (List Char) := gapsFrom s 0 [] (scan s)

end CBoundary.Lex.Replacement
