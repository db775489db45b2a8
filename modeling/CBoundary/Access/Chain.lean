import CBoundary.Token.Basic

/-!
# Access chains

An access chain is an operand followed by member accesses without a gap, as in `a->b.c[0]` or
`(x ? y : z)->b`.  Chains are found by reading the operand first, from left to right, or by
looking for the accesses and reading backwards for the operand, which also finds the chains
inside brackets.
-/

namespace CBoundary

open CBoundary.Text

/-- A chain of member accesses. -/
structure AccessChain where
  /-- The operand: a name or a parenthesised expression. -/
  name : String
  members : List (String × Span)
  span : Span
  deriving DecidableEq, Repr, Inhabited

namespace AccessChain

/-- The display of a chain, on one line. -/
def display (c : AccessChain) : String :=
  String.ofList (c.name.toList.map fun x => if x = '\n' then ' ' else x) ++ "->" ++
    ".".intercalate (c.members.map Prod.fst)

/-! ## Links -/

/-- An arrow or a dot, a name, and the calls and indexes behind it. -/
structure Link where
  accessor : Nat
  name : List Char
  suffixes : List (List Char)
  deriving DecidableEq, Repr

/-- How many characters a list of pieces has. -/
def total (l : List (List Char)) : Nat := l.flatten.length

/-- The length of a link. -/
def Link.length (l : Link) : Nat := l.accessor + l.name.length + total l.suffixes

/-- The calls and indexes at the front of a text. -/
def suffixesAt (s : List Char) : List (List Char) :=
  match s with
  | [] => []
  | c :: cs =>
    match Lex.firstOf [Lex.code.blockLength '(', Lex.code.blockLength '['] (c :: cs) with
    | 0 => []
    | n + 1 => (c :: cs.take n) :: suffixesAt (cs.drop n)
termination_by s.length

/-- The name at the front of a text; empty if there is none. -/
def nameAt (s : List Char) : List Char :=
  if s.head?.any isNameStart then s.takeWhile isWordChar else []

/-- The arrow or the dot at the front of a text, by its length. -/
def accessorAt : List Char → Nat
  | '-' :: '>' :: _ => 2
  | '.' :: _ => 1
  | _ => 0

/-- The link at the front of a text. -/
def linkAt? (s : List Char) : Option Link :=
  let n := accessorAt s
  let name := nameAt (s.drop n)
  if n = 0 || name.isEmpty then none
  else some ⟨n, name, suffixesAt (s.drop (n + name.length))⟩

/-- The links at the front of a text, one right after the other. -/
def linksAt (s : List Char) : List Link :=
  match s with
  | [] => []
  | c :: cs =>
    match linkAt? (c :: cs) with
    | none => []
    | some l => l :: linksAt (cs.drop (l.length - 1))
termination_by s.length

/-- The length of several links. -/
def linksLength (ls : List Link) : Nat := ls.foldl (fun n l => n + l.length) 0

/-- The members that links access. -/
def membersOf (pos : Int) : List Link → List (String × Span)
  | [] => []
  | l :: ls =>
    let start := pos + l.accessor
    (String.ofList l.name, ⟨start, start + l.name.length⟩) :: membersOf (pos + l.length) ls

/-- The calls and indexes of links with their positions. -/
def suffixesOf (pos : Int) : List Link → List (Int × List Char)
  | [] => []
  | l :: ls =>
    let start := pos + l.accessor + l.name.length
    (l.suffixes.foldl (fun (acc : List (Int × List Char) × Int) x =>
      (acc.1 ++ [(acc.2, x)], acc.2 + x.length)) ([], start)).1 ++ suffixesOf (pos + l.length) ls

/-! ## From left to right -/

/-- Is it in parentheses, its text, and its length with calls and indexes. -/
structure Operand where
  isExpression : Bool
  name : List Char
  length : Nat
  deriving DecidableEq, Repr

/-- The operand at the front of a text. -/
def operandAt? (s : List Char) : Option Operand :=
  let name := nameAt s
  if !name.isEmpty then
    some ⟨false, name, name.length + total (suffixesAt (s.drop name.length))⟩
  else
    let n := Lex.code.blockLength '(' s
    if n ≤ 2 then none else some ⟨true, s.take n, n⟩

/-- The chain at the front of a text: the operand and the links. -/
def chainAt? (s : List Char) : Option (Operand × List Link) :=
  (operandAt? s).bind fun o =>
    match linksAt (s.drop o.length) with
    | [] => none
    | ls => some (o, ls)

/-- Every chain found from left to right, with the position of its operand. -/
def findings (pos : Nat) (s : List Char) : List (Nat × Operand × List Link) :=
  match s with
  | [] => []
  | c :: cs =>
    match chainAt? (c :: cs) with
    | none => findings (pos + 1) cs
    | some (o, ls) =>
      let n := o.length + linksLength ls
      (pos, o, ls) :: findings (pos + n) (cs.drop (n - 1))
termination_by s.length

/-- The chains of a text from left to right, also inside parentheses. Spans count from the start of
the text in which a chain was found. -/
def scan (offset : Int) (s : List Char) : List AccessChain :=
  (findings 0 s).flatMap fun (pos, o, ls) =>
    let chain : AccessChain :=
      { name := String.ofList o.name
        members := membersOf (pos + o.length) ls
        span := ⟨offset + pos, offset + pos + o.length + linksLength ls⟩ }
    let inside := interior o.name
    chain :: (if _h : o.isExpression ∧ inside.length < s.length then
      scan (offset + pos + 1) inside else [])
termination_by s.length
decreasing_by exact _h.2

/-! ## From the accesses backwards -/

/-- Links found in a text: where they stand, and what stands before them, read
backwards. -/
structure Run where
  pos : Nat
  before : List Char
  links : List Link
  deriving Repr

/-- Every run of links in a text. -/
def runs (pos : Nat) (before : List Char) (s : List Char) : List Run :=
  match s with
  | [] => []
  | c :: cs =>
    match linksAt (c :: cs) with
    | [] => runs (pos + 1) (c :: before) cs
    | l :: ls =>
      let n := linksLength (l :: ls)
      ⟨pos, before, l :: ls⟩ ::
        runs (pos + n) (((c :: cs).take n).reverse ++ before) (cs.drop (n - 1))
termination_by s.length

/-- A token found backwards, and its position. -/
structure Holder where
  pos : Nat
  chars : List Char
  deriving DecidableEq, Repr

/-- The name of the function called with arguments that stand at a position. -/
def callee? (pos : Nat) (before : List Char) : Option Holder :=
  match before with
  | [] => none
  | c :: cs =>
    match Lex.codeBack.tokenLength (c :: cs) with
    | 0 => none
    | n + 1 =>
      let chars := (c :: cs.take n).reverse
      match Kind.ofText (String.ofList chars) with
      | .space | .comment | .directive | .bracket => callee? (pos - (n + 1)) (cs.drop n)
      | .word => some ⟨pos - (n + 1), chars⟩
      | _ => none
termination_by before.length

/-- The operand of links; arguments in parentheses lead to the function's name. -/
def holder? (pos : Nat) (before : List Char) : Option Holder :=
  match before with
  | [] => none
  | c :: cs =>
    match Lex.codeBack.tokenLength (c :: cs) with
    | 0 => none
    | n + 1 =>
      let found : Holder := ⟨pos - (n + 1), (c :: cs.take n).reverse⟩
      match Kind.ofText (String.ofList found.chars) with
      | .space | .comment | .directive | .bracket | .brace => holder? found.pos (cs.drop n)
      | .word => some found
      | .paren => (callee? found.pos (cs.drop n)) <|> some found
      | _ => none
termination_by before.length

/-- The chains of a text, found backwards from their accesses; each is followed by those inside its
operand, calls and indexes. -/
def scanBack (offset : Int) (s : List Char) : List AccessChain :=
  (runs 0 [] s).flatMap fun r =>
    match holder? r.pos r.before with
    | none => []
    | some h =>
      let pos := offset + r.pos
      let chain : AccessChain :=
        { name := String.ofList h.chars
          members := membersOf pos r.links
          span := ⟨offset + h.pos, pos + linksLength r.links⟩ }
      let inside := interior h.chars
      chain ::
        (if _h : h.chars.head? = some '(' ∧ inside.length < s.length then
          scanBack (offset + h.pos + 1) inside else []) ++
        (suffixesOf pos r.links).flatMap fun (start, suffix) =>
          let inside := interior suffix
          if _h : inside.length < s.length then scanBack (start + 1) inside else []
termination_by s.length
decreasing_by
  · exact _h.2
  · exact _h

end AccessChain

end CBoundary
