import CBoundary.Lex.Replacement
import CBoundary.Statement.Basic
import CBoundary.Text.Clean

/-!
# Macros

A macro has a name, parameters if it is function-like, and a replacement text, which tells
whether it is a constant, whether its brackets match, and which type a leading cast gives it.
-/

namespace CBoundary

/-- What a replacement text tells. -/
structure MacroTraits where
  isConst : Bool
  isWellformed : Bool
  unbalanced : String
  type : List Token
  deriving Repr, Inhabited

/-- A macro definition. -/
structure MacroDecl where
  name : Token
  /-- The parameters of a function-like macro. -/
  args : Option (List Token) := none
  body : Option Token := none
  preComment : Option Token := none
  isVariadic : Bool := false
  /-- Is the replacement text constant?  Not known before it was looked at. -/
  isConst? : Option Bool := none
  /-- Does the replacement text leave no gap?  Believed until it is looked at. -/
  isWellformed : Bool := true
  /-- The gaps of the replacement text, once looked at. -/
  unbalanced? : Option String := none
  /-- Is there a leading cast?  Not known before the replacement text was looked at. -/
  hasType? : Option Bool := none
  /-- The type that a leading cast gives. -/
  type : List Token := []
  deriving Repr, Inhabited

namespace MacroDecl

/-- The pieces of a `#define` directive. -/
structure Define where
  name : Token
  args : Option (List Token)
  body : Token
  deriving Repr

/-- Is the character part of a parameter? -/
def isParameterChar (c : Char) : Bool := Text.isWordChar c || c == '.'

/-- The parameters between parentheses. -/
def parameters (s : List Char) (base : Int) : List Token :=
  (Token.ofLexemes base (Lex.findings (Text.runLength isParameterChar) 0 s)).map fun t =>
    { t with kind? := some .word }

/-- A backslash before a line break becomes a space. -/
def joinLines : List Char → List Char
  | [] => []
  | [c] => [c]
  | c :: d :: cs =>
    if c = '\\' ∧ d = '\n' then ' ' :: '\n' :: joinLines cs else c :: joinLines (d :: cs)

/-- Takes a `#define` directive apart: name, parameters directly behind it, and the rest. -/
def readDefine (t : Token) : Option Define :=
  let keyword := "#define".toList
  if !keyword.isPrefixOf t.chars then none
  else
    let afterKeyword := t.chars.drop keyword.length
    let gap := Text.runLength Text.isSpace afterKeyword
    let s := afterKeyword.drop gap
    let n := Text.runLength Text.isWordChar s
    if gap = 0 || n = 0 then none
    else
      let base := t.span.start
      let start := keyword.length + gap
      let afterName := s.drop n
      let inside := (afterName.drop 1).takeWhile (· != ')')
      let hasArgs := afterName.head? == some '(' &&
        ((afterName.drop 1).drop inside.length).head? == some ')'
      let argsLength := if hasArgs then inside.length + 2 else 0
      let rest := afterName.drop argsLength
      let blank := Text.runLength Text.isSpace rest
      let bodyStart := start + n + argsLength + blank
      some {
        name := ⟨0, ⟨base + start, base + start + n⟩, String.ofList (s.take n), some .word⟩
        args := if hasArgs then some (parameters inside (base + start + n + 1)) else none
        body := ⟨0, ⟨base + bodyStart, base + t.chars.length⟩, String.ofList (rest.drop blank), none⟩ }

/-- Names the variable parameters. -/
def nameVariadic (args : List Token) : List Token × Bool :=
  match args.getLast? with
  | some t =>
    if t.value == "..." then (args.dropLast ++ [{ t with value := "__VA_ARGS__" }], true)
    else (args, false)
  | none => (args, false)

/-- The macro that a directive defines, with the first comment before it. -/
def ofTokens (ts : List Token) : Option MacroDecl := do
  let t ← ts.find? fun t => t.kind != .comment && t.kind != .space
  let d ← readDefine t
  let before := ts.takeWhile fun t => t.kind == .comment || t.kind == .space
  let named := d.args.map nameVariadic
  return {
    name := d.name
    args := named.map Prod.fst
    body := some { d.body with
      value := String.ofList (Text.blankComments (Text.trim (joinLines d.body.chars))) }
    preComment := before.find? fun t => t.kind == .comment
    isVariadic := named.any Prod.snd }

/-! ## Traits -/

/-- The token that a lexeme of a replacement text becomes. -/
def tokenAt (base : Int) (l : Lex.Lexeme) : Token :=
  (⟨0, ⟨base + l.start, base + l.stop⟩, String.ofList l.chars, none⟩ : Token).settled

/-- White space, comments and separators carry no meaning. -/
def isMeaningful (t : Token) : Bool :=
  t.kind != .space && t.kind != .comment && t.kind != .separator

/-- Tokens of a replacement text that carry meaning, up to the first gap. -/
def meaningful (s : List Char) (base : Int) : List Token :=
  let rec contiguous (pos : Nat) : List Lex.Lexeme → List Lex.Lexeme
    | [] => []
    | l :: ls => if l.start = pos then l :: contiguous l.stop ls else []
  ((contiguous 0 (Lex.Replacement.scan s)).map (tokenAt base)).filter isMeaningful

/-- What a leading token tells: literals and numbers are constant, operators leave it open. -/
def tellsConst (t : Token) : Option Bool :=
  match t.kind with
  | .literal => some true
  | .word => some (t.chars.head?.any Char.isDigit)
  | .operator => none
  | _ => some false

/-- What is known of a replacement text after some of its tokens. -/
structure Reading where
  /-- Where the last token stopped. -/
  offset : Nat := 0
  gaps : List (List Char) := []
  /-- The tokens that carry meaning, up to the first gap. -/
  tokens : List Token := []
  isConst? : Option Bool := none

/-- Looks at one more token.  Behind a gap it only matters where tokens are. -/
def Reading.next (body : Token) (r : Reading) (l : Lex.Lexeme) : Reading :=
  let gaps :=
    if l.start != r.offset then r.gaps ++ [(body.chars.take l.start).drop r.offset] else r.gaps
  let t := tokenAt body.span.start l
  if gaps.isEmpty && isMeaningful t then
    { offset := l.stop, gaps, tokens := r.tokens ++ [t], isConst? := r.isConst? <|> tellsConst t }
  else { r with offset := l.stop, gaps }

/-- Looks at what is left behind the last token. -/
def Reading.finish (body : Token) (r : Reading) : Reading :=
  if r.offset != body.chars.length then
    { r with gaps := r.gaps ++ [body.chars.drop r.offset] }
  else r

/-- The type of a leading cast; parentheses around the whole are opened. -/
def castType (known : List Token) (base : Int) (size : Nat) (ts : List Token) : List Token :=
  match ts with
  | [] => known
  | [t] =>
    if t.kind == .paren then
      let inside := Text.interior t.chars
      if _h : inside.length < size then castType known base inside.length (meaningful inside base)
      else known
    else known
  | t :: u :: _ =>
    if t.kind == .paren && (u.kind == .word || u.kind == .paren || u.kind == .brace) then
      meaningful (Text.interior t.chars) base
    else known
termination_by size

/-- Looks at the replacement text, unless that was done before. -/
def examined (m : MacroDecl) : MacroDecl :=
  if m.isConst?.isSome then m
  else
    match m.body with
    | none =>
      { m with
        isConst? := some true, isWellformed := true, unbalanced? := some "", hasType? := some false }
    | some body =>
      let r := ((Lex.Replacement.scan body.chars).foldl (Reading.next body) {}).finish body
      let type := castType m.type body.span.start (body.chars.length + 1) r.tokens
      { m with
        isConst? := if r.gaps.isEmpty then r.isConst? <|> some true else some false
        isWellformed := r.gaps.isEmpty
        unbalanced? := some (String.ofList r.gaps.flatten)
        hasType? := some !type.isEmpty
        type }

/-- What was told by the replacement text, if it was looked at. -/
def traits? (m : MacroDecl) : Option MacroTraits :=
  m.isConst?.map fun isConst => ⟨isConst, m.isWellformed, m.unbalanced?.getD "", m.type⟩

/-- What the replacement text tells, which is looked at if need be. -/
def traits (m : MacroDecl) : MacroTraits := m.examined.traits?.getD default

/-- The parameters as they are shown. -/
def argsText (m : MacroDecl) : String :=
  match m.args with
  | some args => "(" ++ ", ".intercalate (Tokens.values args) ++ ")"
  | none => ""

/-- How a truth value is shown. -/
def flagText (b : Bool) : String := if b then "True" else "False"

/-- A short display of the macro. -/
def short (m : MacroDecl) : String :=
  s!"Macro {m.name.value}{m.argsText} " ++
    "is_wellformed=" ++ flagText m.isWellformed ++
    " is_const=" ++ ((m.isConst?.map flagText).getD "None")

/-- Is there a leading cast? -/
def hasType (m : MacroDecl) : Bool := m.examined.hasType?.getD false

end MacroDecl

end CBoundary
