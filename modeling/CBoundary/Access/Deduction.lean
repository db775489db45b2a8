import CBoundary.Code.Base

/-!
# Types of expressions

The type of the operand of an access chain is deduced from its tokens, and members are followed
to the type of the last one.  The empty name stands for a type that is not known.
-/

namespace CBoundary.Access

open Audit

/-- The function whose body is looked at. -/
structure Subject where
  codebase : Codebase
  definition : Definition
  body : Token
  /-- The types of the arguments and of the local variables. -/
  locals : Table (List Token) := {}
  deriving Inhabited

namespace Subject

/-- The place of an offset in the body. -/
def place (x : Subject) (offset : Int) : Place :=
  .inside x.definition.scope.file (x.definition.scope.offset + x.body.span.start + offset)
    x.definition.moduleName x.definition.name

/-- The type of a name: of a local variable, a function of the file, or a global one. -/
def typeWords? (x : Subject) (name : String) : Option (List Token) :=
  match x.locals.find? name with
  | some type => some type
  | none =>
    let ofFile := (x.codebase.staticNames.find? x.definition.scope.file.name).bind fun t =>
      t.find? name
    match ofFile with
    | some d => if d.details.isSome then some d.type else none
    | none => (x.codebase.names.find? name).bind fun d =>
        if d.details.isSome then some d.type else none

/-- The type of a name. -/
def typeOfName (x : Subject) (name : String) : String :=
  match x.typeWords? name with
  | some ts => x.codebase.untypedef (Declaration.baseType ts)
  | none => ""

/-- Is the token an arrow or a dot? -/
def isAccessor (t : Token) : Bool := t.value == "." || t.value == "->"

/-- Is the token a call or an index? -/
def isSuffix (t : Token) : Bool := t.kind == .paren || t.kind == .bracket

/-- The tokens behind a call or an index. -/
def dropSuffix : List Token → List Token
  | [] => []
  | t :: ts => if isSuffix t then ts else t :: ts

theorem length_dropSuffix_le (ts : List Token) : (dropSuffix ts).length ≤ ts.length := by
  cases ts with
  | nil => simp [dropSuffix]
  | cons t ts => simp only [dropSuffix]; split <;> simp

/-- Follows members from a type as long as it is known; the place and the expression are for a
complaint. -/
def followMembers (x : Subject) (stop : Int) (expression : List Token) (type : String)
    (rest : List Token) : Audit String := do
  if type.isEmpty then return type
  match _h : dropSuffix rest with
  | [] => return type
  | [u] =>
    if isAccessor u then
      report .parseExpression (x.place stop) (.unexpectedEnd (Tokens.words expression))
    return type
  | u :: v :: vs =>
    if isAccessor u then
      followMembers x stop expression (x.codebase.fieldType type v.value) vs
    else return type
termination_by rest.length
decreasing_by
  have h := length_dropSuffix_le rest
  rw [_h] at h
  simp only [List.length_cons] at h
  omega

/-- How many characters some tokens have. -/
def weight (ts : List Token) : Nat := ts.foldl (fun n t => n + t.value.length) 0

/-- Is a token in parentheses a cast before what follows it? -/
def makesCast : List Token → Bool
  | [] => false
  | t :: _ =>
    t.kind == .word || t.kind == .paren || t.kind == .brace || t.value == "&" || t.value == "*"

/-- The first such token, and what is before and behind it. -/
def splitAtFirst? (p : Token → Bool) : List Token → Option (List Token × Token × List Token)
  | [] => none
  | t :: ts =>
    if p t then some ([], t, ts)
    else (splitAtFirst? p ts).map fun (before, found, behind) => (t :: before, found, behind)

/-- What an expression is at its top level. -/
inductive Form where
  /-- Nothing but signs. -/
  | nothing
  /-- A question mark with nothing behind it. -/
  | dangling
  /-- A conditional expression: its question mark, and its second and third
  operands. -/
  | conditional (question : Token) (second third : List Token)
  /-- An operand and what follows it. -/
  | operand (first : Token) (rest : List Token)

/-- The form of an expression; without a colon, a conditional one has no third operand. -/
def Form.of (tokens : List Token) : Form :=
  match tokens.dropWhile fun t => t.kind == .operator with
  | [] => .nothing
  | first :: rest =>
    match splitAtFirst? (fun t => t.value == "?") (first :: rest) with
    | none => .operand first rest
    | some (_, _, []) => .dangling
    | some (_, question, behind) =>
      match splitAtFirst? (fun t => t.value == ":") behind with
      | some (second, _, third) => .conditional question second third
      | none => .conditional question behind.dropLast []

/-- The type of an expression, given by its tokens. -/
def typeOfTokens (x : Subject) (offset : Int) (tokens : List Token) : Audit String :=
  match Form.of tokens with
  | .nothing => pure ""
  | .dangling => throw .nothingAfterCondition
  | .conditional question second third =>
    let secondType : Audit String :=
      if _h : weight second < weight tokens then
        typeOfTokens x (offset + question.span.start) second
      else pure ""
    let thirdType : Audit String :=
      match third.head? with
      | none => throw .noAlternative
      | some t =>
        if _h : weight third < weight tokens then
          typeOfTokens x (offset + t.span.start) third
        else pure ""
    secondType >>= fun type => if type.isEmpty then thirdType else pure type
  | .operand first rest =>
    let follow (type : String) : Audit String :=
      followMembers x (offset + ((first :: rest).getLastD first).span.stop) (first :: rest) type rest
    if first.kind == .paren then
      let inside := Text.interior first.chars
      let inner := Tokens.code (Token.scan inside 0)
      if makesCast rest then pure (x.codebase.untypedef (Declaration.baseTypeOfText inside))
      else if _h : weight inner < weight tokens then
        typeOfTokens x (offset + first.span.start + 1) inner >>= fun type =>
          follow (x.codebase.untypedef type)
      else pure ""
    else if Text.wordAt first.chars.head? then follow (x.typeOfName first.value)
    else do
      report .parseExpression (x.place (offset + first.span.start)) (.unexpectedToken first.value)
      return ""
termination_by weight tokens

/-- The type of an expression given as a text. -/
def typeOfText (x : Subject) (offset : Int) (s : List Char) : Audit String := do
  return x.codebase.untypedef (← x.typeOfTokens offset (Tokens.code (Token.scan s 0)))

end Subject

end CBoundary.Access
