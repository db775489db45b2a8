import CBoundary.Declaration.Record

/-!
# Functions

A function has a return type, a name, the text of its arguments, and a body if it is defined.
Local variables are read off the declarations at its start or by looking for the names of known
types anywhere.
-/

namespace CBoundary

/-- A function declaration or definition. -/
structure FunctionDecl where
  type : List Token
  name : Token
  args : Token
  body : Option Token := none
  preComment : Option Token := none
  postComment : Option Token := none
  isConst : Bool := false
  isStatic : Bool := false
  scope : Scope := .blank
  deriving Repr, Inhabited

namespace FunctionDecl

/-- Name, arguments and body as far as found, and the tokens left. -/
structure Shape where
  type : List Token
  name : Token
  args : Token
  body : Option Token
  rest : List Token
  deriving Repr

/-- Looks for second parentheses, and remembers the last block before them. -/
def secondParens (body : Option Token) : List Token → Option Token × Option (Token × List Token)
  | [] => (body, none)
  | t :: ts =>
    if t.kind == .paren then (body, some (t, ts))
    else if t.kind == .brace then secondParens (some t.interior) ts
    else secondParens body ts

/-- The tokens of the interior of parentheses, the last first. -/
def innerTokens (args : Token) : List Token :=
  (Declaration.dropIgnored true (Tokens.code (Token.scan args.chars args.span.start))).reverse

/-- The shape of a function without a name before the parentheses: the name is the last word in the
first parentheses if others follow, else that of the type. -/
def unnamedShape (type : List Token) (parens : Token) (rest : List Token) : Shape :=
  match secondParens none rest with
  | (body, none) => ⟨type.dropLast, (type.getLast?).getD .empty, parens.interior, body, []⟩
  | (body, some (second, rest)) =>
    let inner := innerTokens parens.interior
    match inner.find? fun t => t.kind == .word with
    | some name => ⟨type, name, name.interior, body, rest⟩
    | none => ⟨type, .empty, (inner.getLast?.getD second).interior, body, rest⟩

/-- The shape of a function behind its type. -/
def shape? (type : List Token) (ts : List Token) : Option Shape :=
  match ts.dropWhile fun t => t.value == "*" with
  | [] => none
  | t :: ts =>
    match t.kind with
    | .word =>
      match ts.dropWhile fun u => u.kind != .paren with
      | [] => none
      | parens :: rest => some ⟨type, t, parens.interior, none, rest⟩
    | .paren => some (unnamedShape type t ts)
    | _ => none

/-- The function that a statement declares. -/
def ofTokens (scope : Scope) (ts : List Token) : Option FunctionDecl :=
  let code := Declaration.dropIgnored false (Tokens.code ts)
  let split := Declaration.splitType false code
  if split.type.isEmpty || (code.length : Int) ≤ split.next || split.name.isSome then none
  else
    (shape? split.type (code.drop split.next.toNat)).map fun s =>
      { type := s.type.filter fun t => t.value != "const" && t.value != "static"
        name := s.name
        args := s.args
        body := s.body <|> (s.rest.find? fun t => t.kind == .brace).map Token.interior
        preComment := Tokens.preComment ts
        postComment := Tokens.postComment ts
        isConst := s.type.any fun t => t.value == "const"
        isStatic := s.type.any fun t => t.value == "static"
        scope }

/-- The function that a nonempty statement declares. -/
def ofStatement (scope : Scope) (ts : List Token) : Except Fault (Option FunctionDecl) :=
  if ts.isEmpty then .error .noTokens else .ok (ofTokens scope ts)

/-- The arguments of a function. -/
def arguments (f : FunctionDecl) (scope : Scope) : List Variable :=
  (Statement.scan f.args.chars f.args.span.start).filterMap fun s =>
    Variable.ofParameter scope s.tokens

/-! ## Local variables at the start of the body -/

/-- A local declaration: a variable, or a record with its variables. -/
inductive Local where
  | var (v : Variable)
  | record (r : RecordDecl)

/-- The local declarations up to the first statement that is none. A type is handed on within a
list, and a fault ends it. -/
def localsOf (c : Context) (body : Token) (inherited : Option (List Token)) :
    List Statement → List (Except Fault Local)
  | [] => []
  | s :: ss =>
    match s.kind with
    | .error f => [.error f]
    | .ok k =>
      let inherits := inherited.any fun ts => !ts.isEmpty
      if !inherits && !k.isDecl && (k.isStatement || (k.isExpression && !k.isInitialization)) then
        []
      else if inherits || (k.isDecl && !k.isFunction && !k.isRecord) then
        match Variable.ofDefinition c.scope s.tokens with
        | some v =>
          let v := v.inherit inherited
          .ok (.var v) :: localsOf c body v.handsOn ss
        | none => localsOf c body inherited ss
      else if k.isRecord then
        match RecordDecl.ofTokens (c.enterPiece body.span.start) s.tokens none with
        | .error f => [.error f]
        | .ok (some r) => .ok (.record r) :: localsOf c body none ss
        | .ok none => localsOf c body none ss
      else localsOf c body none ss

/-- The local declarations at the start of the body. -/
def locals (f : FunctionDecl) (c : Context) : List (Except Fault Local) :=
  match f.body with
  | none => []
  | some body => localsOf c body none (Statement.scan body.chars body.span.start)

/-- The variables that a local declares. -/
def Local.variables : Local → List Variable
  | .var v => [v]
  | .record r => r.vardefs.getD []

/-- The local variables at the start of the body. -/
def localVariables (f : FunctionDecl) (c : Context) : Except Fault (List Variable) :=
  return (← (f.locals c).mapM id).flatMap Local.variables

/-! ## Local variables of known types -/

/-- The length of the longest leading name that white space follows; without names, zero. -/
def typeBeforeSpace? (names : List String) (s : List Char) : Option Nat :=
  let lengths := (if names.isEmpty then [""] else names).filterMap fun n =>
    let cs := n.toList
    if cs.isPrefixOf s && ((s.drop cs.length).head?).any Text.isSpace then some cs.length else none
  lengths.max?

/-- The next known type: its length and position, and what precedes it and what follows. -/
def nextType? (names : List String) (before : Option Char) (pos : Nat) :
    List Char → Option (Nat × Nat × List Char)
  | [] => none
  | c :: cs =>
    match if Text.isBoundary before (some c) then typeBeforeSpace? names (c :: cs) else none with
    | some n => some (pos, n, c :: cs)
    | none => nextType? names (some c) (pos + 1) cs

/-- The declarators behind a type: tokens up to a gap, a semicolon or another type. Each separator
completes a variable. -/
def declarators (scope : Scope) (names : List String) (base : Int) (type : Token)
    (pending : List Token) (idx pos : Nat) (before : Option Char) (s : List Char) :
    Except Fault (List Variable × Option Char × Nat × List Char) :=
  match s with
  | [] => return ([], before, pos, [])
  | c :: cs =>
    match Lex.code.tokenLength (c :: cs) with
    | 0 => return ([], before, pos, c :: cs)
    | n + 1 => do
      let text := String.ofList (c :: cs.take n)
      if names.contains text || Keyword.types.contains text then
        return ([], before, pos, c :: cs)
      let t : Token := ⟨idx + 1, ⟨base + pos, base + pos + n + 1⟩, text, none⟩
      let pending := pending ++ [t]
      let before := (c :: cs.take n).getLast?
      let isLast := text == ";"
      let isSeparator := isLast || text == ","
      if isSeparator && Variable.endsInNothing pending then throw .nothingDeclared
      let vars := if isSeparator then
        ((Variable.ofDefinition scope pending).map fun v => { v with type := some [type] }).toList
        else []
      if isLast then return (vars, before, pos + n + 1, cs.drop n)
      let (more, rest) ← declarators scope names base type (if isSeparator then [] else pending)
        (idx + 1) (pos + n + 1) before (cs.drop n)
      return (vars ++ more, rest)
termination_by s.length

/-- The variables of known types declared in a text. -/
def variablesOfTypes (scope : Scope) (names : List String) (base : Int)
    (before : Option Char) (pos : Nat) (s : List Char) : Except Fault (List Variable) :=
  match nextType? names before pos s with
  | none => return []
  | some (start, n, found) => do
    let gap := Text.runLength Text.isSpace (found.drop n)
    let stop := start + n
    let type : Token := ⟨0, ⟨base + start, base + stop⟩, String.ofList (found.take n), none⟩
    let space : Token :=
      ⟨1, ⟨base + stop, base + stop + gap⟩, String.ofList ((found.drop n).take gap), none⟩
    let (vars, before, pos, rest) ←
      declarators scope names base type [type, space] 1 (stop + gap)
        ((found.take (n + gap)).getLast?) (found.drop (n + gap))
    if _h : rest.length < s.length then
      return vars ++ (← variablesOfTypes scope names base before pos rest)
    else return vars
termination_by s.length

/-- The local variables of known types in a body. -/
def localsOfTypes (f : FunctionDecl) (scope : Scope) (names : List String)
    (text : Option (List Char)) : Except Fault (List Variable) :=
  match f.body with
  | none => return []
  | some body => variablesOfTypes scope names body.span.start none 0 (text.getD body.chars)

end FunctionDecl

end CBoundary
