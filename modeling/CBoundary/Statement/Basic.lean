import CBoundary.Declaration.Variable
import CBoundary.Audit

/-!
# Statements

A source text is a list of statements, each a list of tokens.  A statement ends with a
semicolon, a comma or a block; a record or an expression ends with a semicolon only, and an `if`
goes on when an `else` follows.  Its kind is a set of flags, decided from its tokens alone.
-/

namespace CBoundary

/-! ## Kinds -/

/-- The flags of a statement, and its comments. -/
structure StatementKind where
  isComment : Bool := false
  isDirective : Bool := false
  isTypedef : Bool := false
  isRecord : Bool := false
  isFunction : Bool := false
  isFunctionDef : Bool := false
  isFunctionDecl : Bool := false
  isStatement : Bool := false
  isDecl : Bool := false
  isExpression : Bool := false
  isInitialization : Bool := false
  isExternC : Bool := false
  isUnnamedRecord : Bool := false
  preComment : Option Token := none
  postComment : Option Token := none
  deriving DecidableEq, Repr, Inhabited

namespace StatementKind

/-- Reads the front of a statement; the second component tells whether code follows. -/
def ofLead (k : StatementKind) : List Token → StatementKind × Bool
  | [] => (k, false)
  | t :: ts =>
    match t.kind with
    | .space => ofLead k ts
    | .comment => ofLead { k with isComment := true, preComment := some t } ts
    | .directive => ({ k with isDirective := true }, false)
    | _ =>
      if Keyword.statements.contains t.value then ({ k with isStatement := true }, false)
      else (k, true)

/-- Does the token tell a declaration from an expression? -/
def isTelling (t : Token) : Bool :=
  match t.kind with
  | .brace | .paren => true
  | .operator => t.value != "*"
  | .word => !t.announcesRecord
  | _ => false

/-- Do two or more telling tokens start a declaration? -/
def startsDeclaration : List Token → Bool
  | a :: b :: rest =>
    a.isQualifier || a.isBuiltinType || (a.kind == .word && b.kind == .word) ||
      match rest with
      | c :: _ =>
        a.kind == .word && (b.kind == .word || b.kind == .paren) &&
          (c.kind == .word || c.kind == .paren)
      | [] => false
  | _ => false

/-- Is there a block before any assignment? -/
def hasBody (ts : List Token) : Bool :=
  (ts.find? fun t => t.kind == .brace || t.value == "=").any fun t => t.kind == .brace

/-- Does the first parenthesis after the first token follow a name, or come before another? -/
def callsFunction (k : StatementKind) (ts : List Token) : Bool :=
  match ts with
  | [] => false
  | first :: rest =>
    match rest.findIdx? fun t => t.startsWith '(' with
    | none => false
    | some i =>
      (ts[i]?).any Token.isLongName ||
        (!k.isExpression && 0 < i && first.isLongName &&
          (rest[i + 1]?).any fun t => t.startsWith '(')

/-- Decides about a statement that no keyword decides, by two tokens of code or more. -/
def ofCode (k : StatementKind) (code : List Token) : Except Fault StatementKind := do
  let first := (code.head?.map Token.value).getD ""
  if first == "extern" then
    return { k with isExternC := (code[1]?).any fun t => t.value == "\"C\"" }
  let isTypedef := first == "typedef"
  let k := { k with isTypedef := isTypedef }
  let code := if isTypedef then code.drop 1 else code
  let record := code.head?.any Token.announcesRecord
  let mut k := k
  if !isTypedef then
    match (code.filter isTelling).take 3 with
    | [] => throw .undecidedStatement
    | [t] =>
      if t.isQualifier || t.isBuiltinType then return { k with isDecl := true }
      match code with
      | [a, b] =>
        if (a.value == "struct" || a.value == "union") && b.kind == .brace then
          return { k with isRecord := true, isUnnamedRecord := true }
        else return k
      | _ => return k
    | telling =>
      k := { k with isDecl := startsDeclaration telling }
      match (code.drop 1).dropLast.find? fun t => t.kind == .operator && t.value != "*" with
      | none => pure ()
      | some t =>
        k := { k with
          isExpression := true
          isInitialization := t.value == "=" && (k.isDecl || record) }
  let body := hasBody code
  if record then
    if body then return { k with isRecord := true }
    else return { k with isDecl := k.isDecl || !isTypedef }
  if isTypedef then return k
  if k.callsFunction code then
    return { k with
      isFunction := true
      isFunctionDecl := k.isDecl
      isFunctionDef := k.isDecl && body }
  return k

/-- The kind of a statement. -/
def ofTokens (ts : List Token) : Except Fault StatementKind :=
  let (k, more) := ofLead {} ts
  if !more then .ok k
  else
    match Declaration.dropIgnored true (Tokens.code ts) with
    | [] => .ok k
    | [_] => .ok { k with isExpression := true }
    | code => ofCode { k with postComment := Tokens.postComment ts } code

end StatementKind

/-! ## Grouping -/

/-- The tokens of a C statement, and its kind if that is known already. -/
structure Statement where
  tokens : List Token
  kind? : Option StatementKind := none
  deriving Repr, Inhabited

namespace Statement

/-- The kind of a statement. -/
def kind (s : Statement) : Except Fault StatementKind :=
  match s.kind? with
  | some k => .ok k
  | none => StatementKind.ofTokens s.tokens

/-- From the first token to the last. -/
def span (s : Statement) : Span := Tokens.span s.tokens

/-! ## Grouping tokens into statements -/

/-- What may end the current statement. -/
inductive Ending where
  | any
  /-- A separator or a block that no `else` follows. -/
  | unlessElse
  | semicolon
  deriving DecidableEq, Repr

/-- The statement being collected. -/
structure Pending where
  tokens : List Token := []
  complete : Bool := false
  ending : Ending := .any
  curly : Bool := false
  commentOnly : Option Bool := none
  isRecord : Bool := false
  isExpr : Bool := false
  deriving Repr

namespace Pending

/-- Takes the next token into account, without adding it. -/
def observe (p : Pending) (t : Token) : Pending :=
  let commentOnly :=
    if p.commentOnly == none && t.kind == .comment then some true
    else if p.commentOnly != some false && t.kind != .space && t.kind != .comment then some false
    else p.commentOnly
  let isExpr := p.isExpr || (t.kind == .operator && t.value != "*")
  let (ending, isRecord) :=
    if p.ending != .any then (p.ending, p.isRecord)
    else if t.value == "if" then (.unlessElse, p.isRecord)
    else if t.announcesRecord || t.value == "typedef" then (.semicolon, true)
    else if isExpr || t.value == "do" then (.semicolon, p.isRecord)
    else (.any, p.isRecord)
  { p with commentOnly, isExpr, ending, isRecord }

/-- Does the token belong to a new statement? -/
def startsAnew (p : Pending) (t : Token) : Bool :=
  (p.complete && t.kind != .space && t.kind != .comment) ||
    (p.commentOnly == some true && t.kind == .comment)

/-- Is `else` the next token of code? -/
def elseFollows (rest : List Token) : Bool :=
  (rest.find? fun t =>
    t.value == "else" || t.startsWith ';' ||
      (t.kind != .space && t.kind != .directive && t.kind != .comment)).any
    fun t => t.value == "else"

/-- After a separator or a block was added: is the statement complete? -/
def close (p : Pending) (t : Token) (rest : List Token) : Pending :=
  let p :=
    if t.startsWith '\x7b' then { p with curly := true }
    else if (t.value == ";" || t.value == ",") && p.ending == .semicolon
        && p.isRecord && !p.curly then
      { p with isRecord := false, ending := .any }
    else p
  let goesOn := match p.ending with
    | .any => false
    | .unlessElse => elseFollows rest
    | .semicolon => !t.startsWith ';'
  if goesOn then p else { p with complete := true }

/-- The collected statement, if there is one. -/
def flush (p : Pending) : List Statement :=
  if p.tokens.isEmpty then [] else [⟨p.tokens.reverse, none⟩]

end Pending

/-- The statements of a token list, given what is collected (last token first). -/
def group (p : Pending) : List Token → List Statement
  | [] => p.flush
  | t :: rest =>
    let t := t.settled
    if t.kind == .invalid then
      p.flush ++ ⟨[t], none⟩ :: group {} rest
    else
      let (done, p) := if p.startsAnew t then (p.flush, {}) else ([], p)
      let p := p.observe t
      let p := { p with tokens := t :: p.tokens }
      if (p.complete && t.value == "\n") || t.kind == .directive then
        done ++ p.flush ++ group {} rest
      else if t.startsWith ';' || t.startsWith ',' || t.startsWith '\x7b' then
        done ++ group (p.close t rest) rest
      else done ++ group p rest

/-- The statements of a token list. -/
def ofTokens (ts : List Token) : List Statement := group {} ts

/-- The statements of a text. -/
def scan (s : List Char) (base : Int) : List Statement := ofTokens (Token.scan s base)

/-! ## Directives alone -/

/-- The pieces of a text for which only notes and literals matter. -/
def directivePiece : Lex.Rule :=
  Lex.firstOf [Lex.note, Lex.literal, Text.runLength Text.isSpace,
    Text.runLength fun c => c != '/' && c != '#' && c != '\"' && c != '\'', fun _ => 1]

/-- The directives of a list of pieces; a comment goes with the directive behind it. -/
def directivesOf (older latest : Token) : List Token → List Statement
  | [] => []
  | t :: ts =>
    let here :=
      if t.startsWith '#' then
        if older.kind == .comment && latest.kind == .space then
          [⟨[older, latest, t], some { isComment := true, isDirective := true }⟩]
        else [⟨[t], some { isDirective := true }⟩]
      else []
    here ++ directivesOf latest t ts

/-- The directives of a text, without looking at its code. -/
def scanDirectives (s : List Char) : List Statement :=
  let pieces := Token.ofLexemes 0 (Lex.findings directivePiece 0 s)
  directivesOf .empty .empty (pieces.map fun t => { t with idx := t.idx + 1 }.settled)

end Statement

end CBoundary
