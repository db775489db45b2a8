import CBoundary.Token.Basic
import CBoundary.Source

/-!
# Variables

A declaration starts with the words of its type.  C does not mark where the type ends: a built-in
type may take several words, a defined one takes one, and whatever words follow still belong to the
type, except for the declared name.  A variable is read off a definition, or off a parameter, where
a lonely word is the type.
-/

namespace CBoundary.Declaration

/-! ## Types -/

/-- Drops words without meaning and their argument lists, and on request `const` and `static`. -/
def dropIgnored (dropQualifiers : Bool) : List Token → List Token
  | [] => []
  | [t] =>
    if Keyword.ignored.contains t.value then []
    else if dropQualifiers && (t.value == "const" || t.value == "static") then []
    else [t]
  | t :: u :: ts =>
    if Keyword.ignored.contains t.value then
      if u.kind == .paren then dropIgnored dropQualifiers ts
      else dropIgnored dropQualifiers (u :: ts)
    else if dropQualifiers && (t.value == "const" || t.value == "static") then
      dropIgnored dropQualifiers (u :: ts)
    else t :: dropIgnored dropQualifiers (u :: ts)

/-- The words of a type, the index behind them, and the name if it was among them. -/
structure TypeSplit where
  type : List Token
  next : Int
  name : Option Token
  deriving Repr

/-- Where the search for the end of the type stands. -/
structure TypeLead where
  type : List Token
  next : Nat
  builtin : Bool
  deriving Repr

/-- The leading words of a type: all of a built-in one, or one word. When they run out, the last is
looked at again. -/
def leadingType (skipQualifiers : Bool) (type : List Token) (builtin : Bool) (i : Nat) :
    List Token → TypeLead
  | [] => ⟨type, i - 1, builtin⟩
  | t :: ts =>
    if t.kind != .word then ⟨type, i, builtin⟩
    else if skipQualifiers && t.isQualifier then leadingType skipQualifiers type builtin (i + 1) ts
    else if t.isBuiltinType then leadingType skipQualifiers (type ++ [t]) true (i + 1) ts
    else if builtin then ⟨type, i, builtin⟩
    else ⟨type ++ [t], i + 1, builtin⟩

/-- Further words of a type, up to the name: the last word, or one before an array suffix. -/
def trailingType (builtin : Bool) (type : List Token) (i : Int) : List Token → TypeSplit
  | [] => ⟨type.dropLast, i - 2, type.getLast?⟩
  | t :: ts =>
    if t.kind == .bracket then
      if builtin && !(type.getLast?.any Token.isBuiltinType) then
        ⟨type.dropLast, i - 1, type.getLast?⟩
      else trailingType builtin (type ++ [t]) (i + 1) ts
    else if t.kind != .word then ⟨type, i, none⟩
    else trailingType builtin (type ++ [t]) (i + 1) ts

/-- Does the declaration consist of `...` or `void` alone? -/
def isVoid : List Token → Bool
  | [t] => t.value == "..." || t.value == "void"
  | _ => false

/-- Finds the type of a declaration. -/
def splitType (skipQualifiers : Bool) (ts : List Token) : TypeSplit :=
  if ts.isEmpty || isVoid ts then ⟨[], ts.length, none⟩
  else
    let lead := leadingType skipQualifiers [] false 0 ts
    if ts.length ≤ lead.next then ⟨lead.type, lead.next, none⟩
    else trailingType lead.builtin lead.type lead.next (ts.drop lead.next)

/-- The words of a type that name it: neither qualifiers nor stars. -/
def typeWords (ts : List Token) : List Token := ts.filter fun t => !t.isQualifier && t.value != "*"

/-- The base type: the last word, empty if there is none. -/
def baseType (ts : List Token) : String := ((typeWords ts).getLast?.map Token.value).getD ""

/-- The base type of a type given as text. -/
def baseTypeOfText (s : List Char) : String := baseType (Tokens.code (Token.scan s 0))

end CBoundary.Declaration

namespace CBoundary

/-! ## Variables -/

/-- A declared variable, member or parameter. -/
structure Variable where
  name : Token
  /-- The words of the type; nothing when even an inherited type is missing. -/
  type : Option (List Token)
  preComment : Option Token := none
  postComment : Option Token := none
  /-- The separator that ends the declaration. -/
  terminator : Option String := none
  scope : Scope := .blank
  /-- The number of the entry in a code base through which it came in. -/
  entry : Nat := 0
  deriving Repr, Inhabited

namespace Variable

/-- What tells a variable from all others: its entry, its scope and its name's place. -/
def site (v : Variable) : Nat × Int × Int := (v.entry, v.scope.offset, v.name.span.start)

/-- Brings a copy of a variable up to date. -/
def refresh (new v : Variable) : Variable := if v.site == new.site then new else v

/-- Does the variable have words for its type? -/
def hasType (v : Variable) : Bool := v.type.any fun ts => !ts.isEmpty

/-- The variable, with an inherited type if it has none. -/
def inherit (v : Variable) (type : Option (List Token)) : Variable :=
  if v.hasType then v else { v with type }

/-- The type that a variable hands on to the next one. -/
def handsOn (v : Variable) : Option (List Token) :=
  if v.terminator == some "," then v.type else none

/-- Cuts off an initialiser, from an equals sign that is neither first nor last. -/
def beforeInitializer (ts : List Token) : List Token :=
  match (ts.drop 1).dropLast.findIdx? fun t => t.value == "=" with
  | some i => ts.take (i + 1)
  | none => ts

/-- Drops the stars and array suffixes at the end. -/
def dropSuffixes (ts : List Token) : List Token :=
  (ts.reverse.dropWhile fun t => t.startsWith '*' || t.startsWith '[').reverse

/-- Drops an argument list at the end. -/
def dropArguments (ts : List Token) : List Token :=
  if ts.getLast?.any fun t => t.startsWith '(' then ts.dropLast else ts

/-- The separator that ends a declaration. -/
def terminatorOf (ts : List Token) : Option String :=
  (ts.reverse.find? fun t => t.kind != .space && t.kind != .comment).bind fun t =>
    if t.value == "," || t.value == ";" then some t.value else none

/-- The variable that a definition declares. -/
def ofDefinition (scope : Scope) (ts : List Token) : Option Variable :=
  let code := beforeInitializer (Tokens.code ts)
  if code.isEmpty || Declaration.isVoid code then none
  else
    let code := dropSuffixes (dropArguments (dropSuffixes code))
    code.getLast?.map fun name =>
      { name := { name with value := Text.onlyWordChars name.value }
        type := some (Declaration.typeWords code.dropLast)
        preComment := Tokens.preComment ts
        postComment := Tokens.postComment ts
        terminator := terminatorOf ts
        scope }

/-- Is an empty token all that is left for the name of a definition? -/
def endsInNothing (ts : List Token) : Bool :=
  (dropSuffixes (beforeInitializer (Tokens.code ts))).getLast?.any fun t => t.value.isEmpty

/-- The name of a parameter: a word, or the last one inside parentheses. -/
def parameterName : List Token → Option Token
  | [] => none
  | t :: ts =>
    if t.value == "*" then parameterName ts
    else
      match t.kind with
      | .word => some t
      | .paren =>
        (Declaration.dropIgnored true
          (Tokens.code (Token.scan (Text.interior t.chars) t.span.start))).reverse.find?
          fun u => u.kind == .word
      | _ => none

/-- The variable that a parameter declares, with a name or without. -/
def ofParameter (scope : Scope) (ts : List Token) : Option Variable :=
  let code := Declaration.dropIgnored true (Tokens.code ts)
  let split := Declaration.splitType true code
  let unnamed : Option Variable :=
    if split.type.isEmpty then none
    else some { name := .empty, type := some split.type, scope }
  if (code.length : Int) ≤ split.next then unnamed
  else
    match split.name with
    | some name => some { name, type := some split.type, scope }
    | none =>
      match parameterName (code.drop split.next.toNat) with
      | some name => some { name, type := some split.type, scope }
      | none => unnamed

end Variable

end CBoundary
