import CBoundary.Declaration.Function
import CBoundary.Macro.Basic

/-!
# Details of definitions

A definition is a function, a record, a macro or a variable.  Two declarations of
one thing are brought together: the first takes from the second what it lacks,
and every contradiction between them is reported.
-/

namespace CBoundary

/-- The display of a token. -/
def Token.display (t : Token) : String :=
  s!"Token(idx={t.idx}, range=({t.span.start}, {t.span.stop}), value=" ++ Text.quote t.value ++ ")"

/-- The display of the words of a type. -/
def Tokens.displayType : Option (List Token) → String
  | some ts => Tokens.display ts
  | none => "None"

namespace Variable

/-- A short display of the variable. -/
def short (v : Variable) : String :=
  "Variable(" ++ v.name.display ++ " : " ++ Tokens.displayType v.type ++ ")"

/-- Do two variables have the same type words? -/
def typesAgree : Option (List Token) → Option (List Token) → Bool
  | some a, some b => Tokens.agree a b
  | none, none => true
  | _, _ => false

/-- Takes comments from another declaration of the variable. -/
def absorb (a b : Variable) : Variable × List String :=
  let name := a.name.value
  let errors :=
    (if a.name.agrees b.name then [] else
      [s!"variable name mismatch for '{name}': '{name}' != '{b.name.value}'"]) ++
    (if typesAgree a.type b.type then [] else
      [s!"variable type mismatch for '{name}': '" ++ Tokens.displayType a.type ++ "' != '" ++
        Tokens.displayType b.type ++ "'"])
  ({ a with
      preComment := a.preComment <|> b.preComment
      postComment := a.postComment <|> b.postComment }, errors)

end Variable

namespace RecordDecl

/-- The lines of a display, one for each variable. -/
def shortLines (label : String) (vars : Option (List Variable)) : String :=
  String.join ((vars.getD []).map fun v => s!"\n  {label}: " ++ v.short)

/-- A short display of the record. -/
def short (r : RecordDecl) : String :=
  "Record(" ++ r.name.value ++ s!" : <RecordKind.{r.kind.name}: {r.kind.number}>" ++
    shortLines "member" r.members ++ shortLines "typedef" r.typedefs ++
    shortLines "vardef" r.vardefs ++
    String.join ((r.nested.getD []).map fun n => "\n  nested: " ++ n.name.value) ++ ")"

/-- Do two bodies contradict each other? -/
def bodiesDiffer (a b : RecordDecl) : Bool :=
  match a.body, b.body with
  | some x, some y => !x.agrees y
  | _, _ => false

/-- Takes the body with all read off it, and comments, from another declaration. -/
def absorb (a b : RecordDecl) : RecordDecl × List String :=
  let name := a.name.value
  let differ := a.bodiesDiffer b
  let errors :=
    (if a.kind == b.kind then [] else
      [s!"record type mismatch for '{name}': RecordKind.{a.kind.name} != RecordKind.{b.kind.name}"]) ++
    (if a.name.agrees b.name then [] else
      [s!"record name mismatch for '{name}': {name} != {b.name.value}"]) ++
    (if differ then [s!"record redifinition: '{name}'"] else [])
  let a :=
    if !differ && b.body.isSome then
      { a with
        body := b.body
        members := b.members
        typedefs := b.typedefs
        vardefs := b.vardefs
        nested := b.nested }
    else a
  ({ a with
      preComment := a.preComment <|> b.preComment
      postComment := a.postComment <|> b.postComment }, errors)

end RecordDecl

namespace FunctionDecl

/-- A short display of the function. -/
def short (f : FunctionDecl) : String :=
  "Function(" ++ f.name.display ++ " (" ++ f.args.display ++ ")) : " ++ Tokens.display f.type ++
    (if f.isConst then " const" else "") ++ (if f.isStatic then " static" else "")

/-- Do two bodies contradict each other? -/
def bodiesDiffer (a b : FunctionDecl) : Bool :=
  match a.body, b.body with
  | some x, some y => x.value != y.value
  | _, _ => false

/-- Takes comments from another declaration. -/
def absorb (a b : FunctionDecl) : FunctionDecl × List String :=
  let name := a.name.value
  let errors :=
    (if Tokens.agree a.type b.type then [] else
      [s!"function retType mismatch for '{name}': '" ++ Tokens.words a.type ++ "' != '" ++
        Tokens.words b.type ++ "'"]) ++
    (if name == b.name.value then [] else
      [s!"function name mismatch for '{name}': '{name}' != '{b.name.value}'"]) ++
    (if a.args.value == b.args.value then [] else
      [s!"function args mismatch for '{name}': '{a.args.value}' != '{b.args.value}'"]) ++
    (if a.bodiesDiffer b then [s!"function redifinition: '{name}'"] else [])
  ({ a with
      preComment := a.preComment <|> b.preComment
      postComment := a.postComment <|> b.postComment }, errors)

end FunctionDecl

namespace MacroDecl

/-- Takes the comment of another definition. -/
def absorb (a b : MacroDecl) : MacroDecl × List String :=
  let name := a.name.value
  let errors :=
    (if name == b.name.value then [] else
      [s!"macro name mismatch for '{name}': '{name}' != '{b.name.value}'"]) ++
    (if a.args.map List.length == b.args.map List.length then [] else
      [s!"macro args mismatch for '{name}': {a.argsText} != {b.argsText}"]) ++
    (if a.body.map Token.value == b.body.map Token.value then [] else
      [s!"macro body redifinition: '{name}'"])
  ({ a with preComment := a.preComment <|> b.preComment }, errors)

end MacroDecl

/-- What is defined. -/
inductive Details where
  | function (f : FunctionDecl)
  | record (r : RecordDecl)
  | macroDef (m : MacroDecl)
  | var (v : Variable)
  deriving Inhabited

namespace Details

/-- The word for the kind of thing. -/
def kind : Details → String
  | function _ => "function"
  | record _ => "record"
  | macroDef _ => "macro"
  | var _ => "variable"

/-- The name token. -/
def name : Details → Token
  | function f => f.name
  | record r => r.name
  | macroDef m => m.name
  | var v => v.name

/-- The comment in front. -/
def preComment : Details → Option Token
  | function f => f.preComment
  | record r => r.preComment
  | macroDef m => m.preComment
  | var v => v.preComment

/-- The comment behind; a macro has none. -/
def postComment : Details → Option Token
  | function f => f.postComment
  | record r => r.postComment
  | macroDef _ => none
  | var v => v.postComment

/-- The words of the type. -/
def type : Details → Option (List Token)
  | function f => some f.type
  | record r => some r.type
  | macroDef m => some m.type
  | var v => v.type

/-- The body of a function, a record or a macro. -/
def body : Details → Option Token
  | function f => f.body
  | record r => r.body
  | macroDef m => m.body
  | var _ => none

/-- The details of a thing of a named kind; what is no function, record or macro is a variable. -/
def ofStatement (c : Context) (kind : String) (members : Bool) (ts : List Token) :
    Except Fault (Option Details) := do
  match kind with
  | "function" => return (← FunctionDecl.ofStatement c.scope ts).map .function
  | "record" =>
    match ← RecordDecl.ofTokens c ts none with
    | none => return none
    | some r => return some (.record (← if members then r.withMembers c else pure r))
  | "macro" => return (MacroDecl.ofTokens ts).map .macroDef
  | _ => return (Variable.ofDefinition c.scope ts).map .var

/-- A short display of the details. -/
def short : Details → String
  | function f => f.short
  | record r => r.short
  | macroDef m => m.short
  | var v => v.short

/-- Takes what is missing from details of the same kind, with the contradictions. -/
def absorb? : Details → Details → Option (Details × List String)
  | function a, function b => some ((a.absorb b).map .function id)
  | record a, record b => some ((a.absorb b).map .record id)
  | macroDef a, macroDef b => some ((a.absorb b).map .macroDef id)
  | var a, var b => some ((a.absorb b).map .var id)
  | _, _ => none

/-- The display of the kind of some details, or of none. -/
def className : Option Details → String
  | some (function _) => "<class 'layercparse.function.FunctionParts'>"
  | some (record _) => "<class 'layercparse.record.RecordParts'>"
  | some (macroDef _) => "<class 'layercparse.macro.MacroParts'>"
  | some (var _) => "<class 'layercparse.variable.Variable'>"
  | none => "<class 'NoneType'>"

end Details

end CBoundary
