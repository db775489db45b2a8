import CBoundary.Code.Details

/-!
# Outlines

The outline of a text says what each of its statements declares.
-/

namespace CBoundary

/-- What a statement declares, if it is the declaration that it looks like. -/
inductive Item where
  | function (f : Option (FunctionDecl × List Variable × List Variable))
  | record (r : Option RecordDecl)
  /-- A block of statements of another language. -/
  | block (inner : Option (List (StatementKind × Item)))
  | var (v : Option Variable)
  | macroDef (m : Option MacroDecl)
  | nothing

namespace Item

/-- A function with its arguments and local variables. -/
def ofFunction (c : Context) (ts : List Token) : Except Fault Item := do
  match ← FunctionDecl.ofStatement c.scope ts with
  | none => return function none
  | some f => return function (some (f, f.arguments c.scope, ← f.localVariables c))

/-- A record with its members. -/
def ofRecord (c : Context) (ts : List Token) : Except Fault Item := do
  match ← RecordDecl.ofTokens c ts none with
  | none => return record none
  | some r => return record (some (← r.withMembers c))

/-- The outline of a text. -/
def outline (c : Context) (s : List Char) : Except Fault (List (StatementKind × Item)) :=
  (Statement.scan s 0).mapM fun st => do
    let k ← st.kind
    if k.isFunctionDef || k.isFunctionDecl then return (k, ← ofFunction c st.tokens)
    else if k.isRecord then return (k, ← ofRecord c st.tokens)
    else if k.isExternC then
      match st.tokens.find? fun t => t.startsWith '\x7b' with
      | none => return (k, block none)
      | some t =>
        let inside := Text.interior t.chars
        if _h : inside.length < s.length then
          return (k, block (some (← outline (c.enterPiece (t.span.start + 1)) inside)))
        else return (k, block (some []))
    else if k.isDecl && !k.isFunction then
      return (k, var (Variable.ofDefinition c.scope st.tokens))
    else if k.isDirective then
      return (k, macroDef ((MacroDecl.ofTokens st.tokens).map MacroDecl.examined))
    else return (k, nothing)
termination_by s.length

end Item

end CBoundary
