import CBoundary.Access.Chain
import CBoundary.Access.Deduction

/-!
# Checking accesses

The body of every function is looked at for uses of macros, names and members.  Each use is an
event, and a use of something private to another module is reported.  A use of a name ends where a
word ends, but need not start where one starts, and no arrow or dot stands before it.
-/

namespace CBoundary.Access

open CBoundary.Text

/-! ## Names -/

/-- The names to look for, the longer first. -/
structure NamePattern where
  names : List (List Char)
  deriving DecidableEq, Repr, Inhabited

namespace NamePattern

/-- The pattern of some names, of which there is one at least. -/
def ofNames? (names : List String) : Option NamePattern :=
  if names.isEmpty then none
  else some ⟨(names.map String.toList).mergeSort fun a b => b.length ≤ a.length⟩

/-- Does a text read backwards start with an arrow or a dot, behind white space or not? -/
def followsAccess (before : List Char) : Bool :=
  match before.dropWhile isSpace with
  | '>' :: '-' :: _ => true
  | '.' :: _ => true
  | _ => false

/-- The name used at the front of a text. -/
def useAt? (p : NamePattern) (before s : List Char) : Option (List Char) :=
  if followsAccess before then none
  else p.names.find? fun name =>
    name.isPrefixOf s && isBoundary ((name.getLast?) <|> before.head?) (s.drop name.length).head?

/-- Every use in a text, with its position; behind an empty name one character is passed over. -/
def uses (p : NamePattern) (pos : Nat) (before : List Char) (s : List Char) :
    List (Nat × List Char) :=
  match s with
  | [] => ((p.useAt? before []).map fun name => (pos, name)).toList
  | c :: cs =>
    match p.useAt? before (c :: cs) with
    | none => uses p (pos + 1) (c :: before) cs
    | some name =>
      let n := max name.length 1
      (pos, name) :: uses p (pos + n) (((c :: cs).take n).reverse ++ before) (cs.drop (n - 1))
termination_by s.length

end NamePattern

end CBoundary.Access

namespace CBoundary

open Audit

/-! ## Checks -/

/-- What a function uses. -/
inductive Access where
  /-- Macros expanded in the body. -/
  | expansion (at_ : Expansions)
  | name (span : Span) (name : String)
  | chain (chain : AccessChain)
  | field (chain : AccessChain) (type field : String) (span : Span)
  deriving Repr, Inhabited

/-- A use and the function that makes it. -/
structure AccessEvent where
  source : Definition
  access : Access
  deriving Inhabited

/-- The checker of a code base: it remembers the name patterns by module. -/
structure Checker where
  codebase : Codebase
  patterns : Table (Option Access.NamePattern) := {}
  deriving Inhabited

namespace Checker

/-- The checker of a code base, finished first. -/
def ofCodebase (cb : Codebase) : Checker := { codebase := cb.finalize }

/-- The pattern remembered under a key, or made. -/
def lookUp (k : Checker) (key : String) (names : List String) :
    Checker × Option Access.NamePattern :=
  match k.patterns.find? key with
  | some p => (k, p)
  | none =>
    let p := Access.NamePattern.ofNames? names
    ({ k with patterns := k.patterns.insert key p }, p)

/-- The private names of other modules. -/
def foreignNames (cb : Codebase) (moduleName : String) : List String :=
  cb.restrictedNames.filter fun n =>
    ((cb.names.find? n).map Definition.moduleName).getD "" != moduleName

/-- The pattern for a function of a module: the private names of others, or all names, which are
remembered under the empty module. -/
def namePattern (k : Checker) (onlyErrors : Bool) (moduleName : String) :
    Checker × Option Access.NamePattern :=
  if onlyErrors then k.lookUp moduleName (foreignNames k.codebase moduleName)
  else k.lookUp "" k.codebase.names.keys

/-! ## Macros -/

/-- How the macro that started an expansion is named: only if it is the only one. -/
def rootText (cb : Codebase) (e : Expansions) : String :=
  match e.graph.find? "" with
  | some [root] =>
    "macro " ++ ownerText (((cb.macros.find? root).map Definition.moduleName).getD "") root ""
  | _ => "a macro"

/-- The place of a macro's own name. -/
def macroPlace (d : Definition) : Place :=
  .offset d.scope.file ((d.details.map fun x => x.name.span.start).getD 0)

/-- Reports a macro used by another one, or by the function itself. -/
def reportMacro (cb : Codebase) (d : Definition) (e : Expansions) (caller : Option Definition)
    (callee : Definition) : Audit Unit := do
  let place : Place := .offset d.scope.file e.point.new.start
  let owner := ownerText d.moduleName d.name ":"
  match caller with
  | none => report .accessMacro place (.privateMacro owner callee.moduleName callee.name)
  | some caller =>
    report .accessMacro place (.privateMacroVia owner (rootText cb e))
    report .accessMacro (macroPlace caller)
      (.privateMacroStep (ownerText caller.moduleName caller.name ":") callee.moduleName callee.name)
    report .accessMacro (macroPlace callee)
      (.macroDefined (ownerText callee.moduleName callee.name ":"))

/-- Checks what was expanded at one point. -/
def checkExpansions (cb : Codebase) (d : Definition) (e : Expansions) : Audit Unit :=
  (e.graph.keys.foldr insertName []).forM fun callerName => do
    let caller := if callerName.isEmpty then none else cb.macros.find? callerName
    let moduleName := (caller.map Definition.moduleName).getD d.moduleName
    ((e.graph.find? callerName).getD []).forM fun calleeName => do
      match cb.macros.find? calleeName with
      | none => pure ()
      | some callee =>
        if callee.hidden && !callee.moduleName.isEmpty && callee.moduleName != moduleName then
          reportMacro cb d e caller callee

/-- The expansions in the body of a function. -/
def bodyExpansions (d : Definition) (body : Token) : List Expansions :=
  d.scope.file.expansionsIn body.span

/-! ## Names -/

/-- Checks the use of a name. -/
def checkName (x : Access.Subject) (onlyErrors : Bool) (pos : Nat) (name : String) :
    Audit Unit := do
  let moduleName := x.definition.moduleName
  let owner := ((x.codebase.names.find? name).map Definition.moduleName).getD ""
  if onlyErrors then
    report .accessGlobal (x.place pos) (.privateName owner name " ")
  else
    trace .debug3 (x.place pos) (.callOf owner name)
    if !owner.isEmpty && owner != moduleName then
      report .accessGlobal (x.place pos) (.privateName owner name "")

/-! ## Members -/

/-- Checks the access to a definition. -/
def checkMember (x : Access.Subject) (offset : Int) (d : Definition) (shown : String) :
    Audit Unit := do
  if d.hidden && !d.moduleName.isEmpty && d.moduleName != x.definition.moduleName then
    report .accessMember (x.place offset) (.privateAccess d.kind d.moduleName shown)

/-- Checks the use of a type. -/
def checkType (x : Access.Subject) (offset : Int) (type : String) : Audit Unit := do
  if x.codebase.restrictedTypes.contains type then
    match x.codebase.findType? type with
    | some d => checkMember x offset d d.name
    | none => pure ()

/-- Checks the use of a field. -/
def checkField (x : Access.Subject) (offset : Int) (type field : String) : Audit Unit := do
  match (x.codebase.fields.find? type).bind fun t => t.find? field with
  | some d => checkMember x offset d s!"{type}.{d.name}"
  | none => pure ()

/-- What is done with the events; each may give results. -/
abbrev Visitor (α : Type) : Type := AccessEvent → Audit (List α)

/-- Follows the members of a chain, as long as the type is known. -/
def checkMembers {α : Type} (x : Access.Subject) (visit : Visitor α) (chain : AccessChain)
    (type : String) : List (String × Span) → Audit (List α)
  | [] => return []
  | (field, span) :: rest => do
    let found ← visit ⟨x.definition, .field chain type field span⟩
    trace .debug3 (x.place span.start) (.fieldAccess type field)
    checkField x span.start type field
    let next := x.codebase.fieldType type field
    if next.isEmpty then
      report .typeDeduceMember (x.place span.start) (.unknownMember field chain.display)
      return found
    return found ++ (← checkMembers x visit chain next rest)

/-- Checks an access chain. -/
def checkChain {α : Type} (x : Access.Subject) (visit : Visitor α) (chain : AccessChain) :
    Audit (List α) := do
  let place := x.place chain.span.start
  trace .debug2 place (.accessChain chain.display)
  let found ← visit ⟨x.definition, .chain chain⟩
  let type ← x.typeOfText chain.span.start chain.name.toList
  if type.isEmpty then
    report .typeDeduceExpr place (.unknownExpression chain.display)
    return found
  trace .debug3 place (.chainType type)
  checkType x chain.span.start type
  trace .debug3 place (.fieldChain chain.display)
  return found ++ (← checkMembers x visit chain type chain.members)

/-! ## Functions -/

/-- The arguments and local variables that have a type; the others are reported. -/
def localTypes (x : Access.Subject) (f : FunctionDecl) (cleaned : List Char) :
    Audit (Table (List Token)) := do
  let add (t : Table (List Token)) (v : Variable) : Audit (Table (List Token)) := do
    if v.hasType then return t.insert v.name.value (v.type.getD [])
    report .parseLocalvar (x.place v.name.span.start) (.untypedLocal v.name.value)
    return t
  let arguments ← (f.arguments x.definition.scope).foldlM add {}
  let locals ← f.localsOfTypes x.definition.scope x.codebase.allTypes (some cleaned)
  locals.foldlM add arguments

/-- Looks at the body of a function. -/
def scanBody {α : Type} (k : Checker) (onlyErrors : Bool) (visit : Visitor α) (d : Definition)
    (f : FunctionDecl) (body : Token) : Audit (Checker × List α) := do
  let cb := k.codebase
  let cleaned := Text.blankNotesAndLiterals body.chars
  let expansions ← (bodyExpansions d body).mapM fun e => do
    let found ← visit ⟨d, .expansion e⟩
    checkExpansions cb d e
    return found
  let x : Access.Subject := { codebase := cb, definition := d, body }
  let locals ← localTypes x f cleaned
  let x := { x with locals }
  if !locals.isEmpty then
    trace .debug2 (x.place 0) (.localTypes (locals.entries.map fun (n, ts) => (n, Tokens.words ts)))
  let (k, pattern) := k.namePattern onlyErrors d.moduleName
  let names ← ((pattern.map fun p => p.uses 0 [] cleaned).getD []).mapM fun (pos, name) => do
    let name := String.ofList name
    checkName x onlyErrors pos name
    visit ⟨d, .name ⟨pos, pos + name.length⟩ name⟩
  let chains ← (AccessChain.scanBack 0 cleaned).mapM (checkChain x visit)
  return (k, expansions.flatten ++ names.flatten ++ chains.flatten)

/-- Looks at a definition; only functions with a body use anything. -/
def scanDefinition {α : Type} (k : Checker) (onlyErrors : Bool) (visit : Visitor α)
    (d : Definition) : Audit (Checker × List α) := do
  let place : Place := .offset d.scope.file (d.scope.offset + d.offset)
  trace .debug3 place (.checkingDefinition d.short)
  trace .debug place (.checking d.kind d.moduleName d.name)
  match d.details with
  | some (.function f) =>
    match f.body with
    | some body =>
      if d.kind == "function" then scanBody k onlyErrors visit d f body
      else return (k, [])
    | none => return (k, [])
  | _ => return (k, [])

/-! ## Code bases -/

/-- Looks at some definitions in turn. -/
def scanDefinitions {α : Type} (k : Checker) (onlyErrors : Bool) (visit : Visitor α)
    (ds : List Definition) : Audit (Checker × List α) :=
  ds.foldlM (fun (acc : Checker × List α) d => do
    let (k, found) ← scanDefinition acc.1 onlyErrors visit d
    return (k, acc.2 ++ found)) (k, [])

/-- The definitions of static functions, file by file. -/
def staticDefinitions (cb : Codebase) : List (List Definition) :=
  cb.staticNames.values.map Table.values

/-- All functions: first the global ones, then those of the files. -/
def functions (cb : Codebase) : List Definition :=
  cb.names.values ++ (staticDefinitions cb).flatten

/-- Looks at all functions in sequence. -/
def scanInSequence {α : Type} (k : Checker) (onlyErrors : Bool) (visit : Visitor α) :
    Audit (List α) := do
  let (_, found) ← k.scanDefinitions onlyErrors visit (functions k.codebase)
  return found

/-- Looks at all functions in tasks, one for each file with static functions and each global name;
answers with transcripts and results. -/
def taskResults {α : Type} (k : Checker) (onlyErrors : Bool) (visit : Visitor α) :
    Except Fault (List (Transcript × List α)) :=
  (staticDefinitions k.codebase ++ k.codebase.names.values.map fun d => [d]).mapM fun ds =>
    (k.scanDefinitions onlyErrors visit ds).task.map fun ((_, found), log) => (log, found)

/-- Looks at all functions in tasks, and takes over their transcripts. -/
def scanInTasks {α : Type} (k : Checker) (onlyErrors : Bool) (visit : Visitor α) :
    Audit (List α) := do
  let parts ← (← k.taskResults onlyErrors visit).mapM fun (log, found) => do
    relay log
    return found
  return parts.flatten

/-- Looks at all functions. -/
def scan {α : Type} (k : Checker) (tasks onlyErrors : Bool) (visit : Visitor α) : Audit (List α) :=
  if tasks then k.scanInTasks onlyErrors visit else k.scanInSequence onlyErrors visit

end Checker

end CBoundary
