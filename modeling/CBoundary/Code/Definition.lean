import CBoundary.Code.Details

/-!
# Definitions

A definition says what a name stands for, where, to which module it belongs, and whether it is
private to it.  When a name is defined again, privacy wins over publicity and silence, a module
over none.
-/

namespace CBoundary

/-- A definition of a name. -/
structure Definition where
  name : String
  kind : String
  scope : Scope
  offset : Int
  moduleName : String
  /-- Private, public, or not said. -/
  isPrivate : Option Bool := none
  details : Option Details := none
  deriving Inhabited

namespace Definition

/-- Is the definition known to be private? -/
def hidden (d : Definition) : Bool := d.isPrivate == some true

/-- File name, line and column of the name. -/
def location (d : Definition) : String := d.scope.location d.offset

/-- The place of the name. -/
def place (d : Definition) : Place :=
  .definition d.scope.file (d.scope.offset + d.offset) d.kind d.moduleName d.name

/-- A short display of the definition. -/
def short (d : Definition) : String :=
  s!"{d.name} ({d.kind}) {d.location} [{d.moduleName}] " ++
    (if d.hidden then "private" else "public") ++ " " ++
    ((d.details.map Details.short).getD "")

/-- A body counts most, then privacy, then the kind of the file. -/
def priority (d : Definition) : Nat :=
  let body := match d.details with
    | some (.function f) => f.body.isSome
    | some (.record r) => r.body.isSome
    | _ => false
  (if body then 100 else 0) + (if d.hidden then 10 else 0) + FileKind.priority d.scope.file.name

/-- The type of what is defined; none is an empty one. -/
def type (d : Definition) : List Token := ((d.details.bind Details.type).getD [])

/-- The body of what is defined, or an empty token. -/
def body (d : Definition) : Token := (d.details.bind Details.body).getD .empty

/-- The definition with the module and the privacy that another one adds. -/
def joinStanding (a b : Definition) : Definition :=
  { a with
    moduleName := if a.moduleName.isEmpty then b.moduleName else a.moduleName
    isPrivate := if b.hidden then some true else a.isPrivate <|> b.isPrivate }

/-- The joint details of two definitions of one kind, with the contradictions. -/
def jointDetails? (a b : Definition) : Option (Details × List String) := do
  (← a.details).absorb? (← b.details)

open Audit in
/-- Reports two definitions of different kinds. -/
def reportKinds (a b : Definition) : Audit Unit := do
  if a.kind != b.kind then
    report .defnConflict a.place (.conflictingUpdate "'kind'")
    report .defnConflict b.place .conflictHere
    trace .warning .unknown (.kindMismatch a.name a.kind b.kind a.short b.short)

open Audit in
/-- Reports two definitions of different modules. -/
def reportModules (a b : Definition) : Audit Unit := do
  if !a.moduleName.isEmpty && !b.moduleName.isEmpty && a.moduleName != b.moduleName then
    report .defnConflict a.place (.conflictingUpdate "'module'")
    report .defnConflict b.place .conflictHere
    trace .warning (.remark (s!"module mismatch for {a.kind} '{a.name}': " ++
      s!"{a.moduleName} != {b.moduleName}\n" ++ a.short ++ "\n" ++ b.short)) (.words [])

open Audit in
/-- Reports details of different kinds. -/
def reportClasses (a b : Definition) : Audit Unit := do
  report .defnConflict a.place (.conflictingUpdate "details type")
  report .defnConflict b.place .conflictHere
  trace .warning (.remark (s!"details type mismatch for '{a.name}': " ++
    Details.className a.details ++ " != " ++ Details.className b.details ++ "\n" ++
    a.short ++ "\n" ++ b.short)) (.words [])

open Audit in
/-- Reports contradictions; the first definition has the joint details. -/
def reportErrors (a b : Definition) (errors : List String) : Audit Unit := do
  if !errors.isEmpty then
    let category : Category := match a.details with
      | some (.macroDef _) => .defnConflictMacro
      | _ => .defnConflict
    report category a.place (.conflictingUpdate s!"{a.kind} details")
    report category b.place .conflictHere
    errors.forM fun e => report category .unknown (.detailsConflict e)

/-- Takes over the details of another definition. -/
def absorbDetails (a b : Definition) : Audit Definition :=
  match a.jointDetails? b with
  | some (details, errors) => do
    let a := { a with details := some details }
    reportErrors a b errors
    return a
  | none => do
    if a.details.isSome || b.details.isSome then reportClasses a b
    return a

/-- Takes over what another definition of the name adds, and reports every
contradiction. -/
def absorb (a b : Definition) : Audit Definition := do
  reportKinds a b
  reportModules a b
  absorbDetails (a.joinStanding b) b

/-- The definition of higher priority takes over from the other, in doubt the first. -/
def merge (a b : Definition) : Audit (Definition × Definition) := do
  if a.priority < b.priority then return (a, ← b.absorb a)
  else return (← a.absorb b, b)

/-- Enters a definition into a table, or merges it into the one there. -/
def upsert (t : Table Definition) (d : Definition) : Audit (Table Definition × Definition) := do
  match t.find? d.name with
  | none => return (t.insert d.name d, d)
  | some old =>
    let (old, d) ← old.merge d
    return (t.insert d.name old, d)

end Definition

end CBoundary
