import CBoundary.Code.Definition

/-!
# The code base

A code base holds the definitions of a set of sources in tables.  The private types and names
are listed apart.  When type definitions are merged, every alias of a record becomes a further
name of its definition.
-/

namespace CBoundary

/-- An entry in the table of types: a definition, or another name of one. -/
inductive TypeEntry where
  | own (d : Definition)
  | further (canonical : String)
  deriving Inhabited

/-- All definitions of a set of sources. -/
structure Codebase where
  types : Table TypeEntry := {}
  /-- The private types, in the order in which they became known. -/
  restrictedTypes : List String := []
  /-- For each record its fields. -/
  fields : Table (Table Definition) := {}
  names : Table Definition := {}
  restrictedNames : List String := []
  /-- For each file its static functions. -/
  staticNames : Table (Table Definition) := {}
  typedefs : Table String := {}
  /-- Have the type definitions been merged into the types? -/
  merged : Bool := false
  /-- The names of types to look for in functions. -/
  allTypes : List String := []
  macros : Table Definition := {}
  /-- How many records have been entered. -/
  entries : Nat := 0
  deriving Inhabited

/-- Adds a name to a list unless it is there. -/
def addName (l : List String) (name : String) : List String :=
  if l.contains name then l else l ++ [name]

namespace Codebase

/-- A macro that is known without a source. -/
def givenMacro (name : String) (args : Option (List String)) (body : Option String)
    (isVariadic : Bool) : Definition where
  name := name
  kind := "macro"
  scope := .blank
  offset := 0
  moduleName := ""
  isPrivate := some false
  details := some (.macroDef
    { name := ⟨0, ⟨0, 0⟩, name, none⟩
      args := args.map fun l => l.map fun a => ⟨0, ⟨0, 0⟩, a, none⟩
      body := body.map fun b => ⟨0, ⟨0, 0⟩, b, none⟩
      isVariadic })

/-- The code base of no sources. -/
def empty : Codebase :=
  { macros := Table.empty.insert "__attribute__" (givenMacro "__attribute__" (some ["@"]) none false) }

/-- Adds a macro that is known without a source, in place of one of that name. -/
def addGivenMacro (cb : Codebase) (name : String) (args : Option (List String))
    (body : Option String) (isVariadic : Bool) : Codebase :=
  { cb with macros := cb.macros.insert name (givenMacro name args body isVariadic) }

/-- The name under which a type is kept. -/
def canonicalType (cb : Codebase) (name : String) : String :=
  match cb.types.find? name with
  | some (.further canonical) => canonical
  | _ => name

/-- The definition of a type. -/
def findType? (cb : Codebase) (name : String) : Option Definition :=
  match cb.types.find? (cb.canonicalType name) with
  | some (.own d) => some d
  | _ => none

/-- The definitions of types with all their names. -/
def typeDefinitions (cb : Codebase) : List (String × Definition) :=
  cb.types.keys.filterMap fun k => (cb.findType? k).map fun d => (k, d)

/-- The definitions of one of the tables, by its name. -/
def definitionsIn (cb : Codebase) (table : String) : List Definition :=
  match table with
  | "types" => cb.typeDefinitions.map Prod.snd
  | "names" => cb.names.values
  | "macros" => cb.macros.values
  | "fields" => cb.fields.values.flatMap Table.values
  | "static_names" => cb.staticNames.values.flatMap Table.values
  | _ => []

/-- All fields, each with its record. -/
def fieldsWithRecords (cb : Codebase) : List (Definition × Definition) :=
  cb.fields.entries.flatMap fun (record, fields) =>
    match cb.findType? record with
    | some r => fields.values.map fun d => (r, d)
    | none => []

/-! ## Copies

A record that stands inside another one is an entry of its own as well, and the
members of a record are entries among the fields, maybe of several records.  A
change of one of them shows in every copy. -/

/-- Changes all records. -/
def mapRecords (f : RecordDecl → RecordDecl) (cb : Codebase) : Codebase :=
  { cb with types := cb.types.mapValues fun e =>
      match e with
      | .own d =>
        match d.details with
        | some (.record r) => .own { d with details := some (.record (f r)) }
        | _ => e
      | .further _ => e }

/-- Changes the variables of the fields. -/
def mapFields (f : Variable → Variable) (cb : Codebase) : Codebase :=
  { cb with fields := cb.fields.mapValues fun t => t.mapValues fun d =>
      match d.details with
      | some (.var v) => { d with details := some (.var (f v)) }
      | _ => d }

/-- Gives the entries of a code base new numbers. -/
def renumber (f : Nat → Nat) (cb : Codebase) : Codebase :=
  (cb.mapRecords (RecordDecl.renumber f)).mapFields fun v => { v with entry := f v.entry }

end Codebase

/-- What a variable or a record looks like from now on, wherever a copy of it is
kept. -/
inductive Change where
  | var (v : Variable)
  | record (r : RecordDecl)

namespace Change

/-- The change to what a definition holds. -/
def ofDefinition (d : Definition) : List Change :=
  match d.details with
  | some (.var v) => [.var v]
  | some (.record r) => [.record r]
  | _ => []

/-- Brings a variable up to date. -/
def onVariable (v : Variable) : Change → Variable
  | var new => new.refresh v
  | record _ => v

/-- Brings a record up to date, with all that is inside it. -/
def onRecord (r : RecordDecl) : Change → RecordDecl
  | var new => r.refreshVariable new
  | record new => new.refresh r

/-- Brings a code base up to date. -/
def onCodebase (cb : Codebase) : Change → Codebase
  | var new => (cb.mapRecords (RecordDecl.refreshVariable new)).mapFields new.refresh
  | record new => cb.mapRecords new.refresh

end Change

/-- The variable after some changes. -/
def Variable.after (v : Variable) (changes : List Change) : Variable :=
  changes.foldl Change.onVariable v

/-- The record after some changes. -/
def RecordDecl.after (r : RecordDecl) (changes : List Change) : RecordDecl :=
  changes.foldl Change.onRecord r

namespace Codebase

/-- The code base after some changes. -/
def after (cb : Codebase) (changes : List Change) : Codebase := changes.foldl Change.onCodebase cb

/-! ## Entering definitions

Where a name is there already, both definitions of it can change.  The answer
lists the changes, for all who hold copies outside the code base. -/

/-- Enters a type. -/
def upsertType (cb : Codebase) (d : Definition) : Audit (Codebase × List Change) := do
  match cb.findType? d.name with
  | none => return ({ cb with types := cb.types.insert d.name (.own d) }, [])
  | some old =>
    let (old, new) ← old.merge d
    let changes := Change.ofDefinition old ++ Change.ofDefinition new
    let cb := { cb with types := cb.types.insert (cb.canonicalType d.name) (.own old) }
    return (cb.after changes, changes)

/-- Enters the definition of a field of a record. -/
def upsertField (cb : Codebase) (record : String) (d : Definition) :
    Audit (Codebase × List Change) := do
  let t := (cb.fields.find? record).getD {}
  match t.find? d.name with
  | none => return ({ cb with fields := cb.fields.insert record (t.insert d.name d) }, [])
  | some old =>
    let (old, new) ← old.merge d
    let changes := Change.ofDefinition old ++ Change.ofDefinition new
    let cb := { cb with fields := cb.fields.insert record (t.insert d.name old) }
    return (cb.after changes, changes)

/-- The macros of the code base. -/
def macroTable (cb : Codebase) : Table MacroDecl :=
  ⟨cb.macros.entries.filterMap fun (k, d) =>
    match d.details with
    | some (.macroDef m) => some (k, m)
    | _ => none⟩

/-- All macros with their traits looked at. -/
def examineMacros (cb : Codebase) : Codebase :=
  { cb with macros := cb.macros.mapValues fun d =>
      match d.details with
      | some (.macroDef m) => { d with details := some (.macroDef m.examined) }
      | _ => d }

/-! ## Type definitions -/

/-- Follows type definitions from a name to a known type, or as far as new names lead. -/
def followTypedefs (cb : Codebase) (left : Nat) (seen : List String) (name : String) : String :=
  match left with
  | 0 => name
  | n + 1 =>
    if cb.types.contains name || seen.contains name then name
    else
      match cb.typedefs.find? name with
      | some next => followTypedefs cb n (name :: seen) next
      | none => name

/-- The type for which a name stands. -/
def untypedef (cb : Codebase) (name : String) : String :=
  if cb.merged then ((cb.findType? name).map Definition.name).getD name
  else cb.followTypedefs (cb.typedefs.entries.length + 1) [] name

/-- Makes an alias a further name of its record. -/
def mergeTypedef (cb : Codebase) (name : String) : Codebase :=
  if cb.types.contains name then cb
  else
    let target := cb.untypedef name
    match cb.findType? target with
    | none => cb
    | some d =>
      { cb with
        types := cb.types.insert name (.further (cb.canonicalType target))
        restrictedTypes :=
          if d.hidden then addName cb.restrictedTypes name else cb.restrictedTypes }

/-- Makes every alias of a record a further name of its definition. -/
def fillTypedefs (cb : Codebase) : Codebase :=
  if cb.merged then cb
  else { cb.typedefs.keys.foldl mergeTypedef cb with merged := true }

/-- Merges the type definitions and collects the names of types, once. -/
def finalize (cb : Codebase) : Codebase :=
  if cb.merged then cb
  else
    let cb := cb.fillTypedefs
    { cb with allTypes := cb.types.keys.filter fun k => !k.startsWith "(" }

/-- The type of a field, empty if it is not known. -/
def fieldType (cb : Codebase) (record field : String) : String :=
  match (cb.fields.find? record).bind fun t => t.find? field with
  | none => ""
  | some d => if d.type.isEmpty then "" else cb.untypedef (Declaration.baseType d.type)

end Codebase

end CBoundary
