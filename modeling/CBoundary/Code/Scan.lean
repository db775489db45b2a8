import CBoundary.Code.Base
import CBoundary.Code.Visibility
import CBoundary.Macro.Expand

/-!
# Scanning sources

Scanning a text enters its definitions into a code base.  Files are scanned in one pass, or in
two: the first collects the macros of all files, the second expands them and collects the rest.
The second can be split into tasks, one for each file, whose results are merged.
-/

namespace CBoundary.Codebase

open Audit

/-- The place of an offset in the innermost scope. -/
def placeOf (c : Context) (offset : Int) : Place := .offset c.file (c.offset + offset)

/-! ## Records -/

/-- The verdict about a record, from the enclosing one or from the file. -/
def recordVerdict (c : Context) (cb : Codebase) (r : RecordDecl) : Audit Visibility.Verdict :=
  match r.parent with
  | some parent =>
    let outer := cb.findType? parent
    Visibility.check c (.record r) (outer.bind Definition.isPrivate)
      ((outer.map Definition.moduleName).getD "") true
  | none => Visibility.check c (.record r) c.file.isPrivate c.file.moduleName false

/-- Enters the fields of a record; answers with the changes too. -/
def addFields (c : Context) (r : RecordDecl) (cb : Codebase) :
    Audit (Codebase × List Change) := do
  let verdict ← Visibility.check c (.record r) c.file.isPrivate c.file.moduleName true
  (r.members.getD []).foldlM (fun (cb, changes) member => do
    let member := member.after changes
    let (cb, more) ← cb.upsertField r.name.value
      { name := member.name.value
        kind := "field"
        scope := member.scope
        offset := member.name.span.start
        moduleName := verdict.moduleName
        isPrivate := verdict.isPrivate
        details := some (.var member) }
    return (cb, changes ++ more)) (cb, [])

/-- Enters a record with its fields and its type definitions, but not the records inside it. -/
def enterRecord (c : Context) (isGlobal : Bool) (r : RecordDecl) (cb : Codebase) :
    Audit (Codebase × List Change) := do
  let key := r.name.value
  let verdict ← recordVerdict c cb r
  let (cb, changes) ← cb.upsertType
    { name := key
      kind := "record"
      scope := r.scope
      offset := r.name.span.start
      moduleName := verdict.moduleName
      isPrivate := verdict.isPrivate
      details := some (.record r) }
  trace .debug3 (placeOf c r.name.span.start)
    (.entered "Record" (((cb.findType? key).map Definition.short).getD ""))
  let r := r.after changes
  let cb := if verdict.isPrivate == some true then
    { cb with restrictedTypes := addName cb.restrictedTypes key } else cb
  let (cb, more) ← addFields c r cb
  let cb := { cb with
    typedefs := (r.typedefs.getD []).foldl (fun t v => t.insert v.name.value key) cb.typedefs }
  if isGlobal && !(r.vardefs.getD []).isEmpty then
    report .ignoredGlobal (placeOf c r.name.span.start) (.recordVariablesIgnored key)
  return (cb, changes ++ more)

/-- Enters a record and the records inside it, each as those before it have left it. -/
def addTree (c : Context) (isGlobal : Bool) (r : RecordDecl) (cb : Codebase) :
    Audit (Codebase × List Change) := do
  let (cb, changes) ← enterRecord c isGlobal r cb
  ((r.after changes).nested.getD []).foldlM (fun (acc : Codebase × List Change) n => do
    let n := n.after acc.2
    if _h : n.bodyLength < r.bodyLength then
      let (cb, more) ← addTree c true n acc.1
      return (cb, acc.2 ++ more)
    else return acc) (cb, changes)
termination_by r.bodyLength

/-- Enters a record, as an entry with a number of its own, and the records inside it. -/
def addRecord (c : Context) (isGlobal : Bool) (r : RecordDecl) (cb : Codebase) :
    Audit (Codebase × RecordDecl) := do
  let r ← r.withMembers c
  let number := cb.entries + 1
  let r := r.renumber fun _ => number
  let (cb, changes) ← addTree c isGlobal r { cb with entries := number }
  return (cb, r.after changes)

/-! ## Macros -/

/-- Enters a macro. -/
def addMacro (c : Context) (m : MacroDecl) (cb : Codebase) : Audit Codebase := do
  let verdict ← Visibility.check c (.macroDef m) c.file.isPrivate c.file.moduleName false
  let d : Definition :=
    { name := m.name.value
      kind := "macro"
      scope := c.scope
      offset := m.name.span.start
      moduleName := verdict.moduleName
      isPrivate := verdict.isPrivate
      details := some (.macroDef m) }
  trace .debug3 (placeOf c m.name.span.start) (.entered "Macro" d.short)
  let (macros, _) ← d.upsert cb.macros
  return { cb with macros }

/-- Enters the macro that a directive defines, if it defines one. -/
def addMacroOf (c : Context) (s : Statement) (cb : Codebase) : Audit Codebase :=
  match MacroDecl.ofTokens s.tokens with
  | some m => addMacro c m cb
  | none => return cb

/-! ## Functions -/

/-- Enters a function; a static one of a source file is private to that file. -/
def addFunction (c : Context) (f : FunctionDecl) (cb : Codebase) : Audit Codebase := do
  let isLocal := f.isStatic && c.file.kind == .source
  let verdict ← Visibility.check c (.function f)
    (if isLocal then some true else c.file.isPrivate) c.file.moduleName false
  let d : Definition :=
    { name := f.name.value
      kind := "function"
      scope := f.scope
      offset := f.name.span.start
      moduleName := verdict.moduleName
      isPrivate := verdict.isPrivate
      details := some (.function f) }
  trace .debug3 d.place (.entered "Function" d.short)
  if isLocal then
    if d.hidden && !d.moduleName.isEmpty && !c.file.moduleName.isEmpty
        && d.moduleName != c.file.moduleName then
      report .moduleForeignDef d.place (.foreignStatic c.file.moduleName)
    let (t, _) ← d.upsert ((cb.staticNames.find? c.file.name).getD {})
    return { cb with staticNames := cb.staticNames.insert c.file.name t }
  else
    let (names, _) ← d.upsert cb.names
    return { cb with
      names
      restrictedNames :=
        if d.hidden then addName cb.restrictedNames d.name else cb.restrictedNames }

/-! ## Statements -/

/-- Enters a type definition, and hands its type on. -/
def addTypedef (c : Context) (s : Statement) (inherited : Option (List Token)) (cb : Codebase) :
    Audit (Codebase × Option (List Token)) := do
  let some v := Variable.ofDefinition c.scope s.tokens | return (cb, inherited)
  let v := v.inherit inherited
  if v.hasType then
    let base := Declaration.baseType (v.type.getD [])
    trace .debug3 (placeOf c s.span.start)
      (.typedef v.name.value (Tokens.displayType v.type) base)
    return ({ cb with typedefs := cb.typedefs.insert v.name.value base }, v.handsOn)
  else
    report .parseTypedef (placeOf c s.span.start) (.invalidTypedef v.name.value)
    return (cb, inherited)

/-- Enters what a statement other than a type definition defines. -/
def addStatement (c : Context) (directives : Bool) (s : Statement) (k : StatementKind)
    (cb : Codebase) : Audit Codebase := do
  if k.isFunctionDef then
    match ← FunctionDecl.ofStatement c.scope s.tokens with
    | some f => if f.body.isSome then addFunction c f cb else return cb
    | none => return cb
  else if k.isRecord then
    match ← RecordDecl.ofTokens c s.tokens none with
    | some r =>
      let (cb, _) ← addRecord c true r cb
      return cb
    | none => return cb
  else if k.isFunctionDecl then
    let f ← FunctionDecl.ofStatement c.scope s.tokens
    report .ignoredGlobal (placeOf c s.span.start) (.functionIgnored (f.map fun f => f.name.value))
    return cb
  else if k.isDecl then
    report .ignoredGlobal (placeOf c s.span.start) .variableIgnored
    return cb
  else if directives && k.isDirective then addMacroOf c s cb
  else return cb

/-- Enters the definitions of a text and of the `extern "C"` blocks in it, whose directives always
count. -/
def addText (c : Context) (offset : Int) (directives : Bool) (s : List Char) (cb : Codebase) :
    Audit Codebase := do
  trace .debug3 .heading (.scopeAt offset)
  let c := c.enterPiece offset
  let (cb, _) ← (Statement.scan s 0).foldlM
    (fun (acc : Codebase × Option (List Token)) st => do
      let (cb, inherited) := acc
      let k ← st.kind
      if (inherited.any fun ts => !ts.isEmpty) ||
          (k.isTypedef && !k.isRecord && !k.isFunctionDef) then
        addTypedef c st inherited cb
      else
        let isBlock := k.isExternC && !k.isFunctionDef && !k.isRecord && !k.isFunctionDecl &&
          !k.isDecl && !(directives && k.isDirective)
        match if isBlock then st.tokens.find? fun t => t.startsWith '\x7b' else none with
        | some body =>
          trace .debug3 (placeOf c st.span.start) .externBlock
          let inside := Text.interior body.chars
          if _h : inside.length < s.length then
            return (← addText c (body.span.start + 1) true inside cb, none)
          else return (cb, none)
        | none => return (← addStatement c directives st k cb, none)) (cb, none)
  return cb
termination_by s.length

/-- Enters the macros of a text, without looking at its code. -/
def addMacros (c : Context) (offset : Int) (s : List Char) (cb : Codebase) : Audit Codebase :=
  let c := c.enterPiece offset
  (Statement.scanDirectives s).foldlM (fun cb st => addMacroOf c st cb) cb

/-! ## Files -/

/-- Reads a file. -/
def readFile (w : Workspace) (tree : FileTree) (path : String) :
    Audit (SourceFile × List Char) := do
  let some text := tree.find? path | throw (.missingFile path)
  let s := Text.unifyLineBreaks text.toList
  return ((SourceFile.ofName w path).fillLines s, s)

/-- Enters the definitions of an expanded file. -/
def addExpandedFile (c : Context) (tree : FileTree) (path : String) (cb : Codebase) :
    Audit Codebase := do
  let (file, s) ← readFile c.workspace tree path
  let out := Macro.expand cb.macroTable false (.offset file) s
  out.notes.forM note
  let file := { file.setInserts out.inserts with expandList := out.expansions.toArray }
  addText (c.enterFile file 0) 0 false out.text cb.examineMacros

/-- Enters the definitions of a file, expanded or as it stands. -/
def addFile (c : Context) (tree : FileTree) (expand : Bool) (path : String) (cb : Codebase) :
    Audit Codebase := do
  trace .debug2 .heading (.scanning path)
  if expand then addExpandedFile c tree path cb
  else
    let (file, s) ← readFile c.workspace tree path
    addText (c.enterFile file 0) 0 true s cb

/-- Enters the macros of a file. -/
def addMacroFile (c : Context) (tree : FileTree) (path : String) (cb : Codebase) :
    Audit Codebase := do
  let (file, s) ← readFile c.workspace tree path
  addMacros (c.enterFile file 0) 0 s cb

/-- Enters all definitions of a table into another one. -/
def upsertAll (t : Table Definition) (ds : List Definition) : Audit (Table Definition) :=
  ds.foldlM (fun t d => do return (← d.upsert t).1) t

/-- Enters the definitions of nested tables. -/
def upsertNested (t : Table (Table Definition)) (src : Table (Table Definition)) :
    Audit (Table (Table Definition)) :=
  src.entries.foldlM (fun t (key, inner) => do
    return t.insert key (← upsertAll ((t.find? key).getD {}) inner.values)) t

/-- Enters the types of a code base into another one; answers with both. -/
def mergeTypes (src cb : Codebase) : Audit (Codebase × Codebase) :=
  src.types.keys.foldlM (fun (src, cb) key => do
    let some d := src.findType? key | return (src, cb)
    let (cb, changes) ← cb.upsertType d
    return (src.after changes, cb)) (src, cb)

/-- Enters the fields of a record into another code base; answers with both. -/
def mergeRecordFields (record : String) (src cb : Codebase) : Audit (Codebase × Codebase) :=
  let fields (cb : Codebase) : Table Definition := (cb.fields.find? record).getD {}
  let cb := if cb.fields.contains record then cb else
    { cb with fields := cb.fields.insert record {} }
  (fields src).keys.foldlM (fun (src, cb) name => do
    let some d := (fields src).find? name | return (src, cb)
    let (cb, changes) ← cb.upsertField record d
    return (src.after changes, cb)) (src, cb)

/-- Merges the result of a task, renumbered, without its lists of private things. -/
def mergeTask (path : String) (log : Transcript) (src cb : Codebase) : Audit Codebase := do
  trace .debug2 .heading (.scanning path)
  relay log
  let src := src.renumber (cb.entries + ·)
  let cb := { cb with
    entries := cb.entries + src.entries
    typedefs := src.typedefs.entries.foldl (fun t (k, v) => t.insert k v) cb.typedefs }
  let (src, cb) ← mergeTypes src cb
  let names ← upsertAll cb.names src.names.values
  let (_, cb) ← src.fields.keys.foldlM (fun (src, cb) record =>
    mergeRecordFields record src cb) (src, cb)
  let staticNames ← upsertNested cb.staticNames src.staticNames
  return { cb with names, staticNames }

/-- Scans files as tasks of their own, then merges the results in order. -/
def addFilesAsTasks (c : Context) (tree : FileTree) (paths : List String) (cb : Codebase) :
    Audit Codebase := do
  let results ← paths.mapM fun path =>
    match (addExpandedFile c tree path cb).task with
    | .ok (src, log) => return (path, src, log)
    | .error f => throw f
  results.foldlM (fun cb (path, src, log) => mergeTask path log src cb) cb

/-- Enters the macros of some files. -/
def addMacroFiles (c : Context) (tree : FileTree) (paths : List String) (cb : Codebase) :
    Audit Codebase :=
  paths.foldlM (fun cb path => addMacroFile c tree path cb) cb

/-- Scans files in one pass or two, the second pass in sequence or as tasks. -/
def scanFiles (c : Context) (tree : FileTree) (twoPass tasks : Bool) (paths : List String)
    (cb : Codebase) : Audit Codebase := do
  if twoPass then
    let cb ← addMacroFiles c tree paths cb
    if tasks then addFilesAsTasks c tree paths cb
    else paths.foldlM (fun cb path => addFile c tree true path cb) cb
  else paths.foldlM (fun cb path => addFile c tree false path cb) cb

/-- The local variables at the start of a function, records entered. -/
def localVariables (c : Context) (f : FunctionDecl) (cb : Codebase) :
    Audit (Codebase × List Variable) := do
  (f.locals c).foldlM (fun (acc : Codebase × List Variable) l => do
    match l with
    | .error fault => throw fault
    | .ok (.var v) => return (acc.1, acc.2 ++ [v])
    | .ok (.record r) =>
      let (cb, r) ← addRecord c false r acc.1
      return (cb, acc.2 ++ (r.vardefs.getD []))) (cb, [])

end CBoundary.Codebase
