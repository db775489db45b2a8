import CBoundary.Survey.Options

/-!
# Listings

Lists of the modules, of what belongs to them, and of the uses between them.
-/

namespace CBoundary

/-- Prints a line. -/
def Audit.printLine (text : String) : Audit Unit := Audit.print (text ++ "\n")

namespace Survey

open Audit

/-- Prints rows in columns. -/
def printColumns (rows : List (List String)) : Audit Unit :=
  printLine ("\n".intercalate (Columns.format rows))

/-! ## Modules -/

/-- What sets a module apart. -/
def describe (m : Module) : String :=
  ",   ".intercalate
    ((if m.dirname == m.name then [] else [s!"dirname: {m.dirname}"]) ++
    (if m.sourceAliases.isEmpty then [] else ["sourceAliases: " ++ Text.quoteList m.sourceAliases]) ++
    (if m.fileAliases.isEmpty then [] else ["fileAliases: " ++ Text.quoteList m.fileAliases]))

/-- Prints the modules in the order of their names. -/
def listModules (ms : List Module) : Audit Unit := do
  printLine "Modules:"
  printColumns ((ms.mergeSort fun a b => a.name ≤ b.name).map fun m => [m.name ++ ":", describe m])

/-! ## Contents -/

/-- The word for the privacy. -/
def visibility (d : Definition) : String := if d.hidden then "private" else "public"

/-- The line of a definition. -/
def listed (d : Definition) : String := d.place.text ++ " " ++ visibility d

/-- The wanted definitions, after the record looked at so far. -/
def wanted (o : Options) (w : Workspace) (cb : Codebase) (ds : List Definition) :
    StateM String (List Definition) :=
  ds.filterM fun d => o.selection.wantsListed w cb d

/-- The lines of a record and its wanted fields, if it or one of them is wanted. -/
def recordLines (o : Options) (w : Workspace) (cb : Codebase) (record : Definition)
    (fields : Table Definition) : StateM String (List String) := do
  let whole ← o.selection.wantsListed w cb record
  let fields ← fields.entries.filterM fun e => o.selection.wantsListed w cb e.2
  let head := if whole || !fields.isEmpty then [listed record ++ ":"] else []
  return head ++ fields.map fun (name, d) => s!"    {name} [{d.moduleName}] {visibility d}"

/-- The lines on functions. -/
def functionLines (o : Options) (w : Workspace) (cb : Codebase) : StateM String (List String) := do
  return "  == Functions:" :: (← wanted o w cb (Checker.functions cb)).map listed

/-- The lines on macros that stand in a source. -/
def macroLines (o : Options) (w : Workspace) (cb : Codebase) : StateM String (List String) := do
  let found := cb.macros.values.filter fun d => d.offset != 0
  return "  == Macros:" :: (← wanted o w cb found).map listed

/-- The lines on records and their fields. -/
def fieldLines (o : Options) (w : Workspace) (cb : Codebase) : StateM String (List String) := do
  let lines ← cb.fields.entries.mapM fun (record, fields) =>
    match cb.findType? record with
    | some d => recordLines o w cb d fields
    | none => return []
  return "  == Fields:" :: lines.flatten

/-- The lines on what modules or files contain. -/
def contentLines (o : Options) (w : Workspace) (cb : Codebase) : StateM String (List String) := do
  let calls ← if o.calls then functionLines o w cb else pure []
  let macros ← if o.macros then macroLines o w cb else pure []
  let fields ← if o.fields then fieldLines o w cb else pure []
  return calls ++ macros ++ fields

/-- Prints what belongs to modules or files. -/
def listContents (o : Options) (w : Workspace) (cb : Codebase) : Audit Unit :=
  ((contentLines o w cb).run "").1.forM printLine

/-! ## Uses -/

/-- A line of source, with colors or without. -/
def snippetText (color : Bool) (s : Snippet) : String :=
  if s.text.isEmpty then ""
  else
    let paint (c : Color) : String := c.sequence color true none
    match color, s.range with
    | false, _ => "\n" ++ s.text
    | true, none => paint .dim ++ "\n" ++ s.text ++ paint .norm
    | true, some r =>
      let cs := s.text.toList
      "\n" ++ paint .dim ++ String.ofList (Text.slice cs 0 r.start) ++ paint .yellow ++
        String.ofList (Text.slice cs r.start r.stop) ++ paint .dim ++
        String.ofList (Text.sliceFrom cs r.stop) ++ paint .norm

/-- The cells of a key at a level of detail. -/
def cells (color : Bool) (d : Detail) (k : Key) : List String :=
  let moduleCell := s!"[{k.moduleName}]"
  let place := s!"{k.file}:{k.position.1}:{k.position.2}:"
  match d with
  | .mod => [moduleCell]
  | .file => [moduleCell, k.file]
  | .defn => [moduleCell, place, k.kind, k.name]
  | .full => [moduleCell, place, k.kind, k.name, snippetText color k.snippet]

/-- The counts of a table in the order of their keys. -/
def sortedCounts {α : Type} (l : Counts Key α) : List (Key × α) :=
  l.mergeSort fun a b => Key.le a.1 b.1

/-- Prints the uses by source, or by target. -/
def printUses (o : Options) (stats : Stats Key × Stats Key) : Audit Unit := do
  let (table, outer, inner, arrow) :=
    if o.reverse then (stats.2, o.detailTo, o.detailFrom, "<-")
    else (stats.1, o.detailFrom, o.detailTo, "->")
  (sortedCounts ((table.get? outer).getD [])).forM fun (source, targets) => do
    printLine (" ".intercalate (cells o.color outer source ++ [arrow]))
    printColumns ((sortedCounts ((targets.get? inner).getD [])).map fun (target, n) =>
      cells o.color inner target ++ (if 0 < n then [":", toString n] else ["", ""]))

end Survey

end CBoundary
