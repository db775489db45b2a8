import CBoundary.Survey.Listing

/-!
# Metrics

How many fields of the records of a module are public or private, and how many of its names
follow the naming rule, which is a mark in front and then the name or an alias of the module.
-/

namespace CBoundary.Survey

open Audit

/-- Two counters. -/
structure Split where
  first : Nat := 0
  second : Nat := 0
  deriving DecidableEq, Repr, Inhabited

/-- Counts one up. -/
def Split.add (s : Split) (isFirst : Bool) : Split :=
  if isFirst then { s with first := s.first + 1 } else { s with second := s.second + 1 }

/-- The metrics of a module. -/
structure Metrics where
  name : String
  fields : Option Split := none
  naming : Option Split := none
  deriving DecidableEq, Repr, Inhabited

namespace Metrics

/-- Changes the metrics of a module that has some. -/
def update (moduleName : String) (f : Metrics → Metrics) (l : List Metrics) :
    Audit (List Metrics) := do
  if l.any fun m => m.name == moduleName then
    return l.map fun m => if m.name == moduleName then f m else m
  throw .noModule

/-- Counts one field. -/
def addField (d : Definition) (m : Metrics) : Metrics :=
  { m with fields := some ((m.fields.getD {}).add (!d.hidden)) }

/-- Counts one name. -/
def addName (isValid : Bool) (m : Metrics) : Metrics :=
  { m with naming := some ((m.naming.getD {}).add isValid) }

/-! ## Display -/

/-- A character inside a string. -/
def jsonChar (c : Char) : List Char :=
  if c == '\"' || c == '\\' then ['\\', c]
  else if c == '\n' then ['\\', 'n']
  else if c == '\r' then ['\\', 'r']
  else if c == '\t' then ['\\', 't']
  else if c == '\x0c' then ['\\', 'f']
  else if c == '\x08' then ['\\', 'b']
  else if 0x20 ≤ c.toNat && c.toNat < 0x7f then [c]
  else if c.toNat < 0x10000 then '\\' :: 'u' :: Text.hexDigits 4 c.toNat
  else
    let n := c.toNat - 0x10000
    '\\' :: 'u' :: Text.hexDigits 4 (0xd800 + n / 0x400) ++
      '\\' :: 'u' :: Text.hexDigits 4 (0xdc00 + n % 0x400)

/-- A text as a JSON string. -/
def jsonText (s : String) : String := "\"" ++ String.ofList (s.toList.flatMap jsonChar) ++ "\""

/-- A line with its indentation. -/
def line (depth : Nat) (text : String) : String :=
  String.ofList (List.replicate (4 * depth) ' ') ++ text

/-- Puts commas behind all blocks of lines but the last. -/
def commaSeparated : List (List String) → List String
  | [] => []
  | [b] => b
  | b :: bs => b.dropLast ++ (b.getLast?.map (· ++ ",")).toList ++ commaSeparated bs

/-- The lines of one counter. -/
def counterLines (depth : Nat) (name : String) (n : Nat) : List String :=
  [line depth "\x7b", line (depth + 1) (s!"\"name\": " ++ jsonText name ++ ","),
   line (depth + 1) s!"\"value\": {n}", line depth "\x7d"]

/-- The lines of two counters under a name. -/
def splitLines (depth : Nat) (name first second : String) (s : Split) : List String :=
  [line depth (jsonText name ++ ": [")] ++
    commaSeparated [counterLines (depth + 1) first s.first, counterLines (depth + 1) second s.second] ++
    [line depth "]"]

/-- The lines of the metrics of a module. -/
def lines (depth : Nat) (m : Metrics) : List String :=
  let parts :=
    (m.fields.map (splitLines (depth + 2) "field_access" "Public" "Private")).toList ++
    (m.naming.map (splitLines (depth + 2) "naming" "Valid" "Invalid")).toList
  let name := "\"name\": " ++ jsonText m.name
  let body :=
    if parts.isEmpty then [line (depth + 1) name]
    else [line (depth + 1) (name ++ ","), line (depth + 1) "\"metrics\": \x7b"] ++
      commaSeparated parts ++ [line (depth + 1) "\x7d"]
  [line depth "\x7b"] ++ body ++ [line depth "\x7d"]

/-- The lines of the metrics of all modules. -/
def allLines (l : List Metrics) : List String :=
  ["\x7b", line 1 "\"modules_metrics\": ["] ++ commaSeparated (l.map (lines 2)) ++
    [line 1 "]", "\x7d"]

end Metrics

/-! ## Names -/

/-- The marks before the names of functions. -/
def functionMarks : List String := ["__wt_", "__wti_", "__ut_", "__"]

/-- The marks before the names of macros and records. -/
def typeMarks : List String := ["__wt_", "__wti_", "WT_", "WTI_"]

/-- Does a name start with a mark and a name of its module, if that has any? -/
def isValidName (marks modules : List String) (name : String) : Bool :=
  marks.any fun mark =>
    name.startsWith mark && (modules.isEmpty || modules.any fun m =>
      Text.Pattern.matchesAt false (name.toList.drop mark.length) (Text.Pattern.parse m.toList))

/-- A name in small letters. -/
def smallLetters (s : String) : String := String.ofList (s.toList.map Char.toLower)

/-- The name and the aliases of a module. -/
def moduleNames (w : Workspace) (moduleName : String) : Audit (List String) :=
  if moduleName.isEmpty then return []
  else
    match w.modules.find? moduleName with
    | some m => return moduleName :: m.sourceAliases
    | none => throw (.unknownName moduleName)

/-- Counts the name of a definition. -/
def countName (o : Options) (w : Workspace) (marks : List String) (ignoreCase : Bool)
    (l : List Metrics) (d : Definition) : Audit (List Metrics) := do
  let modules ← moduleNames w d.moduleName
  if !o.selection.wantsMetric d then return l
  let valid :=
    if ignoreCase then
      isValidName (marks.map smallLetters) (modules.map smallLetters) (smallLetters d.name)
    else isValidName marks modules d.name
  let l ← Metrics.update d.moduleName (Metrics.addName valid) l
  if o.detailedMetrics && !valid then
    printLine s!"[{d.moduleName}] Invalid {d.kind} name: {d.name}"
  return l

/-- Counts a field. -/
def countField (o : Options) (l : List Metrics) (d : Definition) : Audit (List Metrics) := do
  if !o.selection.wantsMetric d then return l
  let l ← Metrics.update d.moduleName (Metrics.addField d) l
  if o.detailedMetrics && !d.hidden then printLine s!"[{d.moduleName}] Public field: {d.name}"
  return l

/-- Prints the metrics asked for, and those of no module. -/
def printMetrics (o : Options) (w : Workspace) (cb : Codebase) : Audit Unit := do
  let asked := given o.selection.metrics
  let names := w.modules.keys.filter fun m => asked.isEmpty || asked.contains m
  let l : List Metrics := ("" :: names).map fun name => { name }
  let l ← (cb.fields.values.flatMap Table.values).foldlM (countField o) l
  let l ← cb.macros.values.foldlM (countName o w typeMarks true) l
  let l ← (Checker.functions cb).foldlM (countName o w functionMarks false) l
  let l ← (cb.typeDefinitions.map Prod.snd).foldlM (countName o w typeMarks false) l
  (Metrics.allLines l).forM printLine

end CBoundary.Survey
