import CBoundary.Program.Basic
import CBoundary.Rename
import CBoundary.Text.Literal

/-!
# Configurations and scripts

The literals that write a configuration: a table with the modules, the given macros and the
further files; and those that write a script: calls that name tables of new names for fields.
-/

namespace CBoundary

open Text (Literal)

namespace Module

/-- The fields of a module, in the order of its arguments. -/
def fieldNames : List String := ["name", "dirname", "fileAliases", "sourceAliases"]

/-- Sets a field of a module. -/
def setField? (f : Description.Fields) (name : String) (x : Literal) : Option Description.Fields :=
  match name with
  | "name" => x.text?.map fun name => { f with name }
  | "dirname" => x.text?.map fun dirname => { f with dirname }
  | "fileAliases" => x.texts?.map fun fileAliases => { f with fileAliases }
  | "sourceAliases" => x.texts?.map fun sourceAliases => { f with sourceAliases }
  | _ => none

/-- The module that a call writes. -/
def ofLiteral? : Literal → Option Module
  | .call "Module" args => do
    let named := args.zipIdx.map fun ((name, x), i) => ((name <|> fieldNames[i]?).getD "", x)
    let fields ← named.foldlM (fun f (name, x) => setField? f name x) {}
    return fields.toModule
  | _ => none

end Module

namespace GivenMacro

/-- The arguments that a literal writes: a number of nameless ones, or their names. -/
def argsOf : Literal → Option (List String)
  | .number n => some (List.replicate n.toNat "@")
  | .tuple l => l.mapM Literal.text?
  | _ => none

/-- Sets a field of a given macro. -/
def setField? (m : GivenMacro) (name : String) (x : Literal) : Option GivenMacro :=
  match name with
  | "name" => x.text?.map fun name => { m with name }
  | "args" => some { m with args := argsOf x }
  | "body" => some { m with body := x.text? }
  | "is_va_args" =>
    match x with
    | .word w => some { m with isVariadic := w == "True" }
    | _ => none
  | _ => none

/-- The given macro that a table writes. -/
def ofLiteral? (x : Literal) : Option GivenMacro := do
  (← x.entries?).foldlM (fun m (name, x) => setField? m name x) { name := "" }

end GivenMacro

/-- The configuration that a table writes. -/
def Config.ofLiteral? (x : Literal) : Option Config := do
  let es ← x.entries?
  let find (name : String) : Option Literal := (es.find? fun e => e.1 == name).map Prod.snd
  return { modules := ← (← (← find "modules").items?).mapM Module.ofLiteral?
           macros := ← (← (← find "extraMacros").items?).mapM GivenMacro.ofLiteral?
           files := ← (← find "extraFiles").texts? }

/-- The configuration that a text writes. -/
def Config.ofText (s : String) : Except Fault Config :=
  match Text.Literal.parse (Text.unifyLineBreaks s.toList) with
  | some [x] =>
    match ofLiteral? x with
    | some c => .ok c
    | none => .error .malformedDescription
  | _ => .error .malformedDescription

/-- The table of new names that a literal writes. -/
def RenameTable.ofLiteral? (x : Literal) : Option RenameTable := do
  let records ← (← x.entries?).mapM fun (record, fields) => do
    let names ← (← fields.entries?).mapM fun (old, new) => new.text?.map fun new => (old, new)
    return (record, Table.ofList names)
  return .ofList records

/-- The tables that the calls of a script name. -/
def RenameTable.ofScript? (s : String) : Option (List RenameTable) := do
  (← Text.Literal.parse (Text.unifyLineBreaks s.toList)).mapM fun
    | .call "renameFields" [(none, x)] => RenameTable.ofLiteral? x
    | _ => none

end CBoundary

namespace CBoundary.Rename

/-! ## The checkpoint script -/

/-- The fields that keep their name in the new record. -/
def checkpointFields : List String :=
  ["session", "tid", "tid_set", "cond", "most_recent", "logsize", "signalled", "apply",
    "apply_time", "drop", "drop_time", "lock", "lock_time", "meta_check", "meta_check_time",
    "skip", "skip_time", "usecs", "scrub_max", "scrub_min", "scrub_recent", "scrub_total",
    "prep_max", "prep_min", "prep_recent", "prep_total", "time_max", "time_min", "time_recent",
    "time_total", "prep_end", "prep_start", "timer_start", "timer_scrub_end",
    "progress_msg_count", "write_bytes", "write_pages"]

/-- The text of the script. -/
def checkpointScript : String :=
  "renameFields(\x7b\n\"__wt_connection_impl\": \x7b\n" ++
    String.join (checkpointFields.map fun name => s!"\"ckpt_{name}\": \"ckpt.{name}\",\n") ++
    "\"last_ckpt_base_write_gen\": \"ckpt.last_base_write_gen\",\n\x7d,\n\x7d)\n"

/-- The table of new names that the script is read as. -/
def checkpointTable : RenameTable := ((RenameTable.ofScript? checkpointScript).getD []).headD {}

end CBoundary.Rename
