import CBoundary.Program.Script
import CBoundary.Program.Survey

/-!
# Commands

The programs that rename fields in a code base and trace it, and all programs by name, each with
the level of the diagnostics that it shows.
-/

namespace CBoundary

/-! ## Renaming -/

/-- Takes macros written with a type for functions, unless there is such a function. -/
def Codebase.withTypedMacros (cb : Codebase) : Codebase :=
  let cb := cb.examineMacros
  cb.macros.values.foldl (fun (cb : Codebase) d =>
    match d.details with
    | some (.macroDef m) =>
      if m.hasType && !cb.names.contains m.name.value then
        { cb with names := cb.names.insert m.name.value d }
      else cb
    | _ => cb) cb

namespace Program

/-- Renames the fields of some tables below a root, if both are given. -/
def rename (path : Option String) (tables : Option (List RenameTable)) : Program Nat := do
  match path, tables with
  | some path, some tables =>
    let (w, config, files) ← openConfigured (Path.normalize path)
    let cb ← scan w false config.macros files
    let edits ← audit (Rename.renameAll cb.withTypedMacros (← tree) tables)
    let written ← audit (Rename.writePatches (← tree) (Rename.patchesByFile edits))
    modifyDisk fun d => { d with tree := written }
    exitCode
  | _, _ =>
    printLine "Usage: refactor.py <path> <script>"
    return 1

end Program

end CBoundary

namespace CBoundary.Program

/-! ## Tracing -/

/-- The modules of a traced code base. -/
def tracedModules : List Module :=
  [.make "block" "" [] [],
   .make "block_cache" "" ["block_chunkcache"] ["blkcache", "bm"],
   .make "bloom" "" [] [],
   .make "btree" "" ["btmem", "btree_cmp", "dhandle", "modify", "ref", "serial"] [],
   .make "call_log" "" [] [],
   .make "conf" "" [] ["conf_keys"],
   .make "config" "" [] [],
   .make "conn" "" ["connection"] ["connection"],
   .make "cursor" "" [] ["cur", "btcur", "curbackup"],
   .make "evict" "" ["cache"] [],
   .make "history" "" [] ["hs"],
   .make "log" "" [] [],
   .make "lsm" "" [] ["clsm"],
   .make "meta" "" [] ["metadata"],
   .make "optrack" "" [] [],
   .make "packing" "" [] ["pack"],
   .make "reconcile" "" [] ["rec"],
   .make "rollback_to_stable" "" [] ["rts"],
   .make "schema" "" [] [],
   .make "session" "" [] [],
   .make "tiered" "" [] [],
   .make "txn" "" [] ["truncate"],
   .make "bitstring" "" [] [],
   .make "cell" "" [] [],
   .make "checkpoint" "" [] ["ckpt"],
   .make "column" "" [] ["col"],
   .make "compact" "" [] [],
   .make "generation" "" [] [],
   .make "pack" "" ["intpack"] [],
   .make "stat" "" [] []]

/-- A macro that stands for its own name. -/
def markerMacro (name : String) : GivenMacro := { name, body := some name, isVariadic := true }

/-- The macros of a traced code base. -/
def tracedMacros : List GivenMacro :=
  [{ name := "__attribute__", args := some ["@"] },
   { name := "WT_UNUSED", args := some ["@"] },
   { name := "WT_ATTRIBUTE_LIBRARY_VISIBLE" },
   { name := "WT_INLINE" },
   { name := "inline" },
   markerMacro "WT_COMPILER_BARRIER",
   markerMacro "WT_FULL_BARRIER",
   markerMacro "WT_PAUSE",
   markerMacro "WT_ACQUIRE_BARRIER",
   markerMacro "WT_RELEASE_BARRIER"]

/-- The file that is scanned before all others. -/
def tracedHeader : String := "src/include/wiredtiger.in"

/-- A macro with its module. -/
def ownedMacro (cb : Codebase) (name : String) : String :=
  let owner := ((cb.macros.find? name).map Definition.moduleName).getD ""
  s!"[{owner}] {name}"

/-- The text for an event. -/
def eventText (cb : Codebase) (e : AccessEvent) : String :=
  let place := e.source.place.text
  match e.access with
  | .expansion x =>
    String.join (x.graph.entries.map fun (owner, names) =>
      place ++ " Macro expand: " ++
        (if owner.isEmpty then "" else "... " ++ ownedMacro cb owner ++ " -> ") ++
        ", ".intercalate (names.map (ownedMacro cb)) ++ "\n")
  | .name _ name =>
    let owner := ((cb.names.find? name).map Definition.moduleName).getD "*"
    place ++ s!" Call [{owner}] '{name}'\n"
  | .chain c => place ++ " Field chain " ++ c.display ++ "\n"
  | .field _ type field _ =>
    let owner := ((cb.findType? type).map Definition.moduleName).getD ""
    place ++ s!" Field access [{owner}] '{type}' -> '{field}'\n"

/-- Prints every use in all functions, behind the diagnostics for each. -/
def printUses (k : Checker) : Audit Unit := do
  (← k.taskResults false fun e => return [eventText k.codebase e]).forM fun (log, found) => do
    Audit.relay log
    found.forM Audit.print

/-- Traces the code base below a root. -/
def trace (args : List String) : Program Nat := do
  let w ← withModules (← openRoot (← rootArgument args)) tracedModules
  let cb ← scan w true tracedMacros (← sources w [tracedHeader])
  audit (printUses (Checker.ofCodebase cb))
  exitCode

end CBoundary.Program

namespace CBoundary

/-! ## All commands -/

/-- A program with its arguments. -/
inductive Command where
  | check (args : List String)
  | survey (args : List String)
  | trace (args : List String)
  | rename (path : Option String) (tables : Option (List RenameTable))
  deriving Inhabited

namespace Command

/-- The level of the diagnostics that are shown. -/
def level : Command → Level
  | check _ => .error
  | survey args =>
    match Survey.Options.parse args with
    | .ok o => o.level
    | .error _ => .quiet
  | trace _ => .quiet
  | rename _ _ => .fatal

/-- What is shown of the diagnostics: nothing about names that do not fit their
module. -/
def settings (c : Command) : LogSettings := { level := c.level, disabled := [.moduleNameMismatch] }

/-- The program of a command. -/
def program : Command → Program Nat
  | check args => Program.check args
  | survey args => Program.survey args
  | trace args => Program.trace args
  | rename path tables => Program.rename path tables

/-- Runs a command on a disk. -/
def run (c : Command) (disk : Disk) : Outcome := .ofProgram c.settings disk c.program

/-- Runs a command; if a file is missing it ends with a message, but for a trace. -/
def runSettled (c : Command) (disk : Disk) : Outcome :=
  match c with
  | trace _ => c.run disk
  | _ => (c.run disk).settled

end Command

end CBoundary
