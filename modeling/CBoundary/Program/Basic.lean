import CBoundary.Cache
import CBoundary.Code.Scan
import CBoundary.Survey.Stats
import CBoundary.Workspace.Description

/-!
# Programs

A program works on the files of a disk and leaves a transcript.  It may stop with a fault; what it
has printed and written until then stays.
-/

namespace CBoundary

/-- A macro that is given, not found in a source. -/
structure GivenMacro where
  name : String
  args : Option (List String) := none
  body : Option String := none
  isVariadic : Bool := false
  deriving DecidableEq, Repr, Inhabited

/-- What is to be known about a code base beforehand. -/
structure Config where
  modules : List Module := []
  macros : List GivenMacro := []
  /-- Further files to scan, each before the ones named earlier. -/
  files : List String := []
  deriving Repr, Inhabited

/-- Where the configuration of a code base is, from its root. -/
def Config.file : String := "dist/modularity/wt_defs.py"

/-- The results of a survey that are kept for the next one. -/
inductive Artifact where
  | codebase (cb : Codebase)
  | uses (l : List Survey.Use)
  | stats (s : Survey.Stats Survey.Key × Survey.Stats Survey.Key)

/-- The files that programs work on. -/
structure Disk where
  tree : FileTree := {}
  /-- The configuration and where it is; it may be that it cannot be read. -/
  config : Option (String × Except Fault Config) := none
  kept : Cache.Store Artifact := {}

/-- The disk with some files, and maybe a configuration. -/
def Disk.ofTree (tree : FileTree) (config : Option (String × Except Fault Config)) : Disk :=
  { tree, config := config.map fun (path, c) => (Path.normalize path, c)
    kept := tree.files.keys.foldl (fun s path => s.write path { time := 0 }) { present := 1 } }

/-- What a program changes. -/
structure World where
  log : Transcript := #[]
  disk : Disk := {}

/-- A program with a result. -/
abbrev Program (α : Type) : Type := ExceptT Fault (StateM World) α

namespace Program

/-- Runs an audit as a part of a program. -/
def audit {α : Type} (a : Audit α) : Program α :=
  ExceptT.mk fun world =>
    let (r, log) := StateT.run (ExceptT.run a) world.log
    (r, { world with log })

/-- Prints a line. -/
def printLine (text : String) : Program Unit := audit (Audit.print (text ++ "\n"))

/-- The files of the disk. -/
def tree : Program FileTree := return (← get).disk.tree

/-- Changes the disk. -/
def modifyDisk (f : Disk → Disk) : Program Unit :=
  modify fun world => { world with disk := f world.disk }

/-- The workspace of a root, with the modules described there. -/
def openRoot (path : String) : Program Workspace := do
  let w ← audit (Workspace.ofRoot (← tree) path)
  modifyDisk fun d => { d with kept := { d.kept with root := w.root } }
  return w

/-- Reads the configuration at a path. -/
def readConfig (path : String) : Program Config := do
  match (← get).disk.config with
  | some (place, config) =>
    if place == Path.normalize path then
      match config with
      | .ok c => return c
      | .error f => throw f
    else throw (.missingFile path)
  | none => throw (.missingFile path)

/-- The workspace with other modules. -/
def withModules (w : Workspace) (ms : List Module) : Program Workspace :=
  match w.setModules ms with
  | .ok w => return w
  | .error e => throw (.modules e)

/-- The sources of a workspace, with further files in front of them. -/
def sourceList (w : Workspace) (tree : FileTree) (further : List String) : List String :=
  further.foldl (fun files f => Path.join (Path.normalize w.root) f :: files)
    (Workspace.allFiles w.root tree)

/-- The sources of a workspace on the disk. -/
def sources (w : Workspace) (further : List String) : Program (List String) :=
  return sourceList w (← tree) further

/-- A code base with nothing but given macros. -/
def givenBase (macros : List GivenMacro) : Codebase :=
  macros.foldl (fun (cb : Codebase) m =>
    cb.addGivenMacro m.name m.args m.body m.isVariadic) Codebase.empty

/-- The code base of some files and given macros. -/
def scan (w : Workspace) (twoPass : Bool) (macros : List GivenMacro) (files : List String) :
    Program Codebase := do
  audit ((givenBase macros).scanFiles { workspace := w } (← tree) twoPass true files)

/-- One if there was no error, else zero. -/
def exitCode : Program Nat := do
  return if (← get).log.errors == 0 then 1 else 0

end Program

/-- How a program ended, what it printed, and the disk that it left. -/
structure Outcome where
  exit : Except Fault Nat
  text : String
  disk : Disk

namespace Outcome

/-- Runs a program with given settings. -/
def ofProgram (settings : LogSettings) (disk : Disk) (p : Program Nat) : Outcome :=
  let (exit, world) := StateT.run (ExceptT.run p) { disk }
  { exit, text := world.log.text settings, disk := world.disk }

/-- Ends a program that stopped at a missing file with a message. -/
def settled (o : Outcome) : Outcome :=
  match o.exit with
  | .error (.missingFile path) =>
    { o with exit := .ok 1, text := o.text ++ s!"\nNo such file or directory: {path}\n" }
  | _ => o

end Outcome

end CBoundary

namespace CBoundary.Program

/-! ## Checking a code base -/

/-- The path on a command line. -/
def rootArgument (args : List String) : Program String :=
  match args with
  | path :: _ => return Path.normalize path
  | [] => throw .missingArgument

/-- The workspace of a root, configured, and the sources. -/
def openConfigured (path : String) : Program (Workspace × Config × List String) := do
  let w ← openRoot path
  let config ← readConfig (Path.join w.root Config.file)
  let w ← withModules w config.modules
  return (w, config, ← sources w config.files)

/-- Checks the code base below a root. -/
def check (args : List String) : Program Nat := do
  let (w, config, files) ← openConfigured (← rootArgument args)
  let cb ← scan w true config.macros files
  let _ ← audit ((Checker.ofCodebase cb).scan true true fun _ => return ([] : List Unit))
  exitCode

end CBoundary.Program
