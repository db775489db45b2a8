import CBoundary.Program.Command

/-!
# The command line

The first word chooses a command, the others are its arguments:

* `check ROOT`: reports accesses to what is private to another module
* `scan OPTIONS ROOT`: lists modules, their contents or metrics, or uses
* `trace ROOT`: prints every use
* `rename ROOT SCRIPT`: renames fields
-/

namespace CBoundary

/-- The files below a directory, by their paths. -/
partial def filesBelow (dir : String) : IO (List String) := do
  let place ← IO.FS.realPath dir
  if !(← place.isDir) then return []
  let entries ← place.readDir
  let parts ← entries.toList.mapM fun entry => do
    let path := Path.join dir entry.fileName
    if ← entry.path.isDir then filesBelow path else return [path]
  return parts.flatten

/-- A file with its text; nothing if it cannot be read. -/
def readEntry (path : String) : IO (Option (String × String)) := do
  try return some (path, ← IO.FS.readFile path)
  catch _ => return none

/-- The disk with what a command may read. -/
def loadDisk (root : String) : IO Disk := do
  let paths ← try filesBelow (Path.join root "src") catch _ => pure []
  let configPath := Path.join root Config.file
  let config ← readEntry configPath
  let config := config.map fun (path, text) => (path, Config.ofText text)
  let further := match config with
    | some (_, .ok c) => c.files.map (Path.join root)
    | _ => []
  let entries ← (paths ++ further ++ [Path.join root Program.tracedHeader]).filterMapM readEntry
  return .ofTree (.ofList entries) config

/-- The root that a command works on. -/
def Command.root : Command → String
  | check args => args.headD "."
  | trace args => args.headD "."
  | survey args => ((Survey.Options.parse args).toOption.map Survey.Options.home).getD "."
  | rename path _ => path.getD "."

/-- The command that a command line names. -/
def readCommand (args : List String) : IO (Option Command) := do
  match args with
  | "check" :: args => return some (.check args)
  | "scan" :: args => return some (.survey args)
  | "trace" :: args => return some (.trace args)
  | "rename" :: root :: script :: _ =>
    match ← readEntry script with
    | some (_, text) => return (RenameTable.ofScript? text).map fun ts => .rename (some root) (some ts)
    | none => return none
  | "rename" :: _ => return some (.rename none none)
  | _ => return none

/-- Writes the files that a command has changed. -/
def writeChanges (before after : FileTree) : IO Unit :=
  after.files.entries.forM fun (path, text) =>
    if before.find? path == some text then return () else IO.FS.writeFile path text

/-- Runs a command, and answers with its exit code. -/
def runCommand (c : Command) : IO UInt32 := do
  let disk ← loadDisk c.root
  let outcome := c.runSettled disk
  IO.print outcome.text
  writeChanges disk.tree outcome.disk.tree
  match outcome.exit with
  | .ok n => return UInt32.ofNat n
  | .error f =>
    IO.eprintln ((f.message?).getD "The analysis stopped.")
    return 1

end CBoundary

/-- Runs the command that the command line names. -/
def main (args : List String) : IO UInt32 := do
  match ← CBoundary.readCommand args with
  | some c => CBoundary.runCommand c
  | none =>
    IO.eprintln "Usage: check ROOT | scan OPTIONS ROOT | trace ROOT | rename ROOT SCRIPT"
    return 2
