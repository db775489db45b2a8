import CBoundary.Program.Basic
import CBoundary.Survey.Metrics

/-!
# Surveying a code base

Scans all sources below a root and lists its modules, their contents or metrics, or the uses
between them.  What was scanned and found is kept for the next survey.
-/

namespace CBoundary

namespace Survey

/-- The version of the tool. -/
def version : String := "0.4.3"

/-- A name for a list of texts, one to one and without slashes. -/
def nameOf (l : List String) : String :=
  String.join (l.map fun s => String.join (s.toList.map fun c => s!"{c.toNat}.") ++ "-")

/-- An option that may not be given, as texts. -/
def optionTexts (o : Option (List String)) : List String :=
  match o with
  | none => ["-"]
  | some l => toString l.length :: l

/-- All that the statistics are kept by.  How they are shown is not part of it. -/
def Options.texts (o : Options) : List String :=
  [o.home, o.level.name] ++ optionTexts o.selection.sources ++ optionTexts o.targets ++
    [o.detail.elim "" Detail.name, o.detailFrom.name, o.detailTo.name] ++
    [o.detailedMetrics, o.selection.unmodular, o.inner, o.calls, o.fields, o.macros,
      o.debug].map toString

/-- Uses as they are shown while they are found. -/
def displayUses (uses : List Use) : String := "\n".intercalate (uses.map Use.display)

/-- Is an event one of those that are looked at? -/
def Options.wantsEvent (o : Options) (e : AccessEvent) : Bool :=
  match e.access with
  | .expansion _ => o.macros
  | .name _ _ => o.calls
  | .chain _ => false
  | .field _ _ _ _ => o.fields

/-- Looks at all functions for uses. -/
def findUses (o : Options) (k : Checker) : Audit (List Use) := do
  let visit : Checker.Visitor (List Use) := fun e =>
    return if o.wantsEvent e then (usesOf k.codebase e).toList else []
  let parts ← (← k.taskResults false visit).mapM fun (log, found) => do
    Audit.relay log
    if o.debug then found.forM fun uses => Audit.printLine (displayUses uses)
    return found.flatten
  return parts.flatten

end Survey

namespace Program

open Survey

/-- A result that was kept on the disk, or else a new one, which is then kept. -/
def remember {α : Type} (enabled : Bool) (name suffix : String) (files : List String)
    (read : Artifact → Option α) (wrap : α → Artifact) (compute : Program α) : Program α :=
  Cache.Store.fetch (return (← get).disk.kept)
    (fun f => modifyDisk fun d => { d with kept := f d.kept }) enabled name files suffix read
    (fun x => some (wrap x)) compute

/-- The scanned code base. -/
def surveyCodebase (o : Options) (w : Workspace) (config : Config) (files : List String) :
    Program Codebase :=
  remember o.cache (s!"globals.{version}." ++ nameOf files) "" files
    (fun | .codebase cb => some cb | _ => none) .codebase (scan w true config.macros files)

/-- The uses in a code base, which is finished only to find them. -/
def surveyUses (o : Options) (cb : Codebase) (files : List String) :
    Program (Codebase × List Use) :=
  remember o.cache (s!"access.{version}." ++ nameOf files) "" files
    (fun | .uses l => some (cb, l) | _ => none) (fun (_, l) => .uses l)
    do
      let k := Checker.ofCodebase cb
      return (k.codebase, ← audit (findUses o k))

/-- The statistics of the uses that are asked for. -/
def surveyStats (o : Options) (w : Workspace) (cb : Codebase) (files : List String) :
    Program (Stats Key × Stats Key) :=
  remember o.cache (s!"stats.{version}." ++ nameOf files) ("." ++ nameOf o.texts) files
    (fun | .stats s => some s | _ => none) .stats
    do
      let (cb, uses) ← surveyUses o cb files
      return statsOf (uses.filter (o.wantsUse w cb))

/-- Surveys a code base. -/
def surveyWith (o : Options) : Program Nat := do
  let config ← readConfig (Path.join o.home Config.file)
  if o.listModules then
    audit (listModules config.modules)
    return 0
  let w ← withModules (← openRoot o.home) config.modules
  let files ← sources w config.files
  if o.clearCache then modifyDisk fun d => { d with kept := d.kept.clear }
  let cb ← surveyCodebase o w config files
  if o.selection.metrics.isSome then
    audit (printMetrics o w cb)
    return 0
  if o.selection.listed.isSome then
    audit (listContents o w cb)
    return 0
  let stats ← surveyStats o w cb files
  audit (Survey.printUses o stats)
  exitCode

/-- The names of all levels. -/
def levelNames : String := ", ".intercalate (Level.all.map fun l => l.name.toUpper)

/-- Answers a command line that leads to no survey. -/
def refuse (r : Refusal) : Program Nat :=
  match r with
  | .usage => return 2
  | .help => return 0
  | .version => do
    printLine ("scan_sources " ++ version)
    return 0
  | .level name => do
    printLine (s!"Invalid value: '{name}'. Should be one of: " ++ levelNames)
    return 1

/-- Surveys a code base as a command line says. -/
def survey (args : List String) : Program Nat :=
  match Options.parse args with
  | .error r => refuse r
  | .ok o =>
    match o.settle? with
    | some o => surveyWith o
    | none => do
      printLine "Error: Cannot specify more than one of --calls-only, --fields-only, --macros-only"
      return 1

end Program

end CBoundary
