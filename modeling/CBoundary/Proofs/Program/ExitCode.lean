import CBoundary.Program.Command
import CBoundary.Proofs.Code.Entries
import CBoundary.Proofs.Program
import CBoundary.Proofs.Workspace.Modules

/-!
# The exit code of a check

The exit code of a check tells whether errors were counted, and errors of tasks are not: they are
shown, but each task has a count of its own.
-/

namespace CBoundary

open Audit

/-- The error that an entry shows or would show, be it counted or taken over from a task. -/
def Entry.error? : Entry → Option Diagnostic
  | .logged d | .relayed d => if d.level.isError then some d else none
  | .printed _ => none

namespace Transcript

variable {t : Transcript}

theorem errors_append (s t : Transcript) : errors (s ++ t) = s.errors + t.errors :=
  Array.countP_append

theorem errors_eq_zero (h : ∀ e ∈ t, e.Uncounted) : t.errors = 0 :=
  Array.countP_eq_zero.mpr fun e he => by rw [h e he]; exact Bool.false_ne_true

theorem errors_eq_zero_of_seen (h : t.seen Entry.error? = []) : t.errors = 0 := by
  refine errors_eq_zero fun e he => ?_
  have hnone := List.filterMap_eq_nil_iff.mp h e (Array.mem_toList_iff.mpr he)
  cases e with
  | logged d =>
    cases hlevel : d.level.isError with
    | false => exact hlevel
    | true =>
      rw [Entry.error?, if_pos hlevel] at hnone
      cases hnone
  | relayed d => rfl
  | printed text => rfl

end Transcript

/-! ## Phases -/

section

variable (c : Context) (tree : FileTree) (paths : List String) (cb : Codebase)

theorem Codebase.uncounted_addFilesAsTasks :
    Adds Entry.Uncounted (addFilesAsTasks c tree paths cb) :=
  adds_addFilesAsTasks (fun _ => Entry.Minor.uncounted) (fun _ _ _ _ e _ => e.uncounted_relay) paths

theorem Codebase.steady_scanFiles : Steady (scanFiles c tree true true paths cb) :=
  adds_scanFiles (fun _ => trivial) (fun _ _ => trivial) c tree paths cb

end

theorem Checker.uncounted_scan {α : Type} (k : Checker) (onlyErrors : Bool) (visit : Visitor α) :
    Adds Entry.Uncounted (k.scan true onlyErrors visit) := by
  refine (adds_liftM _).bind fun results => Adds.bind ?_ fun _ => adds_pure _
  exact adds_mapM (fun _ => (adds_relay fun e _ => e.uncounted_relay).bind_pure) _

namespace Program

variable {r : Except Fault Nat} {n : Nat} {α : Type} {P : Entry → Prop} {w : World} {disk : Disk}
  {args : List String}

/-- A check that comes to its end, with what each phase finds and the transcript it leaves. -/
structure CheckRun (disk : Disk) (args : List String) where
  path : String
  rest : List String
  described : Workspace
  openingLog : Transcript
  config : Config
  workspace : Workspace
  macros : Codebase
  macroLog : Transcript
  codebase : Codebase
  scanLog : Transcript
  found : List Unit
  accessLog : Transcript
  args_eq : args = path :: rest
  opening : (Workspace.ofRoot disk.tree (Path.normalize path)).start = (.ok described, openingLog)
  configured : Config.at? disk.config (Path.join described.root Config.file) = .ok config
  modules : described.setModules config.modules = .ok workspace
  collecting : (Codebase.addMacroFiles { workspace } disk.tree
    (sourceList workspace disk.tree config.files) (givenBase config.macros)).start =
      (.ok macros, macroLog)
  scanning : (Codebase.addFilesAsTasks { workspace } disk.tree
    (sourceList workspace disk.tree config.files) macros).start = (.ok codebase, scanLog)
  checking : ((Checker.ofCodebase codebase).scan true true fun _ => return ([] : List Unit)).start =
    (.ok found, accessLog)

namespace CheckRun

variable {disk : Disk} {args : List String}

/-- The errors of the scan and of the look at the functions, whether they are counted or
not. -/
def errors (run : CheckRun disk args) : List Diagnostic :=
  (run.macroLog ++ run.scanLog ++ run.accessLog).seen Entry.error?

/-- The errors that are counted before any task starts. -/
def counted (run : CheckRun disk args) : Nat := run.openingLog.errors + run.macroLog.errors

/-- The transcript of the whole check. -/
def log (run : CheckRun disk args) : Transcript :=
  run.openingLog ++ run.macroLog ++ run.scanLog ++ run.accessLog

theorem errors_log (run : CheckRun disk args) : run.log.errors = run.counted := by
  have hscan : run.scanLog.errors = 0 := by
    have hentries := (Codebase.uncounted_addFilesAsTasks { workspace := run.workspace } disk.tree
      (sourceList run.workspace disk.tree run.config.files) run.macros).entries
    rw [run.scanning] at hentries
    exact Transcript.errors_eq_zero hentries
  have haccess : run.accessLog.errors = 0 := by
    have hentries := ((Checker.ofCodebase run.codebase).uncounted_scan true
      fun _ => return ([] : List Unit)).entries
    rw [run.checking] at hentries
    exact Transcript.errors_eq_zero hentries
  unfold log counted
  rw [Transcript.errors_append, Transcript.errors_append, Transcript.errors_append, hscan, haccess,
    Nat.add_zero]

theorem category_of_mem_macroLog (run : CheckRun disk args) {d : Diagnostic}
    (hd : .logged d ∈ run.macroLog) (herror : d.level.isError = true) :
    d.category = some .moduleNameMismatch := by
  have hentries := (Codebase.adds_addMacroFiles { workspace := run.workspace } disk.tree
    (sourceList run.workspace disk.tree run.config.files) (givenBase run.config.macros)).entries
  rw [run.collecting] at hentries
  rcases hentries _ hd with hminor | hmismatch
  · rw [herror] at hminor
    cases hminor
  · exact hmismatch

theorem errors_macroLog (run : CheckRun disk args) (h : run.errors = []) :
    run.macroLog.errors = 0 := by
  refine Transcript.errors_eq_zero_of_seen ?_
  unfold errors Transcript.seen at h
  rw [Array.toList_append, Array.toList_append, List.filterMap_append, List.filterMap_append] at h
  exact (List.append_eq_nil_iff.mp (List.append_eq_nil_iff.mp h).1).1

end CheckRun

/-! ## Exit codes -/

/-- How a program that ends with a result exits: a missing file is no fault. -/
def settledExit : Except Fault Nat → Except Fault Nat
  | .error (.missingFile _) => .ok 1
  | r => r

theorem exit_settled (o : Outcome) : o.settled.exit = settledExit o.exit := by
  unfold Outcome.settled
  split
  · rename_i hmissing
    rw [hmissing]
    rfl
  · rename_i hother
    unfold settledExit
    split
    · rename_i path hmissing
      exact absurd hmissing (hother path)
    · rfl

theorem settledExit_eq_ok_iff :
    settledExit r = .ok n ↔ r = .ok n ∨ n = 1 ∧ ∃ path, r = .error (.missingFile path) := by
  unfold settledExit
  split
  · simp [eq_comm]
  · rename_i hother
    have hnone : ¬ ∃ path, r = .error (.missingFile path) := fun ⟨path, h⟩ => hother path h
    simp [hnone]

theorem settledExit_eq_error_iff {fault : Fault} :
    settledExit r = .error fault ↔ r = .error fault ∧ ∀ path, fault ≠ .missingFile path := by
  unfold settledExit
  split
  · rename_i path
    refine ⟨fun h => (nomatch h), fun ⟨h, hother⟩ => ?_⟩
    exact absurd (Except.error.inj h).symm (hother path)
  · rename_i hother
    refine ⟨fun h => ⟨h, fun path hpath => ?_⟩, And.left⟩
    subst hpath
    exact hother path h

/-! ## The whole check -/

theorem runOn_audit_of_adds {a : Audit α} (ha : Adds P a) {r : Except Fault α} {log : Transcript}
    (h : a.start = (r, log)) (w : World) :
    (audit a).runOn w = (r, { w with log := w.log ++ log }) := by
  rw [runOn_audit, ha.run_eq w.log, h]

theorem start_of_runOn_audit {a : Audit α} (ha : Adds P a) {r : Except Fault α} {w' : World}
    (h : (audit a).runOn w = (r, w')) : a.start.1 = r := by
  rw [runOn_audit_of_adds ha rfl] at h
  exact congrArg Prod.fst h

theorem exists_of_runOn_bind_ok {β : Type} {p : Program α} {f : α → Program β} {y : β}
    (h : ((p >>= f).runOn w).1 = .ok y) :
    ∃ x w', p.runOn w = (.ok x, w') ∧ ((f x).runOn w').1 = .ok y := by
  rcases hrun : p.runOn w with ⟨r, w'⟩
  cases r with
  | error fault =>
    rw [runOn_bind_error hrun] at h
    cases h
  | ok x =>
    rw [runOn_bind_ok hrun] at h
    exact ⟨x, w', rfl, h⟩

/-- A check once the workspace is known. -/
def checkIn (w : Workspace) (config : Config) (tree : FileTree) : Program Nat := do
  let cb ← audit ((givenBase config.macros).scanFiles { workspace := w } tree true true
    (sourceList w tree config.files))
  let _ ← audit ((Checker.ofCodebase cb).scan true true fun _ => return ([] : List Unit))
  exitCode

/-- A check reads descriptions and configuration first. -/
def checkFrom (path : String) : Program Nat := do
  let w ← openRoot (Path.normalize path)
  let config ← readConfig (Path.join w.root Config.file)
  let w ← withModules w config.modules
  checkIn w config (← tree)

theorem runOn_check (path : String) (rest : List String) (w : World) :
    (check (path :: rest)).runOn w = (checkFrom path).runOn w := by
  unfold check rootArgument openConfigured checkFrom
  simp only [bind_assoc, pure_bind]
  rfl

/-- The exit code of a run. -/
theorem CheckRun.runOn_eq (run : CheckRun disk args) :
    ((check args).runOn { disk }).1 = .ok (if run.log.errors == 0 then 1 else 0) := by
  have hscan : (Codebase.scanFiles { workspace := run.workspace } disk.tree true true
      (sourceList run.workspace disk.tree run.config.files) (givenBase run.config.macros)).start =
      (.ok run.codebase, run.macroLog ++ run.scanLog) := by
    have hstart := start_bind_ok (congrArg Prod.fst run.collecting)
      (Codebase.uncounted_addFilesAsTasks { workspace := run.workspace } disk.tree
        (sourceList run.workspace disk.tree run.config.files) run.macros)
    rwa [run.collecting, run.scanning] at hstart
  have hread : (readConfig (Path.join run.described.root Config.file)).runOn
      { log := run.openingLog, disk := { disk with kept.root := run.described.root } } =
      (.ok run.config, _) :=
    (runOn_readConfig _ _).trans (Prod.ext run.configured rfl)
  have hwith (w : World) : (withModules run.described run.config.modules).runOn w =
      (.ok run.workspace, w) := by
    rw [withModules, run.modules]
    rfl
  have hadds := Codebase.steady_scanFiles { workspace := run.workspace } disk.tree
    (sourceList run.workspace disk.tree run.config.files) (givenBase run.config.macros)
  have haccess := (Checker.ofCodebase run.codebase).uncounted_scan true
    fun _ => return ([] : List Unit)
  rw [congrArg check run.args_eq, runOn_check, checkFrom, runOn_bind_ok (runOn_openRoot run.opening)]
  refine (congrArg Prod.fst (runOn_bind_ok hread)).trans ?_
  rw [runOn_bind_ok (hwith _)]
  show ((checkIn run.workspace run.config disk.tree).runOn _).1 = _
  rw [checkIn, runOn_bind_ok (runOn_audit_of_adds hadds hscan _),
    runOn_bind_ok (runOn_audit_of_adds haccess run.checking _)]
  rw [← Array.append_assoc]
  rfl

theorem nonempty_checkRun (h : ((check args).runOn { disk }).1 = .ok n) :
    Nonempty (CheckRun disk args) := by
  cases args with
  | nil => cases h
  | cons path rest =>
    rw [runOn_check, checkFrom] at h
    rcases hopen : (Workspace.ofRoot disk.tree (Path.normalize path)).start with ⟨r, openingLog⟩
    obtain ⟨described, w₁, hroot, h⟩ := exists_of_runOn_bind_ok h
    rw [runOn_openRoot hopen] at hroot
    cases hroot
    obtain ⟨config, w₂, hread, h⟩ := exists_of_runOn_bind_ok h
    rw [runOn_readConfig] at hread
    obtain ⟨hconfig, rfl⟩ := Prod.mk.inj hread
    obtain ⟨workspace, w₃, hwith, h⟩ := exists_of_runOn_bind_ok h
    unfold withModules at hwith
    split at hwith
    · rename_i w hmodules
      cases hwith
      change ((checkIn workspace config disk.tree).runOn _).1 = _ at h
      obtain ⟨cb, w₄, hscan, h⟩ := exists_of_runOn_bind_ok h
      obtain ⟨found, w₅, haccess, -⟩ := exists_of_runOn_bind_ok h
      obtain ⟨macros, hcollect, hrest⟩ := exists_of_start_bind_ok
        (Codebase.uncounted_addFilesAsTasks _ _ _)
        (start_of_runOn_audit (Codebase.steady_scanFiles _ _ _ _) hscan)
      exact ⟨{
        path, rest, described, openingLog, config, workspace, macros, codebase := cb, found
        macroLog := _, scanLog := _, accessLog := _, args_eq := rfl
        opening := hopen
        configured := hconfig
        modules := hmodules
        collecting := Prod.ext hcollect rfl
        scanning := Prod.ext hrest rfl
        checking := Prod.ext (start_of_runOn_audit (Checker.uncounted_scan _ _ _) haccess) rfl }⟩
    · cases hwith

theorem runOn_check_eq_ok_iff : ((check args).runOn { disk }).1 = .ok n ↔
      ∃ run : CheckRun disk args, n = if run.counted = 0 then 1 else 0 := by
  have hcode (run : CheckRun disk args) : ((check args).runOn { disk }).1 =
      .ok (if run.counted = 0 then 1 else 0) := by
    rw [run.runOn_eq, run.errors_log]
    simp only [beq_iff_eq]
  constructor
  · intro h
    obtain ⟨run⟩ := nonempty_checkRun h
    exact ⟨run, Except.ok.inj (h.symm.trans (hcode run))⟩
  · rintro ⟨run, rfl⟩
    exact hcode run

/-- The exit code of a check, for every command line and disk. It is zero if errors were counted
before any task started, in descriptions of modules and about macros, the latter never shown, and
one if none were or a file is missing. So it is zero where the scan and the look have no errors only
in two cases: the errors are in descriptions of modules, or all are those of tasks. -/
theorem exit_check_iff (args : List String) (disk : Disk) :
    let exit := ((Command.check args).runSettled disk).exit
    let result := ((check args).runOn { disk }).1
    (exit = .ok 0 ↔ ∃ run : CheckRun disk args, run.counted ≠ 0) ∧
      (exit = .ok 1 ↔ (∃ run : CheckRun disk args, run.counted = 0) ∨
        ∃ path, result = .error (.missingFile path)) ∧
      (∀ fault, exit = .error fault ↔ result = .error fault ∧ ∀ path, fault ≠ .missingFile path) ∧
      ∀ run : CheckRun disk args,
        (∀ d, .logged d ∈ run.macroLog → d.level.isError = true →
          d.category = some .moduleNameMismatch ∧ (Command.check args).settings.shows d = false) ∧
        ((exit = .ok 0 ↔ run.errors = []) ↔ run.openingLog.errors ≠ 0 ∧ run.errors = [] ∨
            run.counted = 0 ∧ run.errors ≠ []) := by
  have hexit : ((Command.check args).runSettled disk).exit =
      settledExit ((check args).runOn { disk }).1 := exit_settled _
  have hzero : ((Command.check args).runSettled disk).exit = .ok 0 ↔
      ∃ run : CheckRun disk args, run.counted ≠ 0 := by
    rw [hexit, settledExit_eq_ok_iff, runOn_check_eq_ok_iff]
    simp
  refine ⟨hzero, ?_, fun fault => ?_, fun run => ⟨fun d hd herror => ?_, ?_⟩⟩
  · rw [hexit, settledExit_eq_ok_iff, runOn_check_eq_ok_iff]
    simp
  · rw [hexit, settledExit_eq_error_iff]
  · have hcategory := run.category_of_mem_macroLog hd herror
    refine ⟨hcategory, ?_⟩
    rw [LogSettings.shows, hcategory]
    exact Bool.and_false _
  · have hrun : ((Command.check args).runSettled disk).exit = .ok 0 ↔ run.counted ≠ 0 := by
      rw [hexit, settledExit_eq_ok_iff, run.runOn_eq, run.errors_log]
      simp
    rw [hrun]
    by_cases herrors : run.errors = []
    · have hmacros := run.errors_macroLog herrors
      simp [herrors, CheckRun.counted, hmacros]
    · simp [herrors]

/-! ## An error in a task -/

/-- A static function that is private to another module than that of its file. -/
def strayText : String := "/* #private(zz) */ static void ff(void) \x7b \x7d\n"

/-- Where the function is. -/
def strayPath : String := "./src/m/a.c"

/-- The tree of that file alone. -/
def strayTree : FileTree := ⟨⟨[("src/m/a.c", strayText)]⟩⟩

/-- The disk with it, and a module. -/
def strayDisk : Disk where
  tree := strayTree
  config := some (Path.normalize (Path.join "." Config.file), .ok { modules := [⟨"m", "m", [], []⟩] })

/-- A workspace with the module of the file. -/
def strayWorkspace : Workspace where
  root := "."
  modules := ⟨[("m", ⟨"m", "m", [], []⟩)]⟩
  dirs := ⟨[("m", "m")]⟩

/-- The file, with its lines. -/
def strayFile : SourceFile :=
  { SourceFile.ofName strayWorkspace strayPath with moduleName := "m" }.fillLines
    (Text.unifyLineBreaks strayText.toList)

theorem readFile_stray : Codebase.readFile strayWorkspace strayTree strayPath =
    return (strayFile, Text.unifyLineBreaks strayText.toList) := by
  have hfind : strayTree.find? strayPath = some strayText := by
    rw [FileTree.find?, Path.normalize_eq, Path.steps, Path.parts_eq]
    decide +kernel
  have hmodule : strayWorkspace.moduleOfFile strayPath = "m" := by
    have hbelow : strayWorkspace.Below "m" strayPath :=
      ⟨by decide, by decide, "a.c", by decide +kernel⟩
    rw [Workspace.moduleOfFile_of_below hbelow (by decide)]
    decide
  have hfile : SourceFile.ofName strayWorkspace strayPath =
      { SourceFile.ofName strayWorkspace strayPath with moduleName := "m" } := by
    rw [← hmodule]
    rfl
  rw [Codebase.readFile, hfind]
  rw [hfile]
  rfl

/-- The scan of the file, which has no macros. -/
def strayScan : Audit Codebase :=
  Codebase.addText (Context.enterFile { workspace := strayWorkspace } (strayFile.setInserts []) 0) 0
    false (Text.unifyLineBreaks strayText.toList) Codebase.empty.examineMacros

/-- The task leaves an error that a check shows, and the look at the functions ends. -/
def showsError (src : Codebase) (log : Transcript) : Bool :=
  let (r, log) := (Codebase.mergeTask strayPath log src Codebase.empty).start
  (log.seen Entry.error?).any (Command.check ["."]).settings.shows && r.toOption.any fun cb =>
    ((Checker.ofCodebase cb).scan true true fun _ => return ([] : List Unit)).start.1.toOption.isSome

theorem showsError_stray :
    strayScan.task.toOption.map (fun r => showsError r.1 r.2) = some true := by
  decide +kernel

theorem sourcePaths_stray : Workspace.sourcePaths "." strayTree = [["m", "a.c"]] := by
  rw [Workspace.sourcePaths, Path.normalize_src, funext Path.parts_eq]
  decide +kernel

theorem ofRoot_stray : (Workspace.ofRoot strayTree (Path.normalize ".")).start =
    (.ok { root := "." }, #[]) := by
  rw [Path.normalize_dot]
  exact Workspace.ofRoot_dot (by rw [sourcePaths_stray]; rfl)

theorem sourceList_stray : sourceList strayWorkspace strayTree [] = [strayPath] := by
  have hfiles (p : String → Bool) : Workspace.filesWith "." strayTree p =
      if p "a.c" then [strayPath] else [] := by
    rw [Workspace.filesWith, sourcePaths_stray]
    cases h : p "a.c" <;> simp [h, Workspace.sortPaths, Workspace.sourcePath]
    decide +kernel
  show Workspace.allFiles "." strayTree = _
  simp only [Workspace.allFiles, Workspace.headerFiles, Workspace.inlineFiles, Workspace.codeFiles,
    hfiles]
  decide +kernel

theorem addMacroFiles_stray : (Codebase.addMacroFiles { workspace := strayWorkspace } strayTree
    [strayPath] Codebase.empty).start = (.ok Codebase.empty, #[]) := by
  have hnone : Statement.scanDirectives (Text.unifyLineBreaks strayText.toList) = [] :=
    List.length_eq_zero_iff.mp (by decide +kernel)
  show (List.foldlM (fun cb path => Codebase.addMacroFile _ strayTree path cb) Codebase.empty
    [strayPath] : Audit Codebase).start = _
  rw [List.foldlM_cons, Codebase.addMacroFile, readFile_stray, pure_bind]
  unfold Codebase.addMacros
  dsimp only
  rw [hnone]
  rfl

theorem addFilesAsTasks_stray {src : Codebase} {log : Transcript}
    (htask : strayScan.task = .ok (src, log)) :
    (Codebase.addFilesAsTasks { workspace := strayWorkspace } strayTree [strayPath]
      Codebase.empty).start = (Codebase.mergeTask strayPath log src Codebase.empty).start := by
  have hadd : Codebase.addExpandedFile { workspace := strayWorkspace } strayTree strayPath
      Codebase.empty = strayScan := by
    rw [Codebase.addExpandedFile, readFile_stray, pure_bind]
    rfl
  rw [Codebase.addFilesAsTasks, List.mapM_cons, hadd, htask, List.mapM_nil]
  simp only [pure_bind, List.foldlM_cons, List.foldlM_nil, bind_pure]

/-- A check shows an error and ends with exit code one, as if there were none: errors of tasks are
not counted. -/
theorem exit_check_stray : ∃ run : CheckRun strayDisk ["."],
    (∃ d ∈ run.errors, (Command.check ["."]).settings.shows d = true) ∧
      ((Command.check ["."]).runSettled strayDisk).exit = .ok 1 := by
  obtain ⟨⟨src, log⟩, htask, hshows⟩ := Option.map_eq_some_iff.mp showsError_stray
  rcases hmerge : (Codebase.mergeTask strayPath log src Codebase.empty).start with ⟨r, scanLog⟩
  dsimp only [showsError] at hshows
  rw [hmerge] at hshows
  obtain ⟨hany, hends⟩ := Bool.and_eq_true_iff.mp hshows
  obtain ⟨d, hd, hshown⟩ := List.any_eq_true.mp hany
  obtain ⟨cb, hcb, hends⟩ := (Option.any_eq_true _ _).mp hends
  obtain rfl := Fault.eq_ok_of_toOption hcb
  obtain ⟨found, hfound⟩ := Option.isSome_iff_exists.mp hends
  have hscan := addFilesAsTasks_stray (Fault.eq_ok_of_toOption htask)
  let run : CheckRun strayDisk ["."] := {
    path := ".", rest := [], args_eq := rfl
    described := { root := "." }, openingLog := #[], opening := ofRoot_stray
    config := { modules := [⟨"m", "m", [], []⟩] }, configured := if_pos BEq.rfl
    workspace := strayWorkspace, modules := rfl
    macros := Codebase.empty, macroLog := #[]
    collecting := by
      show (Codebase.addMacroFiles _ _ (sourceList strayWorkspace strayTree []) _).start = _
      rw [sourceList_stray]
      exact addMacroFiles_stray
    codebase := cb, scanLog
    scanning := by
      show (Codebase.addFilesAsTasks _ _ (sourceList strayWorkspace strayTree []) _).start = _
      rw [sourceList_stray]
      exact hscan.trans hmerge
    found, accessLog := _
    checking := Prod.ext (Fault.eq_ok_of_toOption hfound) rfl }
  refine ⟨run, ⟨d, ?_, hshown⟩, (exit_check_iff ["."] strayDisk).2.1.mpr (.inl ⟨run, rfl⟩)⟩
  rw [CheckRun.errors, Transcript.seen, Array.toList_append, Array.empty_append,
    List.filterMap_append]
  exact List.mem_append_left _ hd

end Program

end CBoundary
