import CBoundary.Proofs.Survey.Names

/-!
# Reports after earlier surveys

One survey after the other runs on the same files, each with its own command line and its own
configuration.  A survey that serves another one leaves only right results for it; the rest is
an induction over the earlier surveys.
-/

namespace CBoundary

/-! ## Roots -/

namespace Workspace

variable {w w' : Workspace}

theorem root_of_addModule {m : Module} (h : w.addModule m = .ok w') : w'.root = w.root := by
  unfold addModule at h
  by_cases hname : m.name.isEmpty = true
  · rw [if_pos hname] at h
    cases h
  · rw [if_neg hname] at h
    by_cases hdup : w.modules.contains m.name = true
    · rw [if_pos hdup] at h
      cases h
    · rw [if_neg hdup] at h
      cases hdir : w.dirs.find? m.dirname with
      | some owner =>
        rw [hdir] at h
        cases h
      | none =>
        rw [hdir] at h
        dsimp only [bind, Except.bind] at h
        split at h
        · cases h
        · split at h
          · cases h
          · cases h
            rfl

theorem root_of_setModules {ms : List Module} (h : w.setModules ms = .ok w') :
    w'.root = w.root := by
  have hfold (ms : List Module) (start : Workspace) (h : ms.foldlM addModule start = .ok w') :
      w'.root = start.root := by
    induction ms generalizing start with
    | nil =>
      cases h
      rfl
    | cons m ms ih =>
      rw [List.foldlM_cons] at h
      cases hadd : start.addModule m with
      | error e =>
        rw [hadd] at h
        cases h
      | ok next =>
        rw [hadd] at h
        exact (ih next h).trans (root_of_addModule hadd)
  exact hfold ms { root := w.root } h

theorem gives_ofRoot (tree : FileTree) (path : String) :
    Audit.Gives (ofRoot tree path) fun w => w.root = Path.normalize path := by
  refine Audit.gives_foldlM (fun w file hw => ?_) _ rfl
  unfold forDescriptions
  split
  · refine Audit.gives_foldlM (fun w d hw => ?_) _ hw
    refine (Audit.gives_any _).bind fun found _ => ?_
    split
    · dsimp only
      split
      · rename_i hadd
        exact Audit.gives_pure ((root_of_addModule hadd).trans hw)
      · exact Audit.gives_throw _
    · exact Audit.gives_pure hw
  · exact Audit.gives_throw _

end Workspace

theorem Disk.blank_ofTree (tree : FileTree) (config : Option (String × Except Fault Config)) :
    (ofTree tree config).kept.Blank := by
  have hempty : ({} : Cache.Store Artifact).Blank := fun _ _ h => nomatch h
  exact List.foldlRecOn (motive := Cache.Store.Blank) _ _ hempty
    fun _ hs path _ place => (hs place).write path 0

namespace Survey

open Program

/-- A run of a survey: its command line, and the configuration that is there. -/
structure Invocation where
  args : List String
  config : Option (String × Except Fault Config)

namespace Invocation

variable {tree : FileTree} {v : Invocation} {o : Options}

/-- How the survey ends on some files and kept results, and the world that it leaves. -/
def run (tree : FileTree) (v : Invocation) (kept : Cache.Store Artifact) :
    Except Fault Nat × World :=
  (survey v.args).runOn { disk := { tree, config := v.config, kept } }

/-- What the survey prints, and the fault with which it ends, if it does. -/
def report (tree : FileTree) (v : Invocation) (kept : Cache.Store Artifact) :
    List String × Option Fault :=
  (printedIn (v.run tree kept).2, Fault.of? (v.run tree kept).1)

/-- What is kept after some surveys. -/
def keptAfter (tree : FileTree) (earlier : List Invocation) (kept : Cache.Store Artifact) :
    Cache.Store Artifact :=
  earlier.foldl (fun kept v => (v.run tree kept).2.disk.kept) kept

/-- The options that lead to a survey of sources. -/
def options? (v : Invocation) : Option Options :=
  ((Options.parse v.args).toOption.bind Options.settle?).filter fun o => !o.listModules

/-- What a survey with some options works on, if configuration and workspace can be read. -/
def planWith? (tree : FileTree) (config : Option (String × Except Fault Config)) (o : Options) :
    Option Plan := do
  let config ← (Config.at? config (Path.join o.home Config.file)).toOption
  let w ← (Workspace.ofRoot tree o.home).start.1.toOption
  let w ← (w.setModules config.modules).toOption
  return {
    options := o
    workspace := w
    config
    files := sourceList w tree config.files }

/-- What a survey works on, if it comes to look at sources. -/
def plan? (tree : FileTree) (v : Invocation) : Option Plan :=
  v.options?.bind (planWith? tree v.config)

/-! ## Courses -/

/-- The program does not look at the disk. -/
def Detached (p : Program Nat) : Prop := ∃ r log, ∀ disk, p.runOn { disk } = (r, { log, disk })

theorem detached_pure (n : Nat) : Detached (pure n) := ⟨.ok n, #[], fun _ => rfl⟩

theorem detached_audit {α : Type} (a : Audit α) (n : Nat) :
    Detached (do let _ ← audit a; return n) := by
  rcases hstart : a.start with ⟨r, log⟩
  have hrun := runOn_audit_start hstart
  cases r with
  | error fault => exact ⟨.error fault, log, fun disk => runOn_bind_error (hrun disk)⟩
  | ok x => exact ⟨.ok n, log, fun disk => runOn_bind_ok (hrun disk)⟩

theorem detached_refuse (r : Refusal) : Detached (refuse r) := by
  cases r with
  | usage => exact detached_pure 2
  | help => exact detached_pure 0
  | version => exact detached_audit _ 0
  | level name => exact detached_audit _ 1

/-- The files of the disk and the configuration, with results that are kept below some root. -/
def disk (tree : FileTree) (v : Invocation) (kept : Cache.Store Artifact) (root : String) : Disk :=
  { tree, config := v.config, kept := { kept with root } }

/-- How a survey goes on, with a plan or without one. -/
def Course (tree : FileTree) (v : Invocation) : Option Plan → Prop
  -- it runs the plan, below the root of the workspace
  | some p => Path.normalize p.workspace.root = p.workspace.root ∧ ∃ log, ∀ kept,
      v.run tree kept = p.program.runOn { log, disk := v.disk tree kept p.workspace.root }
  -- it neither looks at what is kept nor changes it, but for the root
  | none => ∃ r log, ∀ kept, ∃ root, v.run tree kept = (r, { log, disk := v.disk tree kept root })

theorem Detached.course {p : Program Nat} (h : Detached p)
    (hrun : ∀ kept, v.run tree kept = p.runOn { disk := v.disk tree kept kept.root }) :
    Course tree v none := by
  obtain ⟨r, log, hp⟩ := h
  exact ⟨r, log, fun kept => ⟨kept.root, (hrun kept).trans (hp _)⟩⟩

/-- A survey once options and configuration are known. -/
def setOut (o : Options) (config : Config) : Program Nat := do
  let w ← openRoot o.home
  let w ← withModules w config.modules
  let files ← sources w config.files
  (Plan.mk o w config files).program

theorem run_eq_of_config (tree : FileTree) (hsurvey : survey v.args = surveyWith o)
    (kept : Cache.Store Artifact) :
    v.run tree kept = (do
      let config ← liftM (Config.at? v.config (Path.join o.home Config.file))
      if o.listModules then
        let _ ← audit (listModules config.modules)
        return 0
      else setOut o config : Program Nat).runOn { disk := v.disk tree kept kept.root } := by
  have hconfig := runOn_readConfig (Path.join o.home Config.file)
    { disk := { tree, config := v.config, kept } }
  rw [run, hsurvey]
  exact runOn_bind_congr hconfig

theorem course_setOut {config : Config}
    (hread : Config.at? v.config (Path.join o.home Config.file) = .ok config)
    (hrun : ∀ kept, v.run tree kept =
      (setOut o config).runOn { disk := v.disk tree kept kept.root }) :
    Course tree v (planWith? tree v.config o) := by
  rcases hopen : (Workspace.ofRoot tree o.home).start with ⟨r, log⟩
  have hroot (kept : Cache.Store Artifact) := runOn_openRoot (d := v.disk tree kept kept.root) hopen
  cases r with
  | error fault =>
    have hplan : planWith? tree v.config o = none := by
      rw [planWith?, hread, hopen]
      rfl
    rw [hplan]
    refine ⟨.error fault, log, fun kept => ⟨kept.root, ?_⟩⟩
    rw [hrun]
    exact runOn_bind_error (hroot kept)
  | ok w =>
    have hnormal : w.root = Path.normalize o.home :=
      Workspace.gives_ofRoot tree o.home #[] w (congrArg Prod.fst hopen)
    cases hset : w.setModules config.modules with
    | error e =>
      have hplan : planWith? tree v.config o = none := by
        simp [planWith?, hread, hopen, hset, Except.toOption]
      rw [hplan]
      refine ⟨.error (.modules e), log, fun kept => ⟨w.root, ?_⟩⟩
      rw [hrun]
      refine (runOn_bind_ok (hroot kept)).trans (runOn_bind_error ?_)
      rw [withModules, hset]
      rfl
    | ok w' =>
      have hsame : w'.root = w.root := Workspace.root_of_setModules hset
      have hplan : planWith? tree v.config o = some
          ⟨o, w', config, sourceList w' tree config.files⟩ := by
        simp [planWith?, hread, hopen, hset, Except.toOption]
      rw [hplan]
      refine ⟨?_, log, fun kept => ?_⟩
      · rw [hsame, hnormal, Path.normalize_normalize]
      · have hbelow : (openRoot o.home).runOn { disk := v.disk tree kept kept.root } =
            (.ok w, { log, disk := v.disk tree kept w'.root }) := by
          rw [hsame]
          exact hroot kept
        have hwith (world : World) :
            (withModules w config.modules).runOn world = (.ok w', world) := by
          rw [withModules, hset]
          rfl
        have hsources (world : World) : (sources w' config.files).runOn world =
            (.ok (sourceList w' world.disk.tree config.files), world) := rfl
        rw [hrun, setOut, runOn_bind_ok hbelow, runOn_bind_ok (hwith _),
          runOn_bind_ok (hsources _)]
        rfl

theorem course_plan? (tree : FileTree) (v : Invocation) : Course tree v (v.plan? tree) := by
  cases hparse : Options.parse v.args with
  | error r =>
    have hplan : v.plan? tree = none := by
      rw [plan?, options?, hparse]
      rfl
    have hsurvey : survey v.args = refuse r := by rw [survey, hparse]
    rw [hplan]
    exact (detached_refuse r).course fun kept => by rw [run, hsurvey]; rfl
  | ok o =>
    cases hsettle : o.settle? with
    | none =>
      have hplan : v.plan? tree = none := by
        simp [plan?, options?, hparse, hsettle, Except.toOption]
      have hdetached : Detached (survey v.args) := by
        rw [survey, hparse]
        dsimp only
        rw [hsettle]
        exact detached_audit _ 1
      rw [hplan]
      exact hdetached.course fun kept => rfl
    | some o =>
      have hsurvey : survey v.args = surveyWith o := by
        rw [survey, hparse]
        dsimp only
        rw [hsettle]
      have hrun := run_eq_of_config tree hsurvey
      cases hread : Config.at? v.config (Path.join o.home Config.file) with
      | error fault =>
        have hplan : v.plan? tree = none := by
          rw [plan?, Option.bind_eq_none_iff]
          intro o' ho'
          have hsame : o' = o := by
            simp [options?, hparse, hsettle, Except.toOption, Option.filter_eq_some_iff] at ho'
            exact ho'.1.symm
          simp [planWith?, hsame, hread, Except.toOption]
        rw [hread] at hrun
        rw [hplan]
        exact Detached.course ⟨.error fault, #[], fun _ => rfl⟩ hrun
      | ok config =>
        rw [hread] at hrun
        cases hlist : o.listModules with
        | true =>
          have hplan : v.plan? tree = none := by
            simp [plan?, options?, hparse, hsettle, hlist, Option.filter, Except.toOption]
          rw [hlist] at hrun
          rw [hplan]
          exact (detached_audit (listModules config.modules) 0).course hrun
        | false =>
          have hplan : v.plan? tree = planWith? tree v.config o := by
            simp [plan?, options?, hparse, hsettle, hlist, Option.filter, Except.toOption]
          rw [hlist] at hrun
          rw [hplan]
          exact course_setOut hread hrun

/-! ## Surveys one after the other -/

section

variable {tree : FileTree} {v : Invocation} {q : Plan} {kept : Cache.Store Artifact}

theorem keptRight_run (hroot : Path.normalize q.workspace.root = q.workspace.root)
    (hserves : ∀ p, v.plan? tree = some p → p.Serves q) (h : q.KeptRight tree kept) :
    q.KeptRight tree (v.run tree kept).2.disk.kept := by
  have hcourse := course_plan? tree v
  cases hplan : v.plan? tree with
  | none =>
    rw [hplan] at hcourse
    obtain ⟨r, log, hrun⟩ := hcourse
    obtain ⟨root, hrun⟩ := hrun kept
    rwa [hrun]
  | some p =>
    rw [hplan] at hcourse
    obtain ⟨hnormal, log, hrun⟩ := hcourse
    have hguards : Plan.Guards tree p q { log, disk := v.disk tree kept p.workspace.root } :=
      ⟨rfl, rfl, h⟩
    rw [hrun kept]
    exact (Plan.keeps_program (Plan.keptApart hnormal hroot) (hserves p hplan) _ hguards).2.right

theorem keptRight_keptAfter {earlier : List Invocation}
    (hroot : Path.normalize q.workspace.root = q.workspace.root)
    (hserves : ∀ u ∈ earlier, ∀ p, u.plan? tree = some p → p.Serves q)
    (h : q.KeptRight tree kept) : q.KeptRight tree (keptAfter tree earlier kept) := by
  induction earlier generalizing kept with
  | nil => exact h
  | cons u earlier ih =>
    exact ih (fun u' hu' => hserves u' (List.mem_cons_of_mem _ hu'))
      (keptRight_run hroot (hserves u List.mem_cons_self) h)

theorem keptRight_of_blank (h : kept.Blank) : q.KeptRight tree kept := fun _ place _ =>
  (h place).mono fun _ => False.elim

theorem report_eq_of_keptRight {kept' : Cache.Store Artifact}
    (hplan : v.plan? tree = some q) (hdebug : q.options.debug = false)
    (h : q.KeptRight tree kept) (h' : q.KeptRight tree kept') :
    v.report tree kept = v.report tree kept' := by
  have hcourse := course_plan? tree v
  rw [hplan] at hcourse
  obtain ⟨hroot, log, hrun⟩ := hcourse
  have hprogram : SameReport (Plan.Guards tree q q) q.program :=
    Plan.sameReport_program (Plan.keptApart hroot hroot) hdebug
  obtain ⟨texts, fault, hsame⟩ := hprogram
  have hreport {kept : Cache.Store Artifact} (h : q.KeptRight tree kept) :
      v.report tree kept = (log.seen Entry.printed? ++ texts, fault) := by
    obtain ⟨hprinted, hfault⟩ :=
      hsame { log, disk := v.disk tree kept q.workspace.root } ⟨rfl, rfl, h⟩
    rw [report, hrun kept, hprinted, hfault]
    rfl
  rw [hreport h, hreport h']

theorem report_eq_of_none (hplan : v.plan? tree = none) (kept kept' : Cache.Store Artifact) :
    v.report tree kept = v.report tree kept' := by
  have hcourse := course_plan? tree v
  rw [hplan] at hcourse
  obtain ⟨r, log, hrun⟩ := hcourse
  obtain ⟨root, hrun'⟩ := hrun kept'
  obtain ⟨root, hrun⟩ := hrun kept
  rw [report, report, hrun, hrun']
  rfl

end

/-- Surveys of one root and configuration serve each other, if the first looks for every kind of use
of the second. -/
theorem serves_of_planWith? {config : Option (String × Except Fault Config)} {o' : Options}
    {p q : Plan} (hp : planWith? tree config o = some p) (hq : planWith? tree config o' = some q)
    (hhome : o.home = o'.home)
    (hkinds : ∀ kind, o'.wantsKind kind = true → o.wantsKind kind = true) : p.Serves q := by
  unfold planWith? at hp hq
  rw [hhome] at hp
  simp only [Option.bind_eq_bind, Option.bind_eq_some_iff, Option.pure_def] at hp hq
  obtain ⟨c, hc, w, hw, w', hw', hp⟩ := hp
  obtain ⟨d, hd, x, hx, x', hx', hq⟩ := hq
  cases hc.symm.trans hd
  cases hw.symm.trans hx
  cases hw'.symm.trans hx'
  cases hp
  cases hq
  exact fun _ _ _ => ⟨⟨rfl, rfl, rfl⟩, fun _ => hkinds⟩

/-- The report of a survey that shows no uses while finding them is the same after earlier surveys
of the same files, if each that keeps results for the same sources reads the same modules and
macros, and looks for every kind of use asked for. -/
theorem report_keptAfter (tree : FileTree) (earlier : List Invocation) (v : Invocation)
    (kept kept' : Cache.Store Artifact) (hkept : kept.Blank) (hkept' : kept'.Blank)
    (hdebug : ∀ q, v.plan? tree = some q → q.options.debug = false)
    (hserves : ∀ u ∈ earlier, ∀ p q, u.plan? tree = some p → v.plan? tree = some q → p.Serves q) :
    v.report tree (keptAfter tree earlier kept) = v.report tree kept' := by
  cases hplan : v.plan? tree with
  | none => exact report_eq_of_none hplan _ _
  | some q =>
    have hcourse := course_plan? tree v
    rw [hplan] at hcourse
    have hafter : q.KeptRight tree (keptAfter tree earlier kept) :=
      keptRight_keptAfter hcourse.1 (fun u hu p hp => hserves u hu p q hp hplan)
        (keptRight_of_blank hkept)
    exact report_eq_of_keptRight hplan (hdebug q hplan) hafter (keptRight_of_blank hkept')

/-- Two modules with a call between them. -/
def callTree : FileTree :=
  ⟨⟨[("src/m/a.c", "int m_f(void) \x7b return 0; \x7d\n"),
    ("src/n/b.c", "int n_g(void) \x7b return m_f(); \x7d\n")]⟩⟩

/-- The configuration of the two modules. -/
def callConfig : Config := { modules := [⟨"m", "m", [], []⟩, ⟨"n", "n", [], []⟩] }

/-- A survey of the two modules. -/
def ofCallTree (args : List String) : Invocation :=
  ⟨args, some (Path.normalize (Path.join "." Config.file), .ok callConfig)⟩

theorem ofRoot_callTree : (Workspace.ofRoot callTree ".").start = (.ok { root := "." }, #[]) := by
  refine Workspace.ofRoot_dot ?_
  rw [Workspace.sourcePaths, Path.normalize_src, funext Path.parts_eq]
  decide +kernel

theorem plan?_ofCallTree {args : List String} (ho : (ofCallTree args).options? = some o)
    (hhome : o.home = ".") : ∃ p, (ofCallTree args).plan? callTree = some p ∧ p.options = o := by
  have hconfig : Config.at? (ofCallTree args).config (Path.join "." Config.file) =
      .ok callConfig := if_pos BEq.rfl
  have hmodules : ∃ w, ({ root := "." } : Workspace).setModules callConfig.modules = .ok w :=
    ⟨_, rfl⟩
  obtain ⟨w, hw⟩ := hmodules
  refine ⟨⟨o, w, callConfig, Workspace.allFiles w.root callTree⟩, ?_, rfl⟩
  rw [plan?, ho, Option.bind_some, planWith?, hhome, hconfig, ofRoot_callTree]
  show (do
    let w ← (({ root := "." } : Workspace).setModules callConfig.modules).toOption
    some (Plan.mk o w callConfig (Workspace.allFiles w.root callTree))) = _
  rw [hw]
  rfl

theorem options?_ofCallTree : (ofCallTree ["."]).options? = some { home := "." } ∧
    (ofCallTree [".", "--fields-only", "--no-cache"]).options? =
      some { home := ".", fieldsOnly := true, calls := false, macros := false, cache := false } ∧
    (ofCallTree [".", "--calls-only"]).options? =
      some { home := ".", callsOnly := true, fields := false, macros := false } := by
  decide +kernel

/-- Calls are reported as ever after a survey of all uses, and another one that keeps nothing. -/
theorem report_keptAfter_calls :
    (∃ p, (ofCallTree ["."]).plan? callTree = some p ∧ p.options.cache = true) ∧
    (∃ q, (ofCallTree [".", "--calls-only"]).plan? callTree = some q) ∧
    (ofCallTree [".", "--calls-only"]).report callTree (keptAfter callTree
        [ofCallTree ["."], ofCallTree [".", "--fields-only", "--no-cache"]]
        (Disk.ofTree callTree none).kept) =
      (ofCallTree [".", "--calls-only"]).report callTree (Disk.ofTree callTree none).kept := by
  obtain ⟨hall, hfields, hcalls⟩ := options?_ofCallTree
  obtain ⟨p, hp, hpo⟩ := plan?_ofCallTree hall rfl
  obtain ⟨p', hp', hpo'⟩ := plan?_ofCallTree hfields rfl
  obtain ⟨q, hq, hqo⟩ := plan?_ofCallTree hcalls rfl
  have hblank := Disk.blank_ofTree callTree none
  refine ⟨⟨p, hp, by rw [hpo]⟩, ⟨q, hq⟩, report_keptAfter _ _ _ _ _ hblank hblank ?_ ?_⟩
  · intro q' hq'
    cases hq.symm.trans hq'
    rw [hqo]
  · intro u hu p'' q' hp'' hq'
    cases hq.symm.trans hq'
    rcases List.mem_cons.mp hu with rfl | hu
    · cases hp.symm.trans hp''
      rw [plan?, hall] at hp
      rw [plan?, hcalls] at hq
      refine serves_of_planWith? hp hq rfl fun kind _ => ?_
      cases kind <;> rfl
    · obtain rfl := List.mem_singleton.mp hu
      cases hp'.symm.trans hp''
      intro hcache
      rw [hpo'] at hcache
      cases hcache

end Invocation

end Survey

end CBoundary
