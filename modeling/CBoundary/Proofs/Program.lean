import CBoundary.Program.Survey
import CBoundary.Proofs.Path
import CBoundary.Proofs.Audit

/-!
# Programs and the worlds they leave

A program keeps an invariant of worlds, and ends with a result about which something is known.
Some parts of a program print nothing; what the others print is the same in all worlds with the
invariant.
-/

namespace CBoundary

/-- The fault with which something ended, if it did. -/
def Fault.of? {α : Type} : Except Fault α → Option Fault
  | .ok _ => none
  | .error f => some f

/-- The configuration that is read at a path. -/
def Config.at? (config : Option (String × Except Fault Config)) (path : String) :
    Except Fault Config :=
  match config with
  | some (place, c) => if place == Path.normalize path then c else .error (.missingFile path)
  | none => .error (.missingFile path)

/-! ## Roots -/

theorem Path.normalize_dot : normalize "." = "." := by
  rw [normalize_eq, steps, parts_eq]
  decide +kernel

theorem Path.normalize_src : normalize (join "." "src") = "src" := by
  rw [normalize_eq, steps, parts_eq]
  decide +kernel

/-- A root without descriptions of modules. -/
theorem Workspace.ofRoot_dot {tree : FileTree} (h : (sourcePaths "." tree).filter (fun ps =>
      ps.length == 2 && ps.getLast? == some "README.md") = []) :
    (ofRoot tree ".").start = (.ok { root := "." }, #[]) := by
  have hreadmes : readmes "." tree = [] := by
    rw [readmes, h, List.map_nil]
    exact List.mergeSort_nil
  unfold ofRoot
  dsimp only
  rw [Path.normalize_dot, hreadmes]
  rfl

namespace Program

variable {α β : Type} {I : World → Prop} {Q : Except Fault α → Prop}
variable {p compute : Program α} {f : α → Program β} {w w' : World} {a : Audit α}
  {r : Except Fault α} {log : Transcript} {enabled : Bool} {name suffix : String}
  {files : List String} {read : Artifact → Option α} {wrap : α → Artifact}

/-- How a program ends on a world, and what it leaves. -/
def runOn (p : Program α) (w : World) : Except Fault α × World := StateT.run (ExceptT.run p) w

theorem runOn_bind_ok {x : α} (h : p.runOn w = (.ok x, w')) :
    (p >>= f).runOn w = (f x).runOn w' := by
  unfold runOn at h ⊢
  rw [ExceptT.run_bind, StateT.run_bind, h]
  rfl

theorem runOn_bind_error {fault : Fault} (h : p.runOn w = (.error fault, w')) :
    (p >>= f).runOn w = (.error fault, w') := by
  unfold runOn at h ⊢
  rw [ExceptT.run_bind, StateT.run_bind, h]
  rfl

theorem runOn_bind_congr {q : Program α} (h : p.runOn w = q.runOn w) :
    (p >>= f).runOn w = (q >>= f).runOn w := by
  unfold runOn at h ⊢
  rw [ExceptT.run_bind, StateT.run_bind, h, ExceptT.run_bind, StateT.run_bind]

theorem runOn_get_bind (f : World → Program α) (w : World) :
    (get >>= f).runOn w = (f w).runOn w := rfl

theorem runOn_audit (a : Audit α) (w : World) :
    (audit a).runOn w = ((StateT.run (ExceptT.run a) w.log).1,
      { w with log := (StateT.run (ExceptT.run a) w.log).2 }) := rfl

theorem runOn_audit_start (h : a.start = (r, log)) (disk : Disk) :
    (audit a).runOn { disk } = (r, { log, disk }) := by
  rw [runOn_audit]
  show (a.start.1, ({ log := a.start.2, disk } : World)) = _
  rw [h]

theorem runOn_readConfig (path : String) (w : World) :
    (readConfig path).runOn w = (Config.at? w.disk.config path, w) := by
  unfold readConfig Config.at?
  rw [runOn_get_bind]
  rcases w.disk.config with _ | ⟨place, config⟩
  · rfl
  · dsimp only
    split
    · cases config <;> rfl
    · rfl

theorem runOn_openRoot {path : String} {d : Disk} {r : Except Fault Workspace}
    (h : (Workspace.ofRoot d.tree path).start = (r, log)) :
    (openRoot path).runOn { disk := d } = (r, { log, disk := r.toOption.elim d fun w =>
      { d with kept := { d.kept with root := w.root } } }) := by
  have hopen : (openRoot path).runOn { disk := d } = (do
      let w ← audit (Workspace.ofRoot d.tree path)
      modifyDisk fun d => { d with kept := { d.kept with root := w.root } }
      return w : Program Workspace).runOn { disk := d } := rfl
  rw [hopen]
  have hrun := runOn_audit_start h d
  cases r with
  | error fault => exact runOn_bind_error hrun
  | ok w => exact runOn_bind_ok hrun

/-! ## Invariants -/

/-- Under an invariant, which is kept, the program ends with a result that fulfils a condition. -/
def Keeps (I : World → Prop) (p : Program α) (Q : Except Fault α → Prop) : Prop :=
  ∀ w, I w → Q (p.runOn w).1 ∧ I (p.runOn w).2

theorem Keeps.mono {Q' : Except Fault α → Prop} (h : Keeps I p Q) (hQ : ∀ r, Q r → Q' r) :
    Keeps I p Q' := fun w hw => ⟨hQ _ (h w hw).1, (h w hw).2⟩

theorem keeps_pure {x : α} (h : Q (.ok x)) : Keeps I (pure x) Q := fun _ hw => ⟨h, hw⟩

theorem Keeps.bind {Q' : Except Fault β → Prop} (hp : Keeps I p Q)
    (hf : ∀ x, Q (.ok x) → Keeps I (f x) Q')
    (hfault : ∀ fault, Q (.error fault) → Q' (.error fault)) : Keeps I (p >>= f) Q' := by
  intro w hw
  obtain ⟨hQ, hI⟩ := hp w hw
  rcases hrun : p.runOn w with ⟨r, w'⟩
  rw [hrun] at hQ hI
  cases r with
  | error fault =>
    rw [runOn_bind_error hrun]
    exact ⟨hfault fault hQ, hI⟩
  | ok x =>
    rw [runOn_bind_ok hrun]
    exact hf x hQ w' hI

theorem keeps_modifyDisk {f : Disk → Disk} {Q : Except Fault Unit → Prop}
    (hI : ∀ w, I w → I { w with disk := f w.disk }) (hQ : Q (.ok ())) :
    Keeps I (modifyDisk f) Q := fun w hw => ⟨hQ, hI w hw⟩

/-- An invariant of worlds that says nothing about the transcript. -/
def OfDisk (I : World → Prop) : Prop := ∀ w log, I w → I { w with log }

theorem keeps_audit (hI : OfDisk I) (ha : Audit.Answers a r) :
    Keeps I (audit a) (· = r) := fun w hw => ⟨ha w.log, hI w _ hw⟩

theorem keeps_audit_any (hI : OfDisk I) (a : Audit α) : Keeps I (audit a) fun _ => True :=
  fun w hw => ⟨trivial, hI w _ hw⟩

/-- The result is right if whatever may be taken from the store is, and a new one. -/
theorem keeps_remember
    (hkept : enabled = true → ∀ w, I w →
      (∀ fault, w.disk.kept.get name files suffix = .error fault → Q (.error fault)) ∧
      ∀ kept x, w.disk.kept.get name files suffix = .ok (some kept) → read kept = some x →
        Q (.ok x))
    (hcompute : Keeps I compute Q)
    (hput : enabled = true → ∀ w x, I w → Q (.ok x) →
      I { w with disk.kept := w.disk.kept.put (some (wrap x)) name suffix w.disk.kept.present }) :
    Keeps I (remember enabled name suffix files read wrap compute) Q := by
  cases enabled with
  | false => exact hcompute
  | true =>
    intro w hw
    obtain ⟨hfault, hfound⟩ := hkept rfl w hw
    have hnew : Keeps I (do
        let x ← compute
        modifyDisk fun d => { d with kept := d.kept.put (some (wrap x)) name suffix d.kept.present }
        return x) Q :=
      hcompute.bind (fun x hx w hw => ⟨hx, hput rfl w x hw hx⟩) fun fault h => h
    have hload : (return (← get).disk.kept : Program (Cache.Store Artifact)).runOn w =
        (.ok w.disk.kept, w) := rfl
    rw [remember, Cache.Store.fetch, if_neg (by decide), runOn_bind_ok hload]
    split
    · rename_i fault hget
      exact ⟨hfault fault hget, hw⟩
    · rename_i found hget
      split
      · rename_i x hread
        obtain ⟨kept, rfl, hread⟩ := Option.bind_eq_some_iff.mp hread
        exact ⟨hfound kept x hget hread, hw⟩
      · exact hnew w hw

/-! ## What is printed -/

/-- What was printed. -/
def printedIn (w : World) : List String := w.log.seen Entry.printed?

/-- The program prints nothing. -/
def Quiet (p : Program α) : Prop := ∀ w, printedIn (p.runOn w).2 = printedIn w

theorem quiet_pure (x : α) : Quiet (pure x) := fun _ => rfl

theorem quiet_modifyDisk (f : Disk → Disk) : Quiet (modifyDisk f) := fun _ => rfl

theorem quiet_audit (h : Audit.Silent Entry.printed? a) : Quiet (audit a) :=
  fun w => (h.leaves w.log).trans (List.append_nil _)

theorem Quiet.bind (hp : Quiet p) (hf : ∀ x, Quiet (f x)) : Quiet (p >>= f) := by
  intro w
  have hfirst := hp w
  rcases hrun : p.runOn w with ⟨r, w'⟩
  rw [hrun] at hfirst
  cases r with
  | error fault => rw [runOn_bind_error hrun, hfirst]
  | ok x => rw [runOn_bind_ok hrun, hf x w', hfirst]

theorem quiet_remember (hcompute : Quiet compute) :
    Quiet (remember enabled name suffix files read wrap compute) := by
  cases enabled with
  | false => exact hcompute
  | true =>
    refine Quiet.bind (fun _ => rfl) fun w => ?_
    split
    · exact fun _ => rfl
    · split
      · exact quiet_pure _
      · exact hcompute.bind fun x => (quiet_modifyDisk _).bind fun _ => quiet_pure x

/-- Under an invariant the program always prints the same, and ends with the same fault or none. -/
def SameReport (I : World → Prop) (p : Program α) : Prop :=
  ∃ texts fault, ∀ w, I w →
    printedIn (p.runOn w).2 = printedIn w ++ texts ∧ Fault.of? (p.runOn w).1 = fault

theorem SameReport.bind (hp : Keeps I p (· = r)) (hquiet : Quiet p)
    (hf : ∀ x, r = .ok x → SameReport I (f x)) : SameReport I (p >>= f) := by
  cases r with
  | error fault =>
    refine ⟨[], some fault, fun w hw => ?_⟩
    have hfirst := hquiet w
    have hresult := (hp w hw).1
    rcases hrun : p.runOn w with ⟨r, w'⟩
    rw [hrun] at hfirst hresult
    have hr : r = .error fault := hresult
    subst hr
    rw [runOn_bind_error hrun, List.append_nil]
    exact ⟨hfirst, rfl⟩
  | ok x =>
    obtain ⟨texts, fault, hrest⟩ := hf x rfl
    refine ⟨texts, fault, fun w hw => ?_⟩
    have hfirst := hquiet w
    obtain ⟨hresult, hkept⟩ := hp w hw
    rcases hrun : p.runOn w with ⟨r, w'⟩
    rw [hrun] at hfirst hresult hkept
    have hr : r = .ok x := hresult
    subst hr
    have hthis : printedIn w' = printedIn w := hfirst
    rw [runOn_bind_ok hrun, ← hthis]
    exact hrest w' hkept

/-- A steady audit prints the same in all worlds. -/
theorem sameReport_audit_bind (ha : Audit.Steady a) (hquiet : ∀ x, Quiet (f x))
    (hends : ∀ x w, Fault.of? ((f x).runOn w).1 = none) : SameReport I (audit a >>= f) := by
  refine ⟨a.start.2.seen Entry.printed?, Fault.of? a.start.1, fun w _ => ?_⟩
  have hrun := runOn_audit a w
  rw [ha.answers w.log] at hrun
  have hprinted : Audit.Leaves Entry.printed? a _ := ha.leaves
  cases hstart : a.start.1 with
  | error fault =>
    rw [hstart] at hrun
    rw [runOn_bind_error hrun]
    exact ⟨hprinted w.log, rfl⟩
  | ok x =>
    rw [hstart] at hrun
    rw [runOn_bind_ok hrun, hquiet x, hends x]
    exact ⟨hprinted w.log, rfl⟩

end Program

end CBoundary
