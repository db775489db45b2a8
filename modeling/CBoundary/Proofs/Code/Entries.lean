import CBoundary.Code.Scan
import CBoundary.Proofs.Audit

/-!
# What scanning adds to the transcript

Bringing definitions together may call for warnings, but never for an error.  The only errors
are that a name or an annotation does not fit the module of its file.  Nothing but diagnostics is
added.
-/

namespace CBoundary

open Audit

variable {e : Entry}

/-- A diagnostic that is no error. -/
def Entry.Minor : Entry → Prop
  | .logged d => d.level.isError = false
  | _ => False

/-- A diagnostic that is no error, or says that something does not fit the module of its
file. -/
def Entry.MinorOrMismatch : Entry → Prop
  | .logged d => d.level.isError = false ∨ d.category = some .moduleNameMismatch
  | _ => False

/-- An entry that is not counted as an error. -/
def Entry.Uncounted (e : Entry) : Prop := e.isError = false

theorem Entry.Minor.minorOrMismatch (h : e.Minor) : e.MinorOrMismatch := by
  cases e with
  | logged d => exact .inl h
  | relayed d => exact h
  | printed text => exact h

theorem Entry.MinorOrMismatch.logged {P : Entry → Prop} (h : e.MinorOrMismatch)
    (hP : ∀ d, P (.logged d)) : P e := by
  cases e with
  | logged d => exact hP d
  | relayed d => exact h.elim
  | printed text => exact h.elim

theorem Entry.Minor.uncounted (h : e.Minor) : e.Uncounted := by
  cases e with
  | logged d => exact h
  | relayed d => exact h.elim
  | printed text => exact h.elim

theorem Entry.uncounted_relay (e : Entry) : e.relay.Uncounted := by
  cases e <;> rfl

namespace Audit

variable {α : Type} {P : Entry → Prop} {a : Audit α} (hP : ∀ d, P (.logged d))

include hP

theorem Adds.anyLogged (h : Adds Entry.MinorOrMismatch a) : Adds P a :=
  h.mono fun _ he => he.logged hP

theorem Adds.minorLogged (h : Adds Entry.Minor a) : Adds P a :=
  (h.mono fun _ he => he.minorOrMismatch).anyLogged hP

end Audit

theorem adds_report_minor {category : Category} (h : category.level.isError = false)
    (place : Place) (message : Message) : Adds Entry.Minor (report category place message) :=
  adds_note h

theorem adds_trace_minor {level : Level} (h : level.isError = false) (place : Place)
    (message : Message) : Adds Entry.Minor (trace level place message) := adds_note h

theorem Visibility.adds_check (c : Context) (thing : Details) (isPrivate : Option Bool)
    (moduleName : String) (isNested : Bool) :
    Adds Entry.MinorOrMismatch (check c thing isPrivate moduleName isNested) := by
  have hdecide : Adds Entry.MinorOrMismatch (decide c thing isPrivate moduleName isNested) :=
    .ite ((adds_note (.inr rfl)).bind_pure) (adds_pure _)
  exact hdecide.bind fun _ =>
    .ite ((adds_note (.inr rfl)).bind_pure) (adds_pure _)

namespace Definition

variable (a b : Definition)

theorem adds_reportErrors (errors : List String) : Adds Entry.Minor (a.reportErrors b errors) := by
  refine .ite ?_ (adds_pure _)
  split
  all_goals
    exact (adds_report_minor rfl _ _).bind fun _ => (adds_report_minor rfl _ _).bind fun _ =>
      adds_forM (fun _ => adds_report_minor rfl _ _) _

theorem adds_absorbDetails : Adds Entry.Minor (a.absorbDetails b) := by
  have hclasses : Adds Entry.Minor (a.reportClasses b) :=
    (adds_report_minor rfl _ _).bind fun _ => (adds_report_minor rfl _ _).bind fun _ =>
      adds_trace_minor rfl _ _
  unfold absorbDetails
  split
  · exact (adds_reportErrors _ _ _).bind_pure
  · exact .ite (hclasses.bind_pure) (adds_pure _)

theorem adds_absorb : Adds Entry.Minor (a.absorb b) := by
  have hkinds : Adds Entry.Minor (a.reportKinds b) :=
    .ite ((adds_report_minor rfl _ _).bind fun _ => (adds_report_minor rfl _ _).bind fun _ =>
      adds_trace_minor rfl _ _) (adds_pure _)
  have hmodules : Adds Entry.Minor (a.reportModules b) :=
    .ite ((adds_report_minor rfl _ _).bind fun _ => (adds_report_minor rfl _ _).bind fun _ =>
      adds_trace_minor rfl _ _) (adds_pure _)
  exact hkinds.bind fun _ => hmodules.bind fun _ => adds_absorbDetails _ _

theorem adds_merge : Adds Entry.Minor (a.merge b) :=
  .ite ((adds_absorb _ _).bind_pure) ((adds_absorb _ _).bind_pure)

theorem adds_upsert (t : Table Definition) (d : Definition) : Adds Entry.Minor (d.upsert t) := by
  unfold upsert
  split
  · exact adds_pure _
  · exact (adds_merge _ _).bind_pure

end Definition

namespace Codebase

open Definition

variable {P : Entry → Prop}

theorem adds_upsertType (cb : Codebase) (d : Definition) : Adds Entry.Minor (cb.upsertType d) := by
  unfold upsertType
  split
  · exact adds_pure _
  · exact (adds_merge _ _).bind_pure

theorem adds_upsertField (cb : Codebase) (record : String) (d : Definition) :
    Adds Entry.Minor (cb.upsertField record d) := by
  unfold upsertField
  dsimp only
  split
  · exact adds_pure _
  · exact (adds_merge _ _).bind_pure

/-! ## Macros -/

theorem adds_addMacroOf (c : Context) (st : Statement) (cb : Codebase) :
    Adds Entry.MinorOrMismatch (addMacroOf c st cb) := by
  unfold addMacroOf
  split
  · refine (Visibility.adds_check _ _ _ _ _).bind fun _ => (adds_note (.inl rfl)).bind fun _ => ?_
    exact ((adds_upsert _ _).mono fun _ => Entry.Minor.minorOrMismatch).bind_pure
  · exact adds_pure _

theorem adds_readFile (w : Workspace) (tree : FileTree) (path : String) :
    Adds P (readFile w tree path) := by
  unfold readFile
  split
  · exact adds_pure _
  · exact adds_throw _

theorem adds_addMacroFiles (c : Context) (tree : FileTree) (paths : List String)
    (cb : Codebase) : Adds Entry.MinorOrMismatch (addMacroFiles c tree paths cb) :=
  adds_foldlM (fun _ _ => (adds_readFile _ _ _).bind fun _ =>
    adds_foldlM (fun _ _ => adds_addMacroOf _ _ _) _ _) _ _

/-! ## Tasks -/

theorem adds_upsertAll (t : Table Definition) (ds : List Definition) :
    Adds Entry.Minor (upsertAll t ds) :=
  adds_foldlM (fun _ _ => (adds_upsert _ _).bind_pure) _ _

theorem adds_mergeTypes (src cb : Codebase) : Adds Entry.Minor (mergeTypes src cb) := by
  refine adds_foldlM (fun acc key => ?_) _ _
  dsimp only
  split
  · exact (adds_upsertType _ _).bind_pure
  · exact adds_pure _

theorem adds_mergeRecordFields (record : String) (src cb : Codebase) :
    Adds Entry.Minor (mergeRecordFields record src cb) := by
  refine adds_foldlM (fun acc name => ?_) _ _
  dsimp only
  split
  · exact (adds_upsertField _ _ _).bind_pure
  · exact adds_pure _

theorem adds_mergeTask (hminor : ∀ e, Entry.Minor e → P e) (path : String) {log : Transcript}
    (hlog : ∀ e ∈ log, P e.relay) (src cb : Codebase) : Adds P (mergeTask path log src cb) := by
  refine ((adds_trace_minor rfl _ _).mono hminor).bind fun _ => (adds_relay hlog).bind fun _ => ?_
  refine ((adds_mergeTypes _ _).mono hminor).bind fun _ => ?_
  refine ((adds_upsertAll _ _).mono hminor).bind fun _ => ?_
  refine ((adds_foldlM (fun _ _ => adds_mergeRecordFields _ _ _) _ _).mono hminor).bind fun _ => ?_
  refine Adds.bind (Adds.mono ?_ hminor) fun _ => adds_pure _
  exact adds_foldlM (fun _ _ => (adds_upsertAll _ _).bind_pure) _ _

theorem adds_addFilesAsTasks (hminor : ∀ e, Entry.Minor e → P e) {c : Context}
    {tree : FileTree} {cb : Codebase}
    (hlogs : ∀ path src log, (addExpandedFile c tree path cb).task = .ok (src, log) →
      ∀ e ∈ log, P e.relay) (paths : List String) : Adds P (addFilesAsTasks c tree paths cb) := by
  let task (path : String) : Except Fault (String × Codebase × Transcript) :=
    (addExpandedFile c tree path cb).task.map (Prod.mk path)
  refine Adds.bind_answer (adds_mapM (fun path => ?_) _)
    (answers_mapM id (g := task) (fun path => ?_) paths)
    fun results hresults => adds_foldlM_of_mem (fun result hmem merged => ?_) _
  · split
    · exact adds_pure _
    · exact adds_throw _
  · unfold task
    cases (addExpandedFile c tree path cb).task with
    | error fault => exact answers_throw fault
    | ok result => exact answers_pure _
  · -- the transcript of a task is that of scanning its file
    obtain ⟨results, hrun, rfl⟩ := Fault.exists_of_map_eq_ok hresults
    rw [List.map_id] at hmem
    obtain ⟨path, -, hpath⟩ := Fault.exists_of_mem_mapM hrun result hmem
    obtain ⟨⟨src, log⟩, hsrc, rfl⟩ := Fault.exists_of_map_eq_ok hpath
    exact adds_mergeTask hminor _ (hlogs path src log hsrc) _ _

/-! ## Texts

What holds of all diagnostics holds of all entries that scanning a text adds. -/

section

variable (hP : ∀ d, P (.logged d)) (c : Context) (isGlobal : Bool) (r : RecordDecl)
  (st : Statement) (cb : Codebase)

include hP

theorem adds_addFields : Adds P (addFields c r cb) :=
  ((Visibility.adds_check _ _ _ _ _).anyLogged hP).bind fun _ => adds_foldlM (fun _ _ =>
    ((adds_upsertField _ _ _).minorLogged hP).bind_pure) _ _

theorem adds_enterRecord : Adds P (enterRecord c isGlobal r cb) := by
  have hverdict : Adds P (recordVerdict c cb r) := by
    unfold recordVerdict
    split <;> exact (Visibility.adds_check _ _ _ _ _).anyLogged hP
  refine hverdict.bind fun _ => ((adds_upsertType _ _).minorLogged hP).bind fun _ => ?_
  refine (adds_note (hP _)).bind fun _ => (adds_addFields hP _ _ _).bind fun _ => ?_
  exact .ite ((adds_note (hP _)).bind_pure) (adds_pure _)

/-- What entering a tree of records adds. -/
theorem adds_addTree : Adds P (addTree c isGlobal r cb) := by
  fun_induction addTree c isGlobal r cb with
  | case1 isGlobal r cb ih =>
    refine (adds_enterRecord hP _ _ _ _).bind fun _ => adds_foldlM (fun acc n => ?_) _ _
    dsimp only
    split
    · rename_i hlt
      exact (ih acc n hlt).bind_pure
    · exact adds_pure _

theorem adds_addFunction (f : FunctionDecl) (cb : Codebase) :
    Adds P (addFunction c f cb) := by
  refine ((Visibility.adds_check _ _ _ _ _).anyLogged hP).bind fun _ =>
    (adds_note (hP _)).bind fun _ => .ite ?_ ?_
  · refine .ite ((adds_note (hP _)).bind fun _ => ?_) ?_
    all_goals exact ((adds_upsert _ _).minorLogged hP).bind_pure
  · exact ((adds_upsert _ _).minorLogged hP).bind_pure

theorem adds_addTypedef (inherited : Option (List Token)) (cb : Codebase) :
    Adds P (addTypedef c st inherited cb) := by
  unfold addTypedef
  split
  · exact .ite ((adds_note (hP _)).bind_pure)
      ((adds_note (hP _)).bind_pure)
  · exact adds_pure _

theorem adds_addStatement (directives : Bool) (st : Statement) (k : StatementKind) (cb : Codebase)
    : Adds P (addStatement c directives st k cb) := by
  refine .ite ((adds_liftM _).bind fun f => ?_) (.ite ((adds_liftM _).bind fun r => ?_)
    (.ite ?_ (.ite ?_ (.ite ((adds_addMacroOf _ _ _).anyLogged hP) (adds_pure _)))))
  · split
    · exact .ite (adds_addFunction hP _ _ _) (adds_pure _)
    · exact adds_pure _
  · split
    · refine Adds.bind ?_ fun _ => adds_pure _
      exact (adds_liftM _).bind fun _ => (adds_addTree hP _ _ _ _).bind fun _ =>
        adds_pure _
    · exact adds_pure _
  · exact (adds_liftM _).bind fun _ => (adds_note (hP _)).bind_pure
  · exact (adds_note (hP _)).bind_pure

/-- What entering a text adds. -/
theorem adds_addText (offset : Int) (directives : Bool) (s : List Char) (cb : Codebase) :
    Adds P (addText c offset directives s cb) := by
  fun_induction addText c offset directives s cb with
  | case1 c offset directives s cb ih =>
    refine (adds_note (hP _)).bind fun _ => Adds.bind ?_ fun _ => adds_pure _
    refine adds_foldlM (fun acc st => (adds_liftM _).bind fun k => ?_) _ _
    refine .ite (adds_addTypedef hP _ _ _ _) ?_
    dsimp only
    split
    · refine (adds_note (hP _)).bind fun _ => ?_
      split
      · rename_i hlt
        exact (ih _ _ hlt).bind_pure
      · exact adds_pure _
    · exact (adds_addStatement hP _ _ _ _ _).bind_pure

theorem adds_addExpandedFile (tree : FileTree) (path : String) (cb : Codebase) :
    Adds P (addExpandedFile c tree path cb) :=
  (adds_readFile _ _ _).bind fun _ => (adds_array_forM (fun d => adds_note (hP d)) _).bind fun _ =>
    adds_addText hP _ _ _ _ _

end

/-! ## Files -/

/-- What a scan adds. -/
theorem adds_scanFiles (hP : ∀ d, P (.logged d)) (hrelay : ∀ e, P e → P e.relay) (c : Context)
    (tree : FileTree) (paths : List String) (cb : Codebase) :
    Adds P (scanFiles c tree true true paths cb) := by
  refine ((adds_addMacroFiles c tree paths cb).anyLogged hP).bind fun cb => ?_
  refine adds_addFilesAsTasks (fun _ h => h.minorOrMismatch.logged hP)
    (fun path src log htask e he => hrelay e ?_) paths
  have hlog := (adds_addExpandedFile hP c tree path cb).entries
  rw [start_of_task_eq_ok htask] at hlog
  exact hlog e he

end Codebase

end CBoundary
