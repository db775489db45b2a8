import CBoundary.Proofs.Code.Tasks

/-!
# Two passes

A scan in two passes enters the macros of all files first, and then what the files define with
their macros expanded: in sequence, or as tasks of their own that are merged.
-/

namespace CBoundary

open Definition Fault List

/-! ## Agreement -/

/-- The standing under a name. -/
def Definition.standings (t : Table Definition) (key : String) : Option Standing :=
  (t.find? key).map standing

namespace Codebase

/-- The same types, fields and type definitions are known, with the same standing. -/
structure AgreesOnRecords (a b : Codebase) : Prop where
  typeKeys : ∀ key, a.types.contains key = b.types.contains key
  types : ∀ key, (a.findType? key).map standing = (b.findType? key).map standing
  fields : ∀ record, (a.fields.find? record).map standings = (b.fields.find? record).map standings
  typedefs : ∀ name, a.typedefs.contains name = b.typedefs.contains name

/-- The same is known in all tables, with the same standing. -/
structure Agrees (a b : Codebase) : Prop extends AgreesOnRecords a b where
  restrictedTypes : ∀ name, name ∈ a.restrictedTypes ↔ name ∈ b.restrictedTypes
  names : standings a.names = standings b.names
  restrictedNames : ∀ name, name ∈ a.restrictedNames ↔ name ∈ b.restrictedNames
  staticNames : ∀ file,
    (a.staticNames.find? file).map standings = (b.staticNames.find? file).map standings
  macros : standings a.macros = standings b.macros

/-- Nothing was listed as private, and the macros stand as after the first pass. -/
def NothingLost (first cb : Codebase) : Prop :=
  cb.restrictedTypes = [] ∧ cb.restrictedNames = [] ∧ standings cb.macros = standings first.macros

theorem standings_eq_of_claimAt {t t' : Table Definition}
    (h : ∀ key, claimAt t key = claimAt t' key) : standings t = standings t' := by
  funext key
  have hclaim := congrArg (Option.map Claim.standing) (h key)
  unfold claimAt at hclaim
  rw [Option.map_map, Option.map_map] at hclaim
  exact hclaim

theorem SameRecords.agreesOnRecords {a b : Codebase} (h : SameRecords a b) :
    AgreesOnRecords a b := by
  refine ⟨fun key => ?_, fun key => ?_, fun record => ?_, fun name => ?_⟩
  · rw [Table.contains_eq, Table.contains_eq, h.types]
  · have hfind : a.findType? key = b.findType? key := by
      unfold findType? canonicalType
      simp only [h.types]
    rw [hfind]
  · rw [h.fields]
  · rw [Table.contains_eq, Table.contains_eq, h.typedefs]

theorem BothClaim.standings {g : List Definition} {o o' : Option (Table Definition)}
    (h : BothClaim g o o') : o.map standings = o'.map standings := by
  rcases h with ⟨rfl, rfl⟩ | ⟨t, t', rfl, rfl, hclaim, hclaim'⟩
  · rfl
  · rw [Option.map_some, Option.map_some,
      standings_eq_of_claimAt fun key => (hclaim key).trans (hclaim' key).symm]

/-! ## The first pass -/

section Passes

open Audit

variable {c : Context} {tree : FileTree} {paths : List String} {cb first S : Codebase}
variable {findings : List Finding} {key : String}

/-- The macros of all files come in. -/
def firstPass (c : Context) (tree : FileTree) (paths : List String) (cb : Codebase) :
    Except Fault Codebase :=
  paths.foldlM (fun cb path => (macroFindings c tree path).map cb.enterAll) cb

theorem answers_addMacroFiles (c : Context) (tree : FileTree) (paths : List String)
    (cb : Codebase) : Answers (addMacroFiles c tree paths cb) (firstPass c tree paths cb) :=
  answers_foldlM (fun cb path => answers_addMacroFile c tree path cb) paths cb

/-- Nothing but macros is known. -/
def Unscanned (cb : Codebase) : Prop := cb = { macros := cb.macros }

theorem Unscanned.enterMacros (h : cb.Unscanned)
    (hmacros : ∀ x ∈ findings, ∃ c m, x = .macroDef c m) : (cb.enterAll findings).Unscanned := by
  refine foldlRecOn (motive := Unscanned) findings enter h fun cb hcb x hx => ?_
  obtain ⟨c, m, rfl⟩ := hmacros x hx
  rw [hcb]
  rfl

theorem Unscanned.firstPass (h : cb.Unscanned)
    (hfirst : firstPass c tree paths cb = .ok first) : first.Unscanned := by
  refine foldlM_preserves (I := Unscanned) (fun cb cb' path _ hcb hstep => ?_) h hfirst
  obtain ⟨findings, hfindings, rfl⟩ := exists_of_map_eq_ok hstep
  obtain ⟨opened, -, hfindings⟩ := exists_of_bind_eq_ok hfindings
  cases hfindings
  refine hcb.enterMacros fun x hx => ?_
  obtain ⟨st, -, hx⟩ := mem_flatMap.mp hx
  obtain ⟨m, -, rfl⟩ := mem_map.mp hx
  exact ⟨_, m, rfl⟩

/-! ## The second pass in sequence -/

/-- The code base after one more file. -/
def nextFile (c : Context) (tree : FileTree) (cb : Codebase) (path : String) :
    Except Fault Codebase :=
  (expandedFindings c tree cb.macroTable path).map cb.examineMacros.enterAll

theorem answers_secondPass (c : Context) (tree : FileTree) (paths : List String) (cb : Codebase) :
    Answers (paths.foldlM (fun cb path => addFile c tree true path cb) cb)
      (paths.foldlM (nextFile c tree) cb) := by
  apply answers_foldlM
  intro cb path
  exact (answers_trace _ _ _).bind_ok (answers_addExpandedFile c tree path cb)

/-- The macros of the files, expanded as after the first pass, are all known by then. -/
def KnownMacros (c : Context) (tree : FileTree) (first : Codebase) (paths : List String) : Prop :=
  ∀ path ∈ paths, ∀ findings, expandedFindings c tree first.macroTable path = .ok findings →
    ∀ d ∈ findings.flatMap Finding.macros, first.macros.find? d.name ≠ none

/-- The code base knows the macros of the first pass, and expands as that left it. -/
structure HasMacros (first cb : Codebase) : Prop where
  known : ∀ key, first.macros.find? key ≠ none → cb.macros.find? key ≠ none
  bare : bareMacros cb.macros = bareMacros first.macros

theorem find?_examineMacros (h : cb.macros.find? key ≠ none) :
    cb.examineMacros.macros.find? key ≠ none := by
  show (cb.macros.mapValues _).find? key ≠ none
  rw [Table.find?_mapValues]
  simpa using h

theorem find?_macros_next (h : cb.macros.find? key ≠ none) (findings : List Finding) :
    (cb.examineMacros.enterAll findings).macros.find? key ≠ none := by
  rw [macros_enterAll]
  exact find?_enteredAll_ne_none _ (find?_examineMacros h)

theorem find?_macros_secondPass (hrun : paths.foldlM (nextFile c tree) cb = .ok S)
    (h : cb.macros.find? key ≠ none) : S.macros.find? key ≠ none := by
  refine foldlM_preserves (I := fun (cb : Codebase) => cb.macros.find? key ≠ none)
    (fun cb cb' path _ hcb hstep => ?_) h hrun
  obtain ⟨findings, -, rfl⟩ := exists_of_map_eq_ok hstep
  exact find?_macros_next hcb findings

theorem HasMacros.next (h : HasMacros first cb)
    (hknown : ∀ d ∈ findings.flatMap Finding.macros, first.macros.find? d.name ≠ none) :
    HasMacros first (cb.examineMacros.enterAll findings) := by
  refine ⟨fun key hkey => find?_macros_next (h.known key hkey) findings, ?_⟩
  rw [macros_enterAll, bareMacros_enteredAll, bareMacros_examineMacros, h.bare]
  intro d hd
  exact find?_examineMacros (h.known d.name (hknown d hd))

theorem secondPass_of_known (hknown : KnownMacros c tree first paths) (h : HasMacros first cb) :
    paths.foldlM (nextFile c tree) cb =
      (batch c tree first.macroTable paths).map (inSequence cb) := by
  induction paths generalizing cb with
  | nil => rfl
  | cons path paths ih =>
    have hfirst : expandedFindings c tree cb.macroTable path =
        expandedFindings c tree first.macroTable path := expandedFindings_of_bare h.bare path
    rw [foldlM_cons]
    rw [nextFile, batch, hfirst, mapM_cons]
    cases hfindings : expandedFindings c tree first.macroTable path with
    | error fault => rfl
    | ok findings =>
      have hnext := h.next (hknown path mem_cons_self findings hfindings)
      have hrest := ih (fun p hp => hknown p (mem_cons_of_mem path hp)) hnext
      show paths.foldlM (nextFile c tree) (cb.examineMacros.enterAll findings) = _
      rw [hrest]
      unfold batch
      cases paths.mapM fun path =>
        (expandedFindings c tree first.macroTable path).map (Prod.mk path) <;> rfl

theorem knownMacros_of_secondPass (hrun : paths.foldlM (nextFile c tree) cb = .ok S)
    (h : HasMacros first cb)
    (hend : ∀ key, S.macros.find? key ≠ none → first.macros.find? key ≠ none) :
    KnownMacros c tree first paths := by
  induction paths generalizing cb with
  | nil =>
    intro path hpath
    cases hpath
  | cons path paths ih =>
    obtain ⟨next, hnext, hrest⟩ := exists_of_bind_eq_ok hrun
    obtain ⟨findings, hfindings, rfl⟩ := exists_of_map_eq_ok hnext
    rw [expandedFindings_of_bare h.bare] at hfindings
    have hknown : ∀ d ∈ findings.flatMap Finding.macros, first.macros.find? d.name ≠ none := by
      intro d hd
      apply hend
      apply find?_macros_secondPass hrest
      rw [macros_enterAll]
      exact find?_enteredAll_of_mem hd
    intro p hp found hfound
    rcases mem_cons.mp hp with rfl | hp
    · rw [hfindings] at hfound
      cases hfound
      exact hknown
    · exact ih hrest (h.next hknown) p hp found hfound

/-! ## The second pass as tasks -/

/-- What a task comes back with. -/
def taskResult (c : Context) (tree : FileTree) (first : Codebase) (t : String × List Finding) :
    String × Codebase × Transcript :=
  (t.1, first.examineMacros.enterAll t.2, (addExpandedFile c tree t.1 first).start.2)

section

variable (c : Context) (tree : FileTree) (paths : List String) (cb : Codebase)

theorem answers_addFilesAsTasks (first : Codebase) : Answers (addFilesAsTasks c tree paths first)
      ((batch c tree first.macroTable paths).map (asTasks first first)) := by
  have hbind : (batch c tree first.macroTable paths).map (asTasks first first) =
      batch c tree first.macroTable paths >>= fun tasks => .ok (asTasks first first tasks) := by
    cases batch c tree first.macroTable paths <;> rfl
  refine Answers.bind_map (answers_mapM (taskResult c tree first) (fun path => ?_) paths)
    (fun tasks => ?_)
  · -- a task comes back with its answer, and its fault is a fault of the scan
    have htask := (answers_addExpandedFile c tree path first).task_eq
    rw [htask]
    cases expandedFindings c tree first.macroTable path with
    | error fault => exact answers_throw fault
    | ok findings => exact answers_pure _
  · rw [foldlM_map]
    exact answers_foldlM_ok (fun cb t => answers_mergeTask _ _ _ cb) tasks first

/-! ## Scans in two passes -/

theorem answers_scanFiles_sequence : Answers (scanFiles c tree true false paths cb)
      (firstPass c tree paths cb >>= paths.foldlM (nextFile c tree)) :=
  (answers_addMacroFiles c tree paths cb).bind fun first => answers_secondPass c tree paths first

theorem start_scanFiles_sequence : (scanFiles c tree true false paths cb).start.1 =
      firstPass c tree paths cb >>= paths.foldlM (nextFile c tree) :=
  (answers_scanFiles_sequence c tree paths cb).start_fst

theorem answers_scanFiles_tasks : Answers (scanFiles c tree true true paths cb)
      (firstPass c tree paths cb >>= fun first =>
        (batch c tree first.macroTable paths).map (asTasks first first)) :=
  (answers_addMacroFiles c tree paths cb).bind fun first =>
    answers_addFilesAsTasks c tree paths first

theorem start_scanFiles_tasks : (scanFiles c tree true true paths cb).start.1 =
      firstPass c tree paths cb >>= fun first =>
        (batch c tree first.macroTable paths).map (asTasks first first) :=
  (answers_scanFiles_tasks c tree paths cb).start_fst

end

/-! ## What scans keep -/

section Kept

variable {I : Codebase → Prop}

/-- Entering what was found keeps a property. -/
def KeptBy (I : Codebase → Prop) (found : Except Fault (List Finding)) : Prop :=
  ∀ findings, found = .ok findings → ∀ cb : Codebase, I cb → I (cb.enterAll findings)

theorem foldlM_enterAll_preserves {find : String → Except Fault (List Finding)}
    (hfind : ∀ path ∈ paths, KeptBy I (find path)) (h : I cb) {cb' : Codebase}
    (hrun : paths.foldlM (fun (cb : Codebase) path => (find path).map cb.enterAll) cb = .ok cb') :
    I cb' := by
  refine foldlM_preserves (fun cb cb' path hpath hcb hstep => ?_) h hrun
  obtain ⟨findings, hfindings, rfl⟩ := exists_of_map_eq_ok hstep
  exact hfind path hpath findings hfindings cb hcb

theorem gives_onePass (hplain : ∀ path ∈ paths, KeptBy I (plainFindings c tree path))
    (tasks : Bool) (h : I cb) : Gives (scanFiles c tree false tasks paths cb) I :=
  (answers_foldlM (fun cb path => answers_addFile c tree path cb) paths cb).gives
    fun _ hrun => foldlM_enterAll_preserves hplain h hrun

/-- An invariant of findings is kept by a scan. -/
theorem gives_twoPass {tasks : Bool} (hexamine : ∀ cb, I cb → I cb.examineMacros)
    (hexpanded : ∀ table, ∀ path ∈ paths, KeptBy I (expandedFindings c tree table path))
    (hmerged : tasks = true → ∀ src cb, I src → I cb → I (mergedTask src cb))
    (hfirst : ∀ first, firstPass c tree paths cb = .ok first → I first) :
    Gives (scanFiles c tree true tasks paths cb) I := by
  cases tasks with
  | false =>
    refine (answers_scanFiles_sequence c tree paths cb).gives fun cb' hrun => ?_
    obtain ⟨first, hrun₁, hrun₂⟩ := exists_of_bind_eq_ok hrun
    refine foldlM_preserves (fun cb cb' path hpath hcb hstep => ?_) (hfirst first hrun₁) hrun₂
    obtain ⟨findings, hfindings, rfl⟩ := exists_of_map_eq_ok hstep
    exact hexpanded _ path hpath findings hfindings _ (hexamine cb hcb)
  | true =>
    refine (answers_scanFiles_tasks c tree paths cb).gives fun cb' hrun => ?_
    obtain ⟨first, hrun₁, hrun₂⟩ := exists_of_bind_eq_ok hrun
    obtain ⟨batched, hbatch, rfl⟩ := exists_of_map_eq_ok hrun₂
    refine foldlRecOn (motive := I) batched _ (hfirst first hrun₁) fun cb hcb t ht => ?_
    obtain ⟨path, hpath, htask⟩ := exists_of_mem_mapM hbatch t ht
    obtain ⟨findings, hfindings, rfl⟩ := exists_of_map_eq_ok htask
    have hstart := hexamine first (hfirst first hrun₁)
    exact hmerged rfl _ cb (hexpanded _ path hpath findings hfindings _ hstart) hcb

end Kept

/-- No two of the files define records of one name. -/
def SeparateRecords (c : Context) (tree : FileTree) (first : Codebase) (paths : List String) :
    Prop :=
  paths.Pairwise fun p q => ∀ x y, expandedFindings c tree first.macroTable p = .ok x →
    expandedFindings c tree first.macroTable q = .ok y →
      ∀ name ∈ recordNames x, name ∉ recordNames y

section Runs

variable {tasks : List (String × List Finding)}

theorem agreesOnRecords_of_separate (hfirst : first.Unscanned)
    (hbatch : batch c tree first.macroTable paths = .ok tasks)
    (hseparate : SeparateRecords c tree first paths) :
    (inSequence first tasks).AgreesOnRecords (asTasks first first tasks) := by
  obtain ⟨hpaths, hfindings⟩ := batch_spec hbatch
  have hrecordless : first.Recordless := by
    rw [hfirst]
    rfl
  have hpairs : tasks.Pairwise fun t u => ∀ name ∈ recordNames t.2, name ∉ recordNames u.2 := by
    rw [SeparateRecords, ← hpaths, pairwise_map] at hseparate
    refine hseparate.imp_of_mem fun {t u} ht hu hpair => ?_
    exact hpair t.2 u.2 (hfindings t ht) (hfindings u hu)
  have hsame := sameRecords_runs (K := fun _ => False) hrecordless hrecordless.kept
    ⟨rfl, fun _ => rfl, fun _ => rfl, fun _ => rfl⟩ (fun _ _ _ _ => id) hpairs
  exact hsame.agreesOnRecords

theorem standings_staticNames (hstart : first.staticNames = {})
    (hbatch : batch c tree first.macroTable paths = .ok tasks) (file : String) :
    ((inSequence first tasks).staticNames.find? file).map standings =
      ((asTasks first first tasks).staticNames.find? file).map standings := by
  obtain ⟨hpaths, hfindings⟩ := batch_spec hbatch
  have hlies : ∀ t ∈ tasks, ∀ x ∈ t.2, x.LiesIn t.1 := fun t ht =>
    liesIn_expandedFindings (hfindings t ht)
  have hnone : first.staticNames.find? file = none := by rw [hstart]; rfl
  -- a file defines the same static functions each time it is scanned
  cases hfile : expandedFindings c tree first.macroTable file with
  | error fault =>
    refine (bothClaim_staticNames (g := []) hlies (fun t ht hpath => ?_) (by simp) hstart
      (.inl ⟨hnone, hnone⟩)).standings
    have hsome := hfindings t ht
    rw [hpath, hfile] at hsome
    cases hsome
  | ok findings =>
    refine (bothClaim_staticNames (g := staticsOf findings) hlies (fun t ht hpath => ?_) ?_ hstart
      (.inl ⟨hnone, hnone⟩)).standings
    · have hsome := hfindings t ht
      rw [hpath, hfile] at hsome
      rw [Except.ok.inj hsome]
    · intro d hd
      obtain ⟨p, hp, rfl⟩ := mem_map.mp hd
      obtain ⟨x, hx, hp⟩ := mem_flatMap.mp hp
      exact (statics_of_liesIn (liesIn_expandedFindings hfile x hx) p hp).1

/-- All else agrees if nothing is lost. -/
theorem agrees_of_agreesOnRecords (hfirst : first.Unscanned)
    (hbatch : batch c tree first.macroTable paths = .ok tasks)
    (hlost : NothingLost first (inSequence first tasks))
    (hrecords : (inSequence first tasks).AgreesOnRecords (asTasks first first tasks)) :
    (inSequence first tasks).Agrees (asTasks first first tasks) := by
  obtain ⟨hpaths, hfindings⟩ := batch_spec hbatch
  obtain ⟨htypes, hnames, hmacros⟩ := hlost
  obtain ⟨htypes', hnames', hmacros'⟩ := asTasks_aside first first tasks
  have hlies : ∀ t ∈ tasks, ∀ x ∈ t.2, x.LiesIn t.1 := fun t ht =>
    liesIn_expandedFindings (hfindings t ht)
  have hnoTypes : first.restrictedTypes = [] := by rw [hfirst]
  have hnoNames : first.restrictedNames = [] := by rw [hfirst]
  have hempty : first.names = {} := by rw [hfirst]
  have hempty' : first.staticNames = {} := by rw [hfirst]
  refine ⟨hrecords, ?_, ?_, ?_, standings_staticNames hempty' hbatch, ?_⟩
  · intro name
    rw [htypes, htypes', hnoTypes]
  · apply standings_eq_of_claimAt
    exact claimAt_names hlies (not_hidden_of_inSequence hnames) hempty rfl
  · intro name
    rw [hnames, hnames', hnoNames]
  · rw [hmacros, hmacros']

theorem nothingLost_of_agrees (hfirst : first.Unscanned)
    (h : S.Agrees (asTasks first first tasks)) : NothingLost first S := by
  obtain ⟨htypes, hnames, hmacros⟩ := asTasks_aside first first tasks
  have hnoTypes : first.restrictedTypes = [] := by rw [hfirst]
  have hnoNames : first.restrictedNames = [] := by rw [hfirst]
  refine ⟨?_, ?_, ?_⟩
  · apply eq_nil_iff_forall_not_mem.mpr
    intro name hname
    have hmem := (h.restrictedTypes name).mp hname
    rw [htypes, hnoTypes] at hmem
    cases hmem
  · apply eq_nil_iff_forall_not_mem.mpr
    intro name hname
    have hmem := (h.restrictedNames name).mp hname
    rw [hnames, hnoNames] at hmem
    cases hmem
  · rw [h.macros, hmacros]

theorem exists_batch (hrun : paths.foldlM (nextFile c tree) first = .ok S)
    (hlost : NothingLost first S) :
    ∃ tasks, batch c tree first.macroTable paths = .ok tasks ∧ S = inSequence first tasks := by
  have hmacros : HasMacros first first := ⟨fun _ => id, rfl⟩
  have hend : ∀ key, S.macros.find? key ≠ none → first.macros.find? key ≠ none := by
    intro key hkey hnone
    have hstanding := congrFun hlost.2.2 key
    unfold standings at hstanding
    rw [hnone] at hstanding
    exact hkey (Option.map_eq_none_iff.mp hstanding)
  rw [secondPass_of_known (knownMacros_of_secondPass hrun hmacros hend) hmacros] at hrun
  obtain ⟨tasks, hbatch, rfl⟩ := exists_of_map_eq_ok hrun
  exact ⟨tasks, hbatch, rfl⟩

end Runs

/-- Scanning files in two passes, in sequence and as tasks, from a code base that knows macros only.
Both have a fault of the first pass, and then fail alike unless a file brings in a macro that the
first pass did not see. Tasks agree with a scan in sequence exactly when nothing of it is lost in
merging and they come to the same records; if no two files define records of one name, exactly when
nothing is lost. -/
theorem scanFiles_agrees_iff (c : Context) (tree : FileTree) (paths : List String)
    (macros : Table Definition) :
    let pass := (addMacroFiles c tree paths { macros }).start.1
    let sequence := (scanFiles c tree true false paths { macros }).start.1
    let tasks := (scanFiles c tree true true paths { macros }).start.1
    (∀ fault, pass = .error fault → sequence = .error fault ∧ tasks = .error fault) ∧
      ∀ first, pass = .ok first → (KnownMacros c tree first paths →
          ∀ fault, sequence = .error fault ↔ tasks = .error fault) ∧
        ∀ S, sequence = .ok S → ((∃ T, tasks = .ok T ∧ S.Agrees T) ↔
            NothingLost first S ∧ ∃ T, tasks = .ok T ∧ S.AgreesOnRecords T) ∧
          (SeparateRecords c tree first paths →
            ((∃ T, tasks = .ok T ∧ S.Agrees T) ↔ NothingLost first S)) := by
  intro pass sequence tasks
  have hpass : pass = firstPass c tree paths { macros } :=
    (answers_addMacroFiles c tree paths { macros }).start_fst
  have hsequence : sequence = firstPass c tree paths { macros } >>= paths.foldlM (nextFile c tree) :=
    start_scanFiles_sequence c tree paths { macros }
  have htasks : tasks = firstPass c tree paths { macros } >>= fun first =>
      (batch c tree first.macroTable paths).map (asTasks first first) :=
    start_scanFiles_tasks c tree paths { macros }
  refine ⟨fun fault hfault => ?_, fun first hfirst => ?_⟩
  · rw [hsequence, htasks, ← hpass, hfault]
    exact ⟨rfl, rfl⟩
  rw [hpass] at hfirst
  have hstart : Unscanned { macros } := rfl
  have hunscanned : first.Unscanned := hstart.firstPass hfirst
  have hsequence' : sequence = paths.foldlM (nextFile c tree) first := by
    rw [hsequence, hfirst]
    rfl
  have htasks' : tasks = (batch c tree first.macroTable paths).map (asTasks first first) := by
    rw [htasks, hfirst]
    rfl
  refine ⟨fun hknown fault => ?_, fun S hS => ?_⟩
  · rw [hsequence', htasks', secondPass_of_known hknown ⟨fun _ => id, rfl⟩]
    cases batch c tree first.macroTable paths <;> simp [Except.map]
  rw [hsequence'] at hS
  have hnothing : (∃ T, tasks = .ok T ∧ S.Agrees T) → NothingLost first S := by
    rintro ⟨T, hT, hagrees⟩
    rw [htasks'] at hT
    obtain ⟨ts, -, rfl⟩ := exists_of_map_eq_ok hT
    exact nothingLost_of_agrees hunscanned hagrees
  have hrecords : (∃ T, tasks = .ok T ∧ S.Agrees T) ↔
      NothingLost first S ∧ ∃ T, tasks = .ok T ∧ S.AgreesOnRecords T := by
    constructor
    · intro h
      obtain ⟨T, hT, hagrees⟩ := id h
      exact ⟨hnothing h, T, hT, hagrees.toAgreesOnRecords⟩
    · rintro ⟨hlost, T, hT, hrecords⟩
      obtain ⟨ts, hbatch, rfl⟩ := exists_batch hS hlost
      have hresult := hT
      rw [htasks', hbatch] at hresult
      cases hresult
      exact ⟨_, hT, agrees_of_agreesOnRecords hunscanned hbatch hlost hrecords⟩
  refine ⟨hrecords, fun hseparate => ⟨hnothing, fun hlost => hrecords.mpr ⟨hlost, ?_⟩⟩⟩
  obtain ⟨ts, hbatch, rfl⟩ := exists_batch hS hlost
  refine ⟨asTasks first first ts, ?_, agreesOnRecords_of_separate hunscanned hbatch hseparate⟩
  rw [htasks', hbatch]
  rfl

end Passes

/-! ## A private function -/

variable {c : Context} {tree : FileTree} {path : String}

theorem firstPass_of_length (h : (macroFindings c tree path).toOption.map List.length = some 0)
    (cb : Codebase) : firstPass c tree [path] cb = .ok cb := by
  obtain ⟨findings, hfound, hlength⟩ := Option.map_eq_some_iff.mp h
  obtain rfl := length_eq_zero_iff.mp hlength
  rw [firstPass, foldlM_cons, eq_ok_of_toOption hfound]
  rfl

theorem start_scanFiles_of_firstPass {cb : Codebase} {findings : List Finding}
    (hfirst : firstPass c tree [path] cb = .ok cb)
    (h : expandedFindings c tree cb.macroTable path = .ok findings) :
    (scanFiles c tree true false [path] cb).start.1 = .ok (cb.examineMacros.enterAll findings) := by
  rw [start_scanFiles_sequence, hfirst]
  show [path].foldlM (nextFile c tree) cb = _
  unfold nextFile
  rw [foldlM_cons, h]
  rfl

/-- A file with a private function. -/
def privateText : String := "/* #private */ int ff(void) \x7b return 0; \x7d\n"

/-- The tree of that file alone. -/
def privateTree : FileTree := ⟨⟨[(Path.normalize "a.c", privateText)]⟩⟩

theorem macroFindings_private :
    (macroFindings {} privateTree "a.c").toOption.map List.length = some 0 := by
  rw [macroFindings, openFile, privateTree, find?_single]
  decide +kernel

theorem expandedFindings_private :
    (expandedFindings {} privateTree empty.macroTable "a.c").toOption.map
      (fun findings => (findings.flatMap Finding.globals).any fun d => d.hidden) = some true := by
  rw [expandedFindings, openFile, privateTree, find?_single]
  decide +kernel

theorem firstPass_private : firstPass {} privateTree ["a.c"] empty = .ok empty :=
  firstPass_of_length macroFindings_private empty

/-- The private function is listed by a scan in sequence only. -/
theorem scanFiles_agrees_iff_private :
    ∃ S, (scanFiles {} privateTree true false ["a.c"] empty).start.1 = .ok S ∧
      ¬ ∃ T, (scanFiles {} privateTree true true ["a.c"] empty).start.1 = .ok T ∧ S.Agrees T := by
  obtain ⟨findings, hfound, hprivate⟩ := Option.map_eq_some_iff.mp expandedFindings_private
  have hscan := start_scanFiles_of_firstPass firstPass_private (eq_ok_of_toOption hfound)
  have hpass : (addMacroFiles {} privateTree ["a.c"] empty).start.1 = .ok empty :=
    (answers_addMacroFiles {} privateTree ["a.c"] empty).start_fst.trans firstPass_private
  refine ⟨_, hscan, fun hagrees => ?_⟩
  have hiff := ((scanFiles_agrees_iff {} privateTree ["a.c"] empty.macros).2 empty hpass).2 _ hscan
  obtain ⟨⟨-, hnames, -⟩, -⟩ := hiff.1.mp hagrees
  obtain ⟨d, hd, hhidden⟩ := any_eq_true.mp hprivate
  rw [(restrictedNames_enterAll_eq_nil hnames).2 d hd] at hhidden
  cases hhidden

end Codebase

end CBoundary
