import CBoundary.Proofs.Access.Events
import CBoundary.Proofs.Code.Aliases
import CBoundary.Proofs.Cache
import CBoundary.Proofs.Code.Entries
import CBoundary.Proofs.Program

/-!
# The kept results of surveys

A survey keeps the scanned code base, the uses in it and their statistics, each at a place of its
own.  A result is right for a survey if it leads to the same report as a new one.
-/

namespace CBoundary.Survey

open Audit Checker List

variable {o : Options} {cb : Codebase} {u : Use} {e : AccessEvent}

/-! ## Kinds -/

/-- Are uses of the kind asked for? -/
def Options.wantsKind (o : Options) : UseKind → Bool
  | .expansion => o.macros
  | .call => o.calls
  | .field => o.fields

theorem Options.wantsKind_of_wantsUse {w : Workspace} (h : o.wantsUse w cb u = true) :
    o.wantsKind u.kind = true := by
  unfold wantsUse at h
  simp only [Bool.and_eq_true] at h
  exact h.1.1.1.2

/-- The uses that an event stands for. -/
def allUses (cb : Codebase) (e : AccessEvent) : List Use := (usesOf cb e).getD []

/-- The uses of an event, if it is looked at. -/
def lookedUses (o : Options) (cb : Codebase) (e : AccessEvent) : List Use :=
  if o.wantsEvent e then allUses cb e else []

theorem facts_of_mem_allUses (h : u ∈ allUses cb e) :
    (∀ o : Options, o.wantsEvent e = o.wantsKind u.kind) ∧ u.source.parent = none ∧
      ∀ parent, u.target.parent = some parent →
        ∃ type record, cb.findType? type = some record ∧ parent = record.name := by
  obtain ⟨source, access⟩ := e
  unfold allUses at h
  cases hfound : usesOf cb ⟨source, access⟩ with
  | none => rw [hfound] at h; cases h
  | some l =>
    rw [hfound, Option.getD_some] at h
    cases access with
    | expansion x =>
      cases hfound
      obtain ⟨⟨owner, names⟩, -, hu⟩ := mem_flatMap.mp h
      obtain ⟨n, -, hu⟩ := mem_filterMap.mp hu
      obtain ⟨d, -, rfl⟩ := Option.map_eq_some_iff.mp hu
      exact ⟨fun _ => rfl, rfl, nofun⟩
    | name span name =>
      obtain ⟨d, -, rfl⟩ := Option.map_eq_some_iff.mp hfound
      rw [mem_singleton.mp h]
      exact ⟨fun _ => rfl, rfl, nofun⟩
    | chain c => cases hfound
    | field c type field span =>
      obtain ⟨fields, -, hfound⟩ := Option.bind_eq_some_iff.mp hfound
      obtain ⟨d, -, hfound⟩ := Option.bind_eq_some_iff.mp hfound
      obtain ⟨record, hrecord, hfound⟩ := Option.bind_eq_some_iff.mp hfound
      cases hfound
      rw [mem_singleton.mp h]
      exact ⟨fun _ => rfl, rfl, fun parent hparent =>
        ⟨type, record, hrecord, (Option.some.inj hparent).symm⟩⟩

theorem flatMap_lookedUses_subset (o : Options) (cb : Codebase) (events : List AccessEvent) :
    events.flatMap (lookedUses o cb) ⊆ events.flatMap (allUses cb) := by
  intro u hu
  obtain ⟨e, he, hu⟩ := mem_flatMap.mp hu
  unfold lookedUses at hu
  split at hu
  · exact mem_flatMap.mpr ⟨e, he, hu⟩
  · cases hu

theorem filter_lookedUses {o' : Options}
    (hkinds : ∀ kind, o.wantsKind kind = true → o'.wantsKind kind = true) (w : Workspace)
    (cb cb' : Codebase) (events : List AccessEvent) :
    (events.flatMap (lookedUses o' cb)).filter (o.wantsUse w cb') =
      (events.flatMap (allUses cb)).filter (o.wantsUse w cb') := by
  rw [filter_flatMap, filter_flatMap]
  congr 1
  funext e
  unfold lookedUses
  split
  · rfl
  · rename_i hunwanted
    rw [filter_nil, eq_comm, filter_eq_nil_iff]
    intro u hu hwants
    rw [(facts_of_mem_allUses hu).1 o'] at hunwanted
    exact hunwanted (hkinds u.kind (Options.wantsKind_of_wantsUse hwants))

/-! ## Searches -/

/-- The events in a code base. -/
def eventsIn (cb : Codebase) : Except Fault (List AccessEvent) :=
  ((Checker.ofCodebase cb).taskResults false collect).map fun parts => parts.flatMap Prod.snd

/-- All uses in a code base. -/
def usesIn (cb : Codebase) : Except Fault (List Use) :=
  (eventsIn cb).map fun events => events.flatMap (allUses cb.finalize)

/-- A search finds the uses that it looks for. -/
theorem answers_findUses (o : Options) (cb : Codebase) :
    Answers (findUses o (Checker.ofCodebase cb))
      ((eventsIn cb).map fun events => events.flatMap (lookedUses o cb.finalize)) := by
  let k := Checker.ofCodebase cb
  let v (e : AccessEvent) : List (List Use) :=
    if o.wantsEvent e then (usesOf k.codebase e).toList else []
  have hv (events : List AccessEvent) :
      (readOff v events).flatten = events.flatMap (lookedUses o k.codebase) := by
    unfold readOff
    induction events with
    | nil => rfl
    | cons e events ih =>
      rw [flatMap_cons, flatMap_cons, flatten_append, ih]
      congr 1
      unfold v lookedUses allUses
      split
      · cases usesOf k.codebase e <;> simp
      · rfl
  have hrelated := related_taskResults (fun e => answers_pure (v e)) k false
  have hpart (r : Transcript × List (List Use)) : Answers (do
      relay r.1
      if o.debug then r.2.forM fun uses => printLine (displayUses uses)
      return r.2.flatten) (.ok r.2.flatten) := by
    refine (answers_relay r.1).bind_ok (.ite ?_ (answers_pure _))
    exact (answers_forM (fun _ => answers_record _) _).bind_pure
  unfold eventsIn
  change Answers (liftM (k.taskResults false fun e => pure (v e)) >>= fun rs => _) _
  revert hrelated
  show Fault.Related _ (Checker.taskResults _ false collect) _ → _
  generalize Checker.taskResults _ false collect = events
  generalize k.taskResults false (fun e => pure (v e)) = found
  intro hrelated
  cases hrelated with
  | error fault => exact Answers.bind_error (answers_liftM (.error fault))
  | @ok parts parts' hparts =>
    refine (answers_liftM (.ok _)).bind_ok ((answers_mapM_ok hpart parts').bind_ok ?_)
    have hfound : (parts'.map fun r => r.2.flatten).flatten =
        (parts.flatMap Prod.snd).flatMap (lookedUses o k.codebase) := by
      have hmap := congrArg (fun l => (l.map flatten).flatten) hparts
      simp only [map_map] at hmap
      rw [flatMap_assoc, flatMap_def]
      refine hmap.trans (congrArg (fun f => (parts.map f).flatten) ?_)
      funext r
      exact hv r.2
    rw [hfound]
    exact answers_pure _

theorem silent_findUses (hdebug : o.debug = false) (k : Checker) :
    Silent Entry.printed? (findUses o k) := by
  refine Adds.bind_answer (adds_liftM _) (answers_liftM _) fun results hresults => ?_
  refine Adds.bind (adds_mapM_of_mem fun r hr => ?_) fun _ => adds_pure _
  have hlog : ∀ e ∈ r.1, e.printed? = none :=
    view_eq_none_of_mem_taskResults (fun _ => rfl) (fun _ => adds_pure _) hresults r hr
  refine (adds_relay fun e he => e.printed?_relay.trans (hlog e he)).bind fun _ => ?_
  rw [hdebug]
  exact adds_pure _

/-! ## Merged type definitions -/

theorem fitsType_finalize (hcb : cb.OwnNames) {value : String}
    (hvalue : cb.types.contains value = true) (search : String → String → Bool) (filter : String) :
    fitsType search cb.finalize filter value = fitsType search cb filter value := by
  have huntypedef : (value == cb.finalize.untypedef filter) = (value == cb.untypedef filter) := by
    rw [Bool.eq_iff_iff, beq_iff_eq, beq_iff_eq, eq_comm, eq_comm (a := value)]
    exact Codebase.untypedef_finalize_eq_iff_untypedef hcb hvalue
  unfold fitsType
  rw [huntypedef]

theorem fitsLocation_finalize (hcb : cb.OwnNames) {l : Location}
    (hl : ∀ parent, l.parent = some parent → cb.types.contains parent = true) (w : Workspace)
    (filter : String) : fitsLocation w cb.finalize filter l = fitsLocation w cb filter l := by
  unfold fitsLocation locationFits
  cases hparent : l.parent with
  | none => rfl
  | some parent =>
    have hfits := fitsType_finalize hcb (hl parent hparent) Text.matchesPattern
    simp only [hfits]

theorem wantsUse_finalize (hcb : cb.OwnNames) (hu : u ∈ allUses cb.finalize e) (o : Options)
    (w : Workspace) : o.wantsUse w cb.finalize u = o.wantsUse w cb u := by
  cases hmerged : cb.merged with
  | true => rw [Codebase.finalize, hmerged, if_pos rfl]
  | false =>
    obtain ⟨-, hsource, htarget⟩ := facts_of_mem_allUses hu
    have hfitsSource := fitsLocation_finalize hcb (l := u.source)
      (fun parent h => absurd (h.symm.trans hsource) (Option.some_ne_none parent)) w
    have hfitsTarget := fitsLocation_finalize hcb (l := u.target) (fun parent h => by
      obtain ⟨type, record, hrecord, rfl⟩ := htarget parent h
      exact Codebase.contains_name_of_findType?_finalize hcb hmerged hrecord) w
    unfold Options.wantsUse
    simp only [hfitsSource, hfitsTarget]

open Program

/-- What a survey works on, once its options and its configuration are read. -/
structure Plan where
  options : Options
  workspace : Workspace
  config : Config
  files : List String

/-- The results that a survey keeps. -/
inductive Slot where
  | codebase
  | uses
  | stats
  deriving DecidableEq

/-- The options by which statistics are kept, not how they are shown. -/
def Options.counted (o : Options) : Options :=
  { o with
    listModules := false
    selection := { o.selection with listed := none, metrics := none }
    reverse := false
    callsOnly := false
    fieldsOnly := false
    macrosOnly := false
    color := false
    cache := false
    clearCache := false }

theorem Options.texts_counted (o : Options) : o.counted.texts = o.texts := rfl

theorem Options.wantsUse_counted (o : Options) : o.counted.wantsUse = o.wantsUse := rfl

namespace Plan

variable {p : Plan}

/-! ## Programs -/

/-- The survey of a plan, with the results that are kept. -/
def inquire (p : Plan) : Program Nat := do
  let cb ← surveyCodebase p.options p.workspace p.config p.files
  if p.options.selection.metrics.isSome then
    audit (printMetrics p.options p.workspace cb)
    return 0
  if p.options.selection.listed.isSome then
    audit (listContents p.options p.workspace cb)
    return 0
  let stats ← surveyStats p.options p.workspace cb p.files
  audit (Survey.printUses p.options stats)
  exitCode

/-- The survey of a plan. -/
def program (p : Plan) : Program Nat := do
  if p.options.clearCache then modifyDisk fun d => { d with kept := d.kept.clear }
  p.inquire

/-- The name under which a result is kept, in two parts. -/
def keptName (p : Plan) : Slot → String × String
  | .codebase => (s!"globals.{version}." ++ nameOf p.files, "")
  | .uses => (s!"access.{version}." ++ nameOf p.files, "")
  | .stats => (s!"stats.{version}." ++ nameOf p.files, "." ++ nameOf p.options.texts)

/-- The place at which a result is kept. -/
def place? (p : Plan) (slot : Slot) : Option String :=
  Cache.place? p.workspace.root (p.keptName slot).1 (p.keptName slot).2

/-- Does the survey count uses? -/
def countsUses (p : Plan) : Bool :=
  p.options.selection.metrics.isNone && p.options.selection.listed.isNone

theorem countsUses_of_not_isSome (hmetrics : ¬ p.options.selection.metrics.isSome = true)
    (hlisted : ¬ p.options.selection.listed.isSome = true) : p.countsUses = true := by
  rw [countsUses, Bool.and_eq_true, ← Option.not_isSome, ← Option.not_isSome]
  simp [hmetrics, hlisted]

/-! ## New results -/

/-- The code base of a survey. -/
def scanned (tree : FileTree) (p : Plan) : Except Fault Codebase :=
  ((givenBase p.config.macros).scanFiles { workspace := p.workspace } tree true true
    p.files).start.1

/-- The statistics of the uses that are asked for. -/
def stats (tree : FileTree) (p : Plan) : Except Fault (Stats Key × Stats Key) := do
  let cb ← p.scanned tree
  let uses ← usesIn cb
  return statsOf (uses.filter (p.options.wantsUse p.workspace cb.finalize))

theorem ownNames_scanned {tree : FileTree} {cb : Codebase} (h : p.scanned tree = .ok cb) :
    cb.OwnNames := by
  refine Codebase.OwnNames.scanFiles ?_ h
  have hstart : Codebase.empty.OwnNames := fun _ _ h => nomatch h
  exact List.foldlRecOn (motive := Codebase.OwnNames) _ _ hstart fun cb hcb _ _ => hcb.congr rfl

/-! ## Right results -/

/-- Among some uses the same are chosen as among all, and there are no others. -/
def ServedBy (p : Plan) (cb : Codebase) (l : List Use) : Prop :=
  ∃ all, usesIn cb = .ok all ∧ l ⊆ all ∧ l.filter (p.options.wantsUse p.workspace cb.finalize) =
      all.filter (p.options.wantsUse p.workspace cb.finalize)

/-- A result leads to the same report as a new one. -/
def IsRight (tree : FileTree) (p : Plan) : Slot → Artifact → Prop
  | .codebase, .codebase cb => p.scanned tree = .ok cb
  | .uses, .uses l => ∃ cb, p.scanned tree = .ok cb ∧ p.ServedBy cb l
  | .stats, .stats s => p.stats tree = .ok s
  | _, _ => False

/-- Whatever is kept for a survey is right. -/
def KeptRight (tree : FileTree) (p : Plan) (kept : Cache.Store Artifact) : Prop :=
  ∀ slot place, p.place? slot = some place → kept.KeepsAt place (p.IsRight tree slot)

/-! ## Two surveys -/

/-- Both surveys have a result in common: sources, root, and for statistics options. -/
def Shares (p q : Plan) (slot : Slot) : Prop :=
  p.workspace.root = q.workspace.root ∧ p.files = q.files ∧
    (slot = .stats → p.options.counted = q.options.counted)

/-- Two surveys keep at one place only results that they have in common. -/
def KeptApart (p q : Plan) : Prop :=
  ∀ slot slot' place, p.place? slot = some place → q.place? slot' = some place →
    slot = slot' ∧ p.Shares q slot

/-- Both surveys scan the same code base. -/
structure SameBase (p q : Plan) : Prop where
  workspace : p.workspace = q.workspace
  macros : p.config.macros = q.config.macros
  files : p.files = q.files

/-- The first survey looks for every kind of use that the second one asks for. -/
def Covers (p q : Plan) : Prop :=
  ∀ kind, q.options.wantsKind kind = true → p.options.wantsKind kind = true

/-- If the first survey keeps anything about the same sources, it scans the same code base, and
looks for the kinds of uses if it counts. -/
def Serves (p q : Plan) : Prop :=
  p.options.cache = true → p.workspace.root = q.workspace.root → p.files = q.files →
    SameBase p q ∧ (p.countsUses = true → Covers p q)

/-- The world in which a survey runs, while only right results are kept for another. -/
structure Guards (tree : FileTree) (p q : Plan) (w : World) : Prop where
  files : w.disk.tree = tree
  root : w.disk.kept.root = p.workspace.root
  right : q.KeptRight tree w.disk.kept

section

variable {tree : FileTree} {p q : Plan}
variable {w : World} {cb : Codebase}

theorem ofDisk_guards : OfDisk (Guards tree p q) := fun _ _ h => ⟨h.files, h.root, h.right⟩

theorem Guards.put (hapart : p.KeptApart q) (h : Guards tree p q w) (slot : Slot) {x : Artifact}
    (hx : p.Shares q slot → q.IsRight tree slot x) :
    Guards tree p q { w with
      disk.kept := w.disk.kept.put (some x) (p.keptName slot).1 (p.keptName slot).2
        w.disk.kept.present } := by
  refine ⟨h.files, ?_, fun slot' place hplace => ?_⟩
  · rw [← h.root]
    unfold Cache.Store.put Cache.Store.set
    split <;> rfl
  · refine (h.right slot' place hplace).put _ fun hthis => ?_
    rw [h.root] at hthis
    obtain ⟨rfl, hshares⟩ := hapart slot slot' place hthis hplace
    exact hx hshares

theorem Guards.clear (h : Guards tree p q w) :
    Guards tree p q { w with disk := { w.disk with kept := w.disk.kept.clear } } := by
  refine ⟨h.files, ?_, fun slot place hplace => (h.right slot place hplace).clear⟩
  rw [← h.root]
  unfold Cache.Store.clear
  split <;> rfl

theorem Guards.get_right (h : Guards tree p q w) {slot : Slot}
    (hplace : p.place? slot = q.place? slot) (files : List String) :
    (∀ fault, w.disk.kept.get (p.keptName slot).1 files (p.keptName slot).2 ≠ .error fault) ∧
      ∀ x, w.disk.kept.get (p.keptName slot).1 files (p.keptName slot).2 = .ok (some x) →
        q.IsRight tree slot x := by
  have hcases := Cache.Store.get_cases (P := q.IsRight tree slot) (fun place hthis => by
    rw [h.root] at hthis
    exact h.right slot place (hplace ▸ hthis)) files
  rcases hcases with hget | ⟨x, hget, hright⟩
  · rw [hget]
    exact ⟨nofun, nofun⟩
  · rw [hget]
    refine ⟨nofun, fun y hy => ?_⟩
    cases hy
    exact hright

/-! ## Stages -/

theorem SameBase.scanned_eq (h : SameBase p q) : p.scanned tree = q.scanned tree := by
  unfold scanned
  rw [h.workspace, h.macros, h.files]

/-- Surveys of one code base keep each result at the same place; statistics also go by options. -/
theorem SameBase.place?_eq (h : SameBase p q) (slot : Slot)
    (hslot : slot = .stats → p.options.counted = q.options.counted) :
    p.place? slot = q.place? slot := by
  unfold place?
  rw [h.workspace]
  cases slot with
  | stats => rw [keptName, keptName, h.files, ← p.options.texts_counted,
      ← q.options.texts_counted, hslot rfl]
  | _ => rw [keptName, keptName, h.files]

theorem answers_scanned (tree : FileTree) (p : Plan) :
    Answers ((givenBase p.config.macros).scanFiles { workspace := p.workspace } tree true true p.files)
      (p.scanned tree) := by
  have hanswers := Codebase.answers_scanFiles_tasks { workspace := p.workspace } tree p.files
    (givenBase p.config.macros)
  rwa [scanned, hanswers.start_fst]

theorem keeps_scan : Keeps (Guards tree p q) (scan p.workspace true p.config.macros p.files)
    (· = p.scanned tree) := by
  intro w hw
  obtain rfl := hw.files
  exact keeps_audit ofDisk_guards (answers_scanned w.disk.tree p) w hw

/-- A kept result serves if it is right and at the same place; a new one must be right for all
surveys that share it. -/
theorem keeps_slot {α : Type} {C : Prop} {Q : Except Fault α → Prop} {enabled : Bool}
    {read : Artifact → Option α} {wrap : α → Artifact} {compute : Program α} (slot : Slot)
    (hapart : p.KeptApart q) (hplace : C → p.place? slot = q.place? slot)
    (hread : ∀ kept x, C → q.IsRight tree slot kept → read kept = some x → Q (.ok x))
    (hcompute : Keeps (Guards tree p q) compute fun r => C → Q r)
    (hput : enabled = true → ∀ x, p.Shares q slot → (C → Q (.ok x)) →
      q.IsRight tree slot (wrap x)) :
    Keeps (Guards tree p q) (remember enabled (p.keptName slot).1 (p.keptName slot).2 p.files read
      wrap compute) fun r => C → Q r := by
  refine keeps_remember (fun _ w hw => ⟨fun fault hget hC => ?_, fun kept x hget hx hC => ?_⟩)
    hcompute fun hcache w x hw hx => hw.put hapart slot fun hshares => hput hcache x hshares hx
  · exact absurd hget ((hw.get_right (hplace hC) p.files).1 fault)
  · exact hread kept x hC ((hw.get_right (hplace hC) p.files).2 kept hget) hx

theorem keeps_surveyCodebase (hapart : p.KeptApart q) (hserves : p.Serves q) :
    Keeps (Guards tree p q) (surveyCodebase p.options p.workspace p.config p.files)
      (fun r => SameBase p q → r = q.scanned tree) := by
  refine keeps_slot .codebase hapart (fun hbase => hbase.place?_eq _ nofun)
    (fun kept x _ hright hread => ?_) (keeps_scan.mono fun r hr hbase => hr.trans hbase.scanned_eq)
    fun hcache x hshares hx => (hx (hserves hcache hshares.1 hshares.2.1).1).symm
  cases kept with
  | codebase cb =>
    cases hread
    exact hright.symm
  | _ => cases hread

/-- How the search for uses may end: with its fault, or with uses that serve the survey. -/
def SearchEnds (q : Plan) (cb : Codebase) : Except Fault (Codebase × List Use) → Prop
  | .error fault => usesIn cb = .error fault
  | .ok (cb', l) => (cb' = cb ∨ cb' = cb.finalize) ∧ q.ServedBy cb l

theorem keeps_findUses (cb : Codebase) : Keeps (Guards tree p q) (do
      let k := Checker.ofCodebase cb
      return (k.codebase, ← audit (findUses p.options k)))
      (fun r => Covers p q → q.SearchEnds cb r) := by
  refine (keeps_audit ofDisk_guards (answers_findUses p.options cb)).bind
    (fun l hl => keeps_pure fun hcovers => ?_) fun fault hfault _ => ?_
  · obtain ⟨events, hevents, rfl⟩ := Fault.exists_of_map_eq_ok hl.symm
    refine ⟨.inr rfl, events.flatMap (allUses cb.finalize), ?_,
      flatMap_lookedUses_subset _ _ _, filter_lookedUses hcovers _ _ _ _⟩
    rw [usesIn, hevents]
    rfl
  · show usesIn cb = .error fault
    unfold usesIn
    cases hevents : eventsIn cb with
    | ok events =>
      rw [hevents] at hfault
      cases hfault
    | error fault' =>
      rw [hevents] at hfault
      cases hfault
      rfl

theorem keeps_surveyUses (hapart : p.KeptApart q) (hserves : p.Serves q)
    (hcounts : p.countsUses = true) (hcb : SameBase p q → q.scanned tree = .ok cb) :
    Keeps (Guards tree p q) (surveyUses p.options cb p.files)
      (fun r => SameBase p q ∧ Covers p q → q.SearchEnds cb r) := by
  refine keeps_slot .uses hapart (fun hsame => hsame.1.place?_eq _ nofun)
    (fun kept x hsame hright hread => ?_) ((keeps_findUses cb).mono fun r hr hsame => hr hsame.2)
    fun hcache x hshares hx => ?_
  · cases kept with
    | uses l =>
      cases hread
      obtain ⟨cb', hcb', hserved⟩ := hright
      cases (hcb hsame.1).symm.trans hcb'
      exact ⟨.inl rfl, hserved⟩
    | _ => cases hread
  · obtain ⟨hbase, hcovers⟩ := hserves hcache hshares.1 hshares.2.1
    exact ⟨cb, hcb hbase, (hx ⟨hbase, hcovers hcounts⟩).2⟩

/-- The statistics of uses that serve are those of all uses, merged or not. -/
theorem ServedBy.stats_eq {cb' : Codebase} {l : List Use} (h : q.ServedBy cb l)
    (hcb : q.scanned tree = .ok cb) (hmerged : cb' = cb ∨ cb' = cb.finalize) :
    q.stats tree = .ok (statsOf (l.filter (q.options.wantsUse q.workspace cb'))) := by
  obtain ⟨all, hall, hsubset, hfilter⟩ := h
  have hchosen : l.filter (q.options.wantsUse q.workspace cb') =
      l.filter (q.options.wantsUse q.workspace cb.finalize) := by
    rcases hmerged with rfl | rfl
    · refine List.filter_congr fun u hu => ?_
      obtain ⟨events, -, rfl⟩ := Fault.exists_of_map_eq_ok hall
      obtain ⟨e, -, he⟩ := List.mem_flatMap.mp (hsubset hu)
      exact (wantsUse_finalize (ownNames_scanned hcb) he _ _).symm
    · rfl
  rw [hchosen, hfilter, stats, hcb]
  show (usesIn cb >>= fun uses => _) = _
  rw [hall]
  rfl

theorem keeps_surveyStats (hapart : p.KeptApart q) (hserves : p.Serves q)
    (hcounts : p.countsUses = true) (hcb : SameBase p q → q.scanned tree = .ok cb) :
    Keeps (Guards tree p q) (surveyStats p.options p.workspace cb p.files)
      (fun r => (SameBase p q ∧ Covers p q) ∧ p.options.counted = q.options.counted →
        r = q.stats tree) := by
  refine keeps_slot .stats hapart (fun hsame => hsame.1.1.place?_eq _ fun _ => hsame.2)
    (fun kept x _ hright hread => ?_) ((keeps_surveyUses hapart hserves hcounts hcb).bind
      (fun x hx => keeps_pure ?_) fun fault hfault hsame => ?_) fun hcache x hshares hx => ?_
  · cases kept with
    | stats s =>
      cases hread
      exact hright.symm
    | _ => cases hread
  · rintro ⟨hsame, ho⟩
    obtain ⟨hmerged, hserved⟩ := hx hsame
    rw [hserved.stats_eq (hcb hsame.1) hmerged, hsame.1.workspace, ← p.options.wantsUse_counted, ho,
      q.options.wantsUse_counted]
  · have hsearch : usesIn cb = .error fault := hfault hsame.1
    rw [stats, hcb hsame.1.1]
    show _ = usesIn cb >>= _
    rw [hsearch]
    rfl
  · obtain ⟨hbase, hcovers⟩ := hserves hcache hshares.1 hshares.2.1
    exact (hx ⟨⟨hbase, hcovers hcounts⟩, hshares.2.2 rfl⟩).symm

theorem keeps_program (hapart : p.KeptApart q) (hserves : p.Serves q) :
    Keeps (Guards tree p q) p.program (fun _ => True) := by
  have hprint (a : Audit Unit) : Keeps (Guards tree p q) (do audit a; return 0) fun _ => True :=
    (keeps_audit_any ofDisk_guards a).bind (fun _ _ => keeps_pure trivial) fun _ _ => trivial
  have hinquire : Keeps (Guards tree p q) p.inquire fun _ => True := by
    refine (keeps_surveyCodebase hapart hserves).bind (fun cb hcb => ?_) fun _ _ => trivial
    split
    · exact hprint _
    · rename_i hmetrics
      split
      · exact hprint _
      · rename_i hlisted
        have hcounts := countsUses_of_not_isSome hmetrics hlisted
        refine (keeps_surveyStats hapart hserves hcounts fun h => (hcb h).symm).bind
          (fun stats _ => ?_) fun _ _ => trivial
        exact (keeps_audit_any ofDisk_guards _).bind
          (fun _ _ w hw => ⟨trivial, hw⟩) fun _ _ => trivial
  unfold program
  split
  · exact Keeps.bind (Q := fun _ => True) (keeps_modifyDisk (fun w hw => hw.clear) trivial)
      (fun _ _ => hinquire) fun _ _ => trivial
  · exact hinquire

/-! ## Reports -/

theorem quiet_surveyCodebase (p : Plan) :
    Quiet (surveyCodebase p.options p.workspace p.config p.files) := by
  refine quiet_remember fun w => ?_
  have hsilent : Silent Entry.printed?
      ((givenBase p.config.macros).scanFiles { workspace := p.workspace } w.disk.tree true true
        p.files) :=
    Codebase.adds_scanFiles (fun _ => rfl) (fun e he => e.printed?_relay.trans he) _ _ _ _
  exact quiet_audit hsilent w

theorem quiet_surveyStats (hdebug : p.options.debug = false) (cb : Codebase) :
    Quiet (surveyStats p.options p.workspace cb p.files) := by
  refine quiet_remember (Quiet.bind (quiet_remember ?_) fun _ => quiet_pure _)
  exact (quiet_audit (silent_findUses hdebug _)).bind fun _ => quiet_pure _

variable (o : Options) (w : Workspace) (cb : Codebase)

theorem steady_printMetrics : Steady (printMetrics o w cb) := by
  have hupdate (name : String) (f : Metrics → Metrics) (l : List Metrics) :
      Steady (Metrics.update name f l) := .ite (adds_pure _) (adds_throw _)
  have hnames (name : String) : Steady (moduleNames w name) := by
    refine .ite (adds_pure _) ?_
    split
    · exact adds_pure _
    · exact adds_throw _
  have hfield (l : List Metrics) (d : Definition) : Steady (countField o l d) :=
    .ite (adds_pure _) ((hupdate _ _ _).bind fun _ =>
      .ite ((adds_record trivial).bind_pure) (adds_pure _))
  have hname (marks : List String) (ignoreCase : Bool) (l : List Metrics) (d : Definition) :
      Steady (countName o w marks ignoreCase l d) :=
    (hnames _).bind fun _ => .ite (adds_pure _) ((hupdate _ _ _).bind fun _ =>
      .ite ((adds_record trivial).bind_pure) (adds_pure _))
  exact (adds_foldlM hfield _ _).bind fun _ => (adds_foldlM (hname _ _) _ _).bind fun _ =>
    (adds_foldlM (hname _ _) _ _).bind fun _ => (adds_foldlM (hname _ _) _ _).bind fun _ =>
      adds_forM (fun _ => adds_record trivial) _

theorem steady_printUses (stats : Stats Key × Stats Key) :
    Steady (Survey.printUses o stats) := by
  exact adds_forM (fun _ => (adds_record trivial).bind fun _ => adds_record trivial) _

theorem sameReport_program (hapart : q.KeptApart q) (hdebug : q.options.debug = false) :
    SameReport (Guards tree q q) q.program := by
  have hbase : SameBase q q := ⟨rfl, rfl, rfl⟩
  have hcovers : Covers q q := fun _ h => h
  have hserves : q.Serves q := fun _ _ _ => ⟨hbase, fun _ => hcovers⟩
  have hprint {a : Audit Unit} (ha : Steady a) :
      SameReport (Guards tree q q) (do audit a; return 0) :=
    sameReport_audit_bind ha (fun _ => quiet_pure 0) fun _ _ => rfl
  have hinquire : SameReport (Guards tree q q) q.inquire := by
    refine SameReport.bind ((keeps_surveyCodebase hapart hserves).mono fun r hr => hr hbase)
      q.quiet_surveyCodebase fun cb hcb => ?_
    split
    · exact hprint (steady_printMetrics _ _ _)
    · rename_i hmetrics
      split
      · exact hprint (adds_forM (fun _ => adds_record trivial) _)
      · rename_i hlisted
        have hcounts := countsUses_of_not_isSome hmetrics hlisted
        refine SameReport.bind ((keeps_surveyStats hapart hserves hcounts fun _ => hcb).mono
          fun r hr => hr ⟨⟨hbase, hcovers⟩, rfl⟩) (quiet_surveyStats hdebug cb) fun stats _ => ?_
        exact sameReport_audit_bind (steady_printUses _ _) (fun _ _ => rfl) fun _ _ => rfl
  unfold program
  split
  · exact SameReport.bind (r := .ok ()) (keeps_modifyDisk (fun w hw => hw.clear) rfl)
      (quiet_modifyDisk _) fun _ _ => hinquire
  · exact hinquire

end

end Plan

end CBoundary.Survey
