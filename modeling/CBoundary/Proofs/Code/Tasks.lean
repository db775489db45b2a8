import CBoundary.Proofs.Code.Entering
import CBoundary.Proofs.Code.Merging

/-!
# Scanning in sequence and as tasks

The second pass over some files can enter what they define in sequence, or as tasks of their own
whose results are merged.  The two leave the same unless something is private, a block of a file
defines a macro, or two files define a record of the same name.
-/

namespace CBoundary

open Definition List

/-! ## The functions of a file -/

/-- A function has a body in the file. -/
def Finding.LiesIn (name : String) : Finding → Prop
  | .function c f => c.file.name = name ∧ f.scope.file.name = name ∧ f.body.isSome = true
  | _ => True

theorem FunctionDecl.scope_of_ofTokens {scope : Scope} {ts : List Token} {f : FunctionDecl}
    (h : ofTokens scope ts = some f) : f.scope = scope := by
  unfold ofTokens at h
  dsimp only at h
  split at h
  · cases h
  · obtain ⟨sh, -, rfl⟩ := Option.map_eq_some_iff.mp h
    rfl

namespace Codebase

variable {c : Context} {findings : List Finding} {x : Finding} {name : String}

theorem liesIn_statementFindings {directives : Bool} {st : Statement} {k : StatementKind}
    (h : statementFindings c directives st k = .ok findings) :
    ∀ x ∈ findings, x.LiesIn c.file.name := by
  intro x hx
  rcases cases_of_mem_statementFindings h hx with
    ⟨f, -, hf, hbody, rfl⟩ | ⟨r, r', -, -, rfl⟩ | ⟨m, -, rfl⟩
  · exact ⟨rfl, by rw [FunctionDecl.scope_of_ofTokens hf]; rfl, hbody⟩
  · exact trivial
  · exact trivial

theorem liesIn_expandedFindings {tree : FileTree} {macros : Table MacroDecl} {path : String}
    (h : expandedFindings c tree macros path = .ok findings) : ∀ x ∈ findings, x.LiesIn path := by
  obtain ⟨opened, hopened, h⟩ := Fault.exists_of_bind_eq_ok h
  have hname : opened.1.name = path := by
    unfold openFile at hopened
    split at hopened
    · cases hopened
    · cases hopened
      rfl
  refine forall_mem_textFindings (R := fun c _ => c.file.name = path)
    (fun c s st body hc _ _ => hc) (fun _ _ => trivial)
    (fun c s st directives k found hc _ _ hfound => ?_) ?_ h
  · rw [← hc]
    exact liesIn_statementFindings hfound
  · exact hname

/-! ## Batches -/

/-- What each of some files defines. -/
def batch (c : Context) (tree : FileTree) (macros : Table MacroDecl) (paths : List String) :
    Except Fault (List (String × List Finding)) :=
  paths.mapM fun path => (expandedFindings c tree macros path).map (Prod.mk path)

section Batch

variable {c : Context} {tree : FileTree} {macros : Table MacroDecl} {paths : List String}
  {tasks : List (String × List Finding)}

theorem exists_of_batch_cons {path : String}
    (h : batch c tree macros (path :: paths) = .ok tasks) :
    ∃ findings rest, tasks = (path, findings) :: rest ∧
      expandedFindings c tree macros path = .ok findings ∧
      batch c tree macros paths = .ok rest := by
  rw [batch, mapM_cons] at h
  obtain ⟨task, htask, h⟩ := Fault.exists_of_bind_eq_ok h
  obtain ⟨rest, hrest, h⟩ := Fault.exists_of_bind_eq_ok h
  obtain ⟨findings, hfindings, rfl⟩ := Fault.exists_of_map_eq_ok htask
  cases h
  exact ⟨findings, rest, rfl, hfindings, hrest⟩

theorem batch_spec (h : batch c tree macros paths = .ok tasks) : tasks.map Prod.fst = paths ∧
      ∀ t ∈ tasks, expandedFindings c tree macros t.1 = .ok t.2 := by
  induction paths generalizing tasks with
  | nil =>
    cases h
    exact ⟨rfl, fun t ht => absurd ht not_mem_nil⟩
  | cons path paths ih =>
    obtain ⟨findings, rest, rfl, hfindings, hrest⟩ := exists_of_batch_cons h
    obtain ⟨hpaths, hall⟩ := ih hrest
    refine ⟨by rw [map_cons, hpaths], fun t ht => ?_⟩
    rcases mem_cons.mp ht with rfl | ht
    · exact hfindings
    · exact hall t ht

end Batch

/-- The findings of files entered in sequence. -/
def inSequence (cb : Codebase) (tasks : List (String × List Finding)) : Codebase :=
  tasks.foldl (fun cb t => cb.examineMacros.enterAll t.2) cb

/-- The findings of files entered as tasks, which begin with the same code base, and merged. -/
def asTasks (start : Codebase) (cb : Codebase) (tasks : List (String × List Finding)) :
    Codebase :=
  tasks.foldl (fun cb t => mergedTask (start.examineMacros.enterAll t.2) cb) cb

/-! ## Names -/

theorem globals_of_liesIn (hx : x.LiesIn name) :
    ∀ d ∈ x.globals, d.hasBody = true ∧ d.scope.file.name = name := by
  intro d hd
  cases x with
  | function c f =>
    change d ∈ (if isLocal c f = true then [] else [functionDefinition c f]) at hd
    split at hd
    · cases hd
    · rw [mem_singleton.mp hd]
      exact ⟨hx.2.2, hx.2.1⟩
  | typedef _ _ => cases hd
  | record _ _ => cases hd
  | macroDef _ _ => cases hd

theorem statics_of_liesIn (hx : x.LiesIn name) :
    ∀ p ∈ x.statics, p.2.hasBody = true ∧ p.1 = name := by
  intro p hp
  cases x with
  | function c f =>
    change p ∈ (if isLocal c f = true then [(c.file.name, functionDefinition c f)] else []) at hp
    split at hp
    · rw [mem_singleton.mp hp]
      exact ⟨hx.2.2, hx.1⟩
    · cases hp
  | typedef _ _ => cases hp
  | record _ _ => cases hp
  | macroDef _ _ => cases hp

section Runs

variable {start cb cb' : Codebase} {tasks : List (String × List Finding)}
variable {K : String → Prop}

theorem names_inSequence (cb : Codebase) (tasks : List (String × List Finding)) :
    (inSequence cb tasks).names =
      (tasks.map fun t => t.2.flatMap Finding.globals).foldl enteredAll cb.names := by
  induction tasks generalizing cb with
  | nil => rfl
  | cons t tasks ih =>
    show (inSequence (cb.examineMacros.enterAll t.2) tasks).names = _
    rw [ih, part_enterAll names_enter]
    rfl

theorem names_asTasks (hstart : start.names = {}) (cb : Codebase)
    (tasks : List (String × List Finding)) :
    (asTasks start cb tasks).names = (tasks.map fun t => t.2.flatMap Finding.globals).foldl
        (fun t g => enteredAll t (enteredAll {} g).values) cb.names := by
  induction tasks generalizing cb with
  | nil => rfl
  | cons t tasks ih =>
    have hsrc : (start.examineMacros.enterAll t.2).names =
        enteredAll {} (t.2.flatMap Finding.globals) := by
      rw [part_enterAll names_enter]
      exact congrArg (fun names => enteredAll names _) hstart
    show (asTasks start (mergedTask _ cb) tasks).names = _
    rw [ih, (mergedTask_aside _ cb).1, hsrc]
    rfl

/-- Both runs come to the same claims. -/
theorem claimAt_names (hlies : ∀ t ∈ tasks, ∀ x ∈ t.2, x.LiesIn t.1)
    (hpublic : ∀ t ∈ tasks, ∀ d ∈ t.2.flatMap Finding.globals, d.hidden = false)
    (hstart : start.names = {}) (hnames : cb.names = cb'.names) (key : String) :
    claimAt (inSequence cb tasks).names key = claimAt (asTasks start cb' tasks).names key := by
  have hglobal : ∀ t ∈ tasks, ∀ d ∈ t.2.flatMap Finding.globals,
      d.hasBody = true ∧ d.scope.file.name = t.1 := by
    intro t ht d hd
    obtain ⟨x, hx, hd⟩ := mem_flatMap.mp hd
    exact globals_of_liesIn (hlies t ht x hx) d hd
  rw [names_inSequence, names_asTasks hstart]
  refine claimAt_groups (fun g hg d hd => ?_) (fun g hg => ?_) (fun key => by rw [hnames]) key
  · obtain ⟨t, ht, rfl⟩ := mem_map.mp hg
    exact (hglobal t ht d hd).1
  · obtain ⟨t, ht, rfl⟩ := mem_map.mp hg
    -- one file, bodies throughout and nothing private: one priority
    refine ⟨100 + FileKind.priority t.1, fun d hd => ?_⟩
    obtain ⟨hbody, hfile⟩ := hglobal t ht d hd
    rw [priority_eq, hbody, hpublic t ht d hd, hfile]
    rfl

/-! ## Static names -/

theorem find?_foldl_enteredStatic (name : String) (ds : List Definition)
    (t : Table (Table Definition)) (file : String) :
    ((ds.map (Prod.mk name)).foldl enteredStatic t).find? file =
      if file = name ∧ ds ≠ [] then some (enteredAll ((t.find? name).getD {}) ds)
      else t.find? file := by
  induction ds generalizing t with
  | nil => rw [if_neg fun h => h.2 rfl]; rfl
  | cons d ds ih =>
    show ((ds.map (Prod.mk name)).foldl enteredStatic (enteredStatic t (name, d))).find? file = _
    rw [ih]
    rw [enteredStatic, Table.find?_insert_self, Table.find?_insert]
    by_cases hfile : file = name
    · by_cases hds : ds = []
      · subst hds
        rw [if_neg fun h => h.2 rfl, if_pos hfile, if_pos ⟨hfile, cons_ne_nil d []⟩]
        rfl
      · rw [if_pos ⟨hfile, hds⟩, if_pos ⟨hfile, cons_ne_nil d ds⟩]
        rfl
    · rw [if_neg fun h => hfile h.1, if_neg hfile, if_neg fun h => hfile h.1]

theorem distinct_foldl_enteredStatic (ps : List (String × Definition)) :
    (ps.foldl enteredStatic {}).Distinct :=
  foldlRecOn (motive := Table.Distinct) ps enteredStatic Table.distinct_empty
    fun _ ht _ _ => ht.insert _ _

/-- The static functions of a file. -/
def staticsOf (findings : List Finding) : List Definition :=
  (findings.flatMap Finding.statics).map Prod.snd

theorem staticNames_enterAll_of_liesIn {name : String} {findings : List Finding}
    (hlies : ∀ x ∈ findings, x.LiesIn name) (cb : Codebase) :
    (cb.enterAll findings).staticNames =
      ((staticsOf findings).map (Prod.mk name)).foldl enteredStatic cb.staticNames := by
  have hfile : (staticsOf findings).map (Prod.mk name) = findings.flatMap Finding.statics := by
    rw [staticsOf, map_map]
    refine (map_congr_left fun p hp => ?_).trans (map_id _)
    obtain ⟨x, hx, hp⟩ := mem_flatMap.mp hp
    rw [← (statics_of_liesIn (hlies x hx) p hp).2]
    rfl
  rw [part_enterAll staticNames_enter, hfile]

/-- Two tables both claim what functions claim. -/
def BothClaim (g : List Definition) (o o' : Option (Table Definition)) : Prop :=
  o = none ∧ o' = none ∨ ∃ t t', o = some t ∧ o' = some t' ∧
    (∀ key, claimAt t key = claimAt (enteredAll {} g) key) ∧
    ∀ key, claimAt t' key = claimAt (enteredAll {} g) key

theorem bothClaim_staticNames {file : String} {g : List Definition}
    (hlies : ∀ t ∈ tasks, ∀ x ∈ t.2, x.LiesIn t.1)
    (hg : ∀ t ∈ tasks, t.1 = file → staticsOf t.2 = g) (hbody : ∀ d ∈ g, d.hasBody = true)
    (hstart : start.staticNames = {})
    (h : BothClaim g (cb.staticNames.find? file) (cb'.staticNames.find? file)) :
    BothClaim g ((inSequence cb tasks).staticNames.find? file)
      ((asTasks start cb' tasks).staticNames.find? file) := by
  induction tasks generalizing cb cb' with
  | nil => exact h
  | cons t tasks ih =>
    refine ih (fun u hu => hlies u (mem_cons_of_mem t hu))
      (fun u hu => hg u (mem_cons_of_mem t hu)) ?_
    have hlies' := hlies t mem_cons_self
    have hsequence := staticNames_enterAll_of_liesIn hlies' cb.examineMacros
    have htask := staticNames_enterAll_of_liesIn hlies' start.examineMacros
    have hstart' : start.examineMacros.staticNames = {} := hstart
    rw [hstart'] at htask
    have hdistinct := distinct_foldl_enteredStatic ((staticsOf t.2).map (Prod.mk t.1))
    rw [(mergedTask_aside _ cb').2.1, hsequence, htask, enteredNested,
      hdistinct.find?_foldl_update fun o inner => enteredAll (o.getD {}) inner.values,
      find?_foldl_enteredStatic, find?_foldl_enteredStatic]
    by_cases hmine : file = t.1 ∧ staticsOf t.2 ≠ []
    · obtain ⟨rfl, hsome⟩ := hmine
      rw [if_pos ⟨rfl, hsome⟩, if_pos ⟨rfl, hsome⟩, hg t mem_cons_self rfl]
      rcases h with ⟨hnone, hnone'⟩ | ⟨u, u', hu, hu', hclaim, hclaim'⟩
      · rw [show cb.examineMacros.staticNames.find? t.1 = none from hnone, hnone']
        exact .inr ⟨_, _, rfl, rfl, fun key => rfl, claimAt_enteredAll_left hbody⟩
      · rw [show cb.examineMacros.staticNames.find? t.1 = some u from hu, hu']
        exact .inr ⟨_, _, rfl, rfl, fun key => (claimAt_again hbody hclaim key).1,
          fun key => (claimAt_again hbody hclaim' key).2⟩
    · rwa [if_neg hmine, if_neg hmine]

/-! ## Records -/

/-- The same is known about records. -/
structure SameRecords (a b : Codebase) : Prop where
  entries : a.entries = b.entries
  types : ∀ key, a.types.find? key = b.types.find? key
  fields : ∀ record, a.fields.find? record = b.fields.find? record
  typedefs : ∀ name, a.typedefs.find? name = b.typedefs.find? name

theorem SameRecords.beside {a b a' b' src : Codebase} (h : SameRecords a b) (ha : Beside a src a')
    (hb : Beside b src b') : SameRecords a' b' := by
  refine ⟨?_, fun key => ?_, fun record => ?_, fun name => ?_⟩
  · rw [ha.entries, hb.entries, h.entries]
  · rw [ha.types, hb.types, h.types, h.entries]
  · rw [ha.fields, hb.fields, h.fields, h.entries]
  · rw [ha.typedefs, hb.typedefs, h.typedefs]

/-- The names of the records of findings. -/
def recordNames (findings : List Finding) : List String := findings.flatMap Finding.recordNames

/-- A code base that holds no record yet. -/
def Recordless (cb : Codebase) : Prop := cb.recordPart = (0, {}, {}, {})

theorem Recordless.kept (h : cb.Recordless) : cb.Kept K := by
  have hempty : Kept K {} :=
    ⟨⟨forall_mem_nil _, forall_mem_nil _⟩,
      ⟨Table.distinct_empty, Table.distinct_empty, fun _ _ ht => (nomatch ht),
        Table.distinct_empty⟩⟩
  exact hempty.congr h

theorem Recordless.beside (h : start.Recordless) (cb : Codebase) : Beside cb start cb := by
  have hempty : Beside cb {} cb := ⟨rfl, fun _ => rfl, fun _ => rfl, fun _ => rfl⟩
  exact hempty.congr h rfl

/-- Files with records of their own come to the same records. -/
theorem sameRecords_runs (hstart : start.Recordless) (hkept : cb.Kept K)
    (hsame : SameRecords cb cb') (hnew : ∀ t ∈ tasks, ∀ name ∈ recordNames t.2, ¬ K name)
    (hseparate : tasks.Pairwise fun t u => ∀ name ∈ recordNames t.2, name ∉ recordNames u.2) :
    SameRecords (inSequence cb tasks) (asTasks start cb' tasks) := by
  induction tasks generalizing cb cb' K with
  | nil => exact hsame
  | cons t tasks ih =>
    obtain ⟨hfirst, hrest⟩ := pairwise_cons.mp hseparate
    have hwithin : ∀ x ∈ t.2, x.Within (· ∈ recordNames t.2) := fun x hx =>
      Finding.within_of_recordNames fun name hname => mem_flatMap.mpr ⟨x, hx, hname⟩
    have hnone : start.examineMacros.Recordless := hstart
    have hsrc : (start.examineMacros.enterAll t.2).Kept (· ∈ recordNames t.2) :=
      hnone.kept.enterAll hwithin
    -- the records of the file come to stand beside those that are there, in both runs
    have hapart : cb.Apart (· ∈ recordNames t.2) := hkept.1.apart (hnew t mem_cons_self)
    have hbegin : Beside cb start.examineMacros cb.examineMacros := (hnone.beside cb).congr rfl rfl
    have hsequence := hbegin.enterAll hkept.1 hapart hnone.kept hwithin
    have hapart' : cb'.Apart (· ∈ recordNames t.2) := by
      intro key hkey
      rw [← hsame.types, ← hsame.fields]
      exact hapart key hkey
    have htask := beside_mergedTask hsrc.1 hsrc.2 hapart'
    have hmore : cb.examineMacros.Kept fun name => K name ∨ name ∈ recordNames t.2 :=
      (hkept.mono fun _ hname => .inl hname).congr rfl
    refine ih (hmore.enterAll fun x hx => (hwithin x hx).imp fun _ hname => .inr hname)
      (hsame.beside hsequence htask) (fun u hu name hname => ?_) hrest
    rintro (hname' | hname')
    · exact hnew u (mem_cons_of_mem t hu) name hname hname'
    · exact hfirst u hu name hname' hname

/-! ## What tasks do not hand on -/

theorem asTasks_aside (start cb : Codebase) (tasks : List (String × List Finding)) :
    (asTasks start cb tasks).restrictedTypes = cb.restrictedTypes ∧
      (asTasks start cb tasks).restrictedNames = cb.restrictedNames ∧
      (asTasks start cb tasks).macros = cb.macros := by
  induction tasks generalizing cb with
  | nil => exact ⟨rfl, rfl, rfl⟩
  | cons t tasks ih =>
    obtain ⟨htypes, hnames, hmacros⟩ := ih (mergedTask (start.examineMacros.enterAll t.2) cb)
    obtain ⟨-, -, htypes', hnames', hmacros'⟩ :=
      mergedTask_aside (start.examineMacros.enterAll t.2) cb
    exact ⟨htypes.trans htypes', hnames.trans hnames', hmacros.trans hmacros'⟩

theorem not_hidden_of_inSequence (h : (inSequence cb tasks).restrictedNames = []) :
    ∀ t ∈ tasks, ∀ d ∈ t.2.flatMap Finding.globals, d.hidden = false := by
  have hrun : ∀ (tasks : List (String × List Finding)) (cb : Codebase),
      (inSequence cb tasks).restrictedNames = [] → cb.restrictedNames = [] ∧
        ∀ t ∈ tasks, ∀ d ∈ t.2.flatMap Finding.globals, d.hidden = false := by
    intro tasks
    induction tasks with
    | nil => exact fun cb h => ⟨h, fun t ht => absurd ht not_mem_nil⟩
    | cons t tasks ih =>
      intro cb h
      obtain ⟨hnext, hrest⟩ := ih _ h
      obtain ⟨hstart, hfirst⟩ := restrictedNames_enterAll_eq_nil hnext
      refine ⟨hstart, fun u hu => ?_⟩
      rcases mem_cons.mp hu with rfl | hu
      · exact hfirst
      · exact hrest u hu
  exact (hrun tasks cb h).2

end Runs

end Codebase

end CBoundary
