import CBoundary.Access.Check
import CBoundary.Proofs.Audit

/-!
# The events of a code base

Of the diagnostics about a function, only those about global names are made while its names are
looked at.  What a visitor makes of each event has no influence on which events come up: if its
answers can be read off the events, so can what it makes of a function.
-/

namespace CBoundary

open List Audit

/-! ## What is left in the transcript -/

/-- A diagnostic of another category. -/
def Entry.Beside (category : Category) : Entry → Prop
  | .logged d => d.category ≠ some category
  | _ => False

namespace Audit

variable {category : Category}

theorem adds_report_beside {category' : Category} (hne : category' ≠ category) (place : Place)
    (message : Message) : Adds (Entry.Beside category) (report category' place message) :=
  adds_note (P := Entry.Beside category) fun heq => hne (Option.some.inj heq)

theorem Overlooks.silent {α γ : Type} {view : Entry → Option γ} (h : Overlooks view category)
    {a : Audit α} (ha : Adds (Entry.Beside category) a) : Silent view a := by
  refine ha.mono fun e he => ?_
  cases e with
  | logged d => exact h d he
  | _ => exact he.elim

end Audit

/-- No part of the look at a function but that at its names is about global names. -/
abbrev Entry.NotGlobal : Entry → Prop := Entry.Beside .accessGlobal

namespace Access.Subject

variable (x : Subject) (offset : Int)

theorem adds_followMembers (stop : Int) (expression : List Token) (type : String)
    (rest : List Token) : Adds Entry.NotGlobal (x.followMembers stop expression type rest) := by
  fun_induction followMembers x stop expression type rest with
  | case3 => exact (adds_report_beside (by decide) _ _).bind_pure
  | case5 _ _ _ _ _ _ _ _ ih => exact ih
  | _ => exact adds_pure _

/-- No deduction of a type is about global names. -/
theorem adds_typeOfTokens (tokens : List Token) :
    Adds Entry.NotGlobal (x.typeOfTokens offset tokens) := by
  fun_induction typeOfTokens x offset tokens with
  | case2 => exact adds_throw _
  | case3 _ _ _ _ third _ _ _ hsecond hthird =>
    refine Adds.bind ?_ fun type => .ite ?_ (adds_pure _)
    · show Adds _ (dite _ _ _)
      split
      · exact hsecond ‹_›
      · exact adds_pure _
    · cases third with
      | nil => exact adds_throw _
      | cons t =>
        show Adds _ (dite _ _ _)
        split
        · exact hthird t ‹_›
        · exact adds_pure _
  | case5 _ _ _ _ _ _ _ _ _ _ _ ih => exact ih.bind fun _ => adds_followMembers ..
  | case7 => exact adds_followMembers ..
  | case8 => exact (adds_report_beside (by decide) _ _).bind_pure
  | _ => exact adds_pure _

theorem adds_typeOfText (s : List Char) : Adds Entry.NotGlobal (x.typeOfText offset s) :=
  (adds_typeOfTokens x offset _).bind_pure

end Access.Subject

namespace Checker

open Access

variable {α γ : Type} {view : Entry → Option γ}

section

variable (cb : Codebase) (x : Subject) (offset : Int) (d : Definition) (e : Expansions)
  (type : String)

theorem adds_reportMacro (caller : Option Definition) (callee : Definition) :
    Adds Entry.NotGlobal (reportMacro cb d e caller callee) := by
  unfold reportMacro
  split
  · exact adds_report_beside (by decide) _ _
  · exact (adds_report_beside (by decide) _ _).bind fun _ =>
      (adds_report_beside (by decide) _ _).bind fun _ => adds_report_beside (by decide) _ _

theorem adds_checkExpansions : Adds Entry.NotGlobal (checkExpansions cb d e) := by
  refine adds_forM (fun callerName => ?_) _
  refine adds_forM (fun calleeName => ?_) _
  split
  · exact adds_pure _
  · exact .ite (adds_reportMacro _ _ _ _ _) (adds_pure _)

theorem adds_checkMember (shown : String) : Adds Entry.NotGlobal (checkMember x offset d shown) :=
  .ite (adds_report_beside (by decide) _ _) (adds_pure _)

theorem adds_checkType : Adds Entry.NotGlobal (checkType x offset type) := by
  refine .ite ?_ (adds_pure _)
  split
  · exact adds_checkMember _ _ _ _
  · exact adds_pure _

theorem adds_checkField (field : String) :
    Adds Entry.NotGlobal (checkField x offset type field) := by
  unfold checkField
  split
  · exact adds_checkMember _ _ _ _
  · exact adds_pure _

theorem adds_localTypes (f : FunctionDecl) (cleaned : List Char) :
    Adds Entry.NotGlobal (localTypes x f cleaned) := by
  have hadd (t : Table (List Token)) (v : Variable) :
      Adds Entry.NotGlobal (if v.hasType then return t.insert v.name.value (v.type.getD [])
        else do
          report .parseLocalvar (x.place v.name.span.start) (.untypedLocal v.name.value)
          return t) :=
    .ite (adds_pure _) ((adds_report_beside (by decide) _ _).bind_pure)
  exact (adds_foldlM hadd _ _).bind fun _ =>
    (adds_liftM _).bind fun _ => adds_foldlM hadd _ _

theorem answers_checkName (onlyErrors : Bool) (pos : Nat) (name : String) :
    Answers (checkName x onlyErrors pos name) (.ok ()) := by
  refine .ite (answers_report _ _ _) ((answers_trace _ _ _).bind_ok ?_)
  exact .ite (answers_report _ _ _) (answers_pure _)

end

/-! ## Views without global names -/

/-- What the visitor does at uses of other things than names leaves nothing that matters. -/
structure Discreet (view : Entry → Option γ) (visit : Visitor α) (d : Definition) : Prop where
  expansion : ∀ e, Silent view (visit ⟨d, .expansion e⟩)
  chain : ∀ chain, Silent view (visit ⟨d, .chain chain⟩)
  field : ∀ chain type field span, Silent view (visit ⟨d, .field chain type field span⟩)

theorem Discreet.of_silent {visit : Visitor α} (h : ∀ e, Silent view (visit e)) (d : Definition) :
    Discreet view visit d :=
  ⟨fun _ => h _, fun _ => h _, fun _ _ _ _ => h _⟩

section

variable (hview : Overlooks view .accessGlobal)
variable {visit : Visitor α} {x : Subject}

include hview

theorem silent_checkMembers (hvisit : Discreet view visit x.definition) (chain : AccessChain)
    (type : String) (members : List (String × Span)) :
    Silent view (checkMembers x visit chain type members) := by
  induction members generalizing type with
  | nil => exact adds_pure _
  | cons member rest ih =>
    refine (hvisit.field _ _ _ _).bind fun found => (hview.silent_trace _ _ _).bind fun _ => ?_
    refine (hview.silent (adds_checkField _ _ _ _)).bind fun _ => .ite ?_ ?_
    · exact (hview.silent (adds_report_beside (by decide) _ _)).bind_pure
    · exact (ih _).bind_pure

theorem silent_checkChain (hvisit : Discreet view visit x.definition) (chain : AccessChain) :
    Silent view (checkChain x visit chain) := by
  refine (hview.silent_trace _ _ _).bind fun _ => (hvisit.chain _).bind fun found => ?_
  refine (hview.silent (x.adds_typeOfText _ _)).bind fun type => .ite ?_ ?_
  · exact (hview.silent (adds_report_beside (by decide) _ _)).bind_pure
  · exact (hview.silent_trace _ _ _).bind fun _ => (hview.silent (adds_checkType _ _ _)).bind fun _ =>
      (hview.silent_trace _ _ _).bind fun _ =>
        (silent_checkMembers hview hvisit _ _ _).bind_pure

end

/-! ## Views without diagnostics -/

section

variable (hnotes : ∀ d, view (.logged d) = none) {visit : Visitor α}
  (hvisit : ∀ e, Silent view (visit e))

include hnotes

theorem silent_checkName (x : Subject) (onlyErrors : Bool) (pos : Nat) (name : String) :
    Silent view (checkName x onlyErrors pos name) := by
  refine .ite (adds_note (hnotes _)) ((adds_note (hnotes _)).bind fun _ => ?_)
  exact .ite (adds_note (hnotes _)) (adds_pure _)

include hvisit

variable (k : Checker) (onlyErrors : Bool) (d : Definition)

theorem silent_scanBody (f : FunctionDecl) (body : Token) :
    Silent view (scanBody k onlyErrors visit d f body) := by
  have hview : Overlooks view .accessGlobal := fun d _ => hnotes d
  refine (adds_mapM (fun e => (hvisit _).bind fun _ =>
    (hview.silent (adds_checkExpansions _ _ _)).bind_pure) _).bind fun _ => ?_
  refine (hview.silent (adds_localTypes _ _ _)).bind fun locals => ?_
  refine .ite ((hview.silent_trace _ _ _).bind fun _ => ?_) ?_
  all_goals
    refine (adds_mapM (fun use => (silent_checkName hnotes _ _ _ _).bind fun _ =>
      hvisit _) _).bind fun _ => ?_
    exact (adds_mapM (silent_checkChain hview (.of_silent hvisit _)) _).bind fun _ =>
      adds_pure _

theorem silent_scanDefinition : Silent view (scanDefinition k onlyErrors visit d) := by
  refine (adds_note (hnotes _)).bind fun _ => (adds_note (hnotes _)).bind fun _ => ?_
  split
  · split
    · exact .ite (silent_scanBody hnotes hvisit _ _ _ _ _) (adds_pure _)
    · exact adds_pure _
  · exact adds_pure _

theorem silent_scanDefinitions (ds : List Definition) :
    Silent view (scanDefinitions k onlyErrors visit ds) :=
  adds_foldlM (fun _ _ => (silent_scanDefinition hnotes hvisit _ _ _).bind fun _ =>
    adds_pure _) _ _

theorem view_eq_none_of_mem_taskResults {k : Checker} {onlyErrors : Bool}
    {results : List (Transcript × List α)} (h : k.taskResults onlyErrors visit = .ok results) :
    ∀ r ∈ results, ∀ e ∈ r.1, view e = none := by
  intro r hr
  obtain ⟨ds, -, hds⟩ := Fault.exists_of_mem_mapM h r hr
  obtain ⟨⟨⟨_, found⟩, log⟩, htask, rfl⟩ := Fault.exists_of_map_eq_ok hds
  have hlog := (silent_scanDefinitions hnotes hvisit k onlyErrors ds).entries
  rwa [start_of_task_eq_ok htask] at hlog

end

end Checker

/-! ## Audits side by side -/

/-- Two analyses come back with values that are related, or with the same fault. -/
inductive Fault.Related {α β : Type} (R : α → β → Prop) : Except Fault α → Except Fault β → Prop
  | ok {x : α} {y : β} : R x y → Related R (.ok x) (.ok y)
  | error (fault : Fault) : Related R (.error fault) (.error fault)

theorem Fault.Related.bind {α α' β β' : Type} {R : α → α' → Prop} {S : β → β' → Prop}
    {r : Except Fault α} {r' : Except Fault α'} {f : α → Except Fault β} {f' : α' → Except Fault β'}
    (h : Related R r r') (hf : ∀ x y, R x y → Related S (f x) (f' y)) :
    Related S (r >>= f) (r' >>= f') := by
  cases h with
  | error fault => exact .error fault
  | ok h => exact hf _ _ h

theorem Fault.Related.mapM {α β γ δ : Type} {f : γ → Except Fault α} {f' : γ → Except Fault β}
    {g : α → δ} {g' : β → δ} (h : ∀ c, Related (fun x y => g' y = g x) (f c) (f' c)) (l : List γ) :
    Related (fun xs ys => ys.map g' = xs.map g) (l.mapM f) (l.mapM f') := by
  induction l with
  | nil => exact .ok rfl
  | cons c l ih =>
    rw [mapM_cons, mapM_cons]
    exact (h c).bind fun x y hy => ih.bind fun xs ys hys => .ok (by rw [map_cons, map_cons, hy, hys])

namespace Audit

variable {α α' β β' : Type}
variable {R : α → α' → Prop} {a b : Audit α} {a' : Audit α'} {S : β → β' → Prop} {f : α → Audit β}
  {p : Prop}

/-- Two audits have answers that are related. -/
def Agree (R : α → α' → Prop) (a : Audit α) (a' : Audit α') : Prop :=
  ∃ r r', Answers a r ∧ Answers a' r' ∧ Fault.Related R r r'

theorem agree_of_ok {x : α} {y : α'} (ha : Answers a (.ok x)) (ha' : Answers a' (.ok y))
    (h : R x y) : Agree R a a' :=
  ⟨_, _, ha, ha', .ok h⟩

theorem agree_pure {x : α} {y : α'} (h : R x y) :
    Agree R (pure x) (pure y) := agree_of_ok (answers_pure x) (answers_pure y) h

/-- Parts that agree make up audits that agree. -/
theorem Agree.bind {f' : α' → Audit β'} (ha : Agree R a a')
    (hf : ∀ x y, R x y → Agree S (f x) (f' y)) : Agree S (a >>= f) (a' >>= f') := by
  obtain ⟨r, r', ha, ha', h⟩ := ha
  cases h with
  | error fault => exact ⟨_, _, ha.bind_error, ha'.bind_error, .error fault⟩
  | ok h =>
    obtain ⟨s, s', hs, hs', h⟩ := hf _ _ h
    exact ⟨s, s', ha.bind_ok hs, ha'.bind_ok hs', h⟩

theorem Answers.bind_agree {r : Except Fault α} {f' : α → Audit β'} (ha : Answers a r)
    (hf : ∀ x, Agree S (f x) (f' x)) : Agree S (a >>= f) (a >>= f') := by
  have hself : Agree Eq a a := by
    refine ⟨r, r, ha, ha, ?_⟩
    cases r with
    | ok x => exact .ok rfl
    | error fault => exact .error fault
  refine hself.bind fun x y h => ?_
  subst h
  exact hf x

theorem Agree.ite [Decidable p] {b' : Audit α'} (ha : Agree R a a') (hb : Agree R b b') :
    Agree R (if p then a else b) (if p then a' else b') := by
  split
  · exact ha
  · exact hb

/-- The second answer is a view of the first one. -/
def Views (g : α → α') (a : Audit α) (a' : Audit α') : Prop := Agree (fun x y => y = g x) a a'

theorem views_mapM {γ : Type} {g : α → α'} {f : γ → Audit α} {f' : γ → Audit α'} {l : List γ}
    (h : ∀ x ∈ l, Views g (f x) (f' x)) : Views (List.map g) (l.mapM f) (l.mapM f') := by
  induction l with
  | nil => exact agree_pure rfl
  | cons c l ih =>
    rw [mapM_cons, mapM_cons]
    refine (h c mem_cons_self).bind fun x y hy => ?_
    refine (ih fun x hx => h x (mem_cons_of_mem c hx)).bind fun xs ys hys => ?_
    exact agree_pure (by rw [hy, hys, map_cons])

theorem agree_foldlM {γ : Type} {f : α → γ → Audit α} {f' : α' → γ → Audit α'}
    (h : ∀ x y c, R x y → Agree R (f x c) (f' y c)) (l : List γ) {x : α} {y : α'} (hxy : R x y) :
    Agree R (l.foldlM f x) (l.foldlM f' y) := by
  induction l generalizing x y with
  | nil => exact agree_pure hxy
  | cons c l ih => exact (h x y c hxy).bind fun x y hxy => ih hxy

end Audit

namespace Checker

open Access

variable {α : Type} {visit : Visitor α} {v : AccessEvent → List α} {d : Definition}
variable {x : Subject} {k k' : Checker}

/-- What is found at some events. -/
def readOff (v : AccessEvent → List α) (events : List AccessEvent) : List α := events.flatMap v

theorem readOff_append (v : AccessEvent → List α) (es es' : List AccessEvent) :
    readOff v (es ++ es') = readOff v es ++ readOff v es' := flatMap_append

theorem readOff_flatten (v : AccessEvent → List α) (parts : List (List AccessEvent)) :
    readOff v parts.flatten = (parts.map (readOff v)).flatten := by
  rw [readOff, flatMap_def, map_flatten, flatten_flatten, map_map]
  rfl

/-- The visitor that finds the events themselves. -/
def collect : Visitor AccessEvent := fun e => pure [e]

/-- The visitor answers with what is read off. -/
def Reads (visit : Visitor α) (v : AccessEvent → List α) (d : Definition) : Prop :=
  ∀ a, Answers (visit ⟨d, a⟩) (.ok (v ⟨d, a⟩))

/-- Only fields are read. -/
def FieldsOnly (v : AccessEvent → List α) (d : Definition) : Prop :=
  (∀ e, v ⟨d, .expansion e⟩ = []) ∧ (∀ span name, v ⟨d, .name span name⟩ = []) ∧
    ∀ chain, v ⟨d, .chain chain⟩ = []

theorem answers_collect (e : AccessEvent) : Answers (collect e) (.ok [e]) := answers_pure _

theorem Reads.views (h : Reads visit v d) (a : Access) :
    Views (readOff v) (collect ⟨d, a⟩) (visit ⟨d, a⟩) :=
  agree_of_ok (answers_collect _) (h a) (by rw [readOff, flatMap_singleton])

theorem views_checkMembers (h : Reads visit v x.definition) (chain : AccessChain) (type : String)
    (members : List (String × Span)) :
    Views (readOff v) (checkMembers x collect chain type members)
      (checkMembers x visit chain type members) := by
  induction members generalizing type with
  | nil => exact agree_pure rfl
  | cons member rest ih =>
    refine (h.views _).bind fun es found hfound => ?_
    refine (answers_trace _ _ _).bind_agree fun _ => ?_
    refine (adds_checkField _ _ _ _).answers.bind_agree fun _ => .ite ?_ ?_
    · exact (answers_report _ _ _).bind_agree fun _ => agree_pure hfound
    · exact (ih _).bind fun more found' hmore => agree_pure (by rw [hfound, hmore, readOff_append])

theorem views_checkChain (h : Reads visit v x.definition) (chain : AccessChain) :
    Views (readOff v) (checkChain x collect chain) (checkChain x visit chain) := by
  refine (answers_trace _ _ _).bind_agree fun _ => (h.views _).bind fun es found hfound => ?_
  refine (x.adds_typeOfText _ _).answers.bind_agree fun type => .ite ?_ ?_
  · exact (answers_report _ _ _).bind_agree fun _ => agree_pure hfound
  · refine (answers_trace _ _ _).bind_agree fun _ =>
      (adds_checkType _ _ _).answers.bind_agree fun _ => (answers_trace _ _ _).bind_agree fun _ => ?_
    exact (views_checkMembers h _ _ _).bind fun more found' hmore =>
      agree_pure (by rw [hfound, hmore, readOff_append])

theorem flatten_map_names (hv : FieldsOnly v d) (uses : List (Nat × List Char)) :
    (uses.map fun use => v ⟨d, .name ⟨use.1, use.1 + (String.ofList use.2).length⟩
      (String.ofList use.2)⟩).flatten = [] := by
  rw [flatten_eq_nil_iff]
  intro l hl
  obtain ⟨use, -, rfl⟩ := mem_map.mp hl
  exact hv.2.1 _ _

theorem codebase_namePattern (k : Checker) (onlyErrors : Bool) (moduleName : String) :
    (k.namePattern onlyErrors moduleName).1.codebase = k.codebase := by
  have hlookUp (key : String) (names : List String) :
      (k.lookUp key names).1.codebase = k.codebase := by
    unfold lookUp
    split <;> rfl
  unfold namePattern
  split <;> exact hlookUp _ _

/-- The second look keeps the code base, equal checkers stay equal, and it finds what is read off the
first one's events. -/
def Sees (v : AccessEvent → List α) (k k' : Checker) (r : Checker × List AccessEvent)
    (r' : Checker × List α) : Prop :=
  r'.1.codebase = k.codebase ∧ (k' = k → r'.1 = r.1) ∧ r'.2 = readOff v r.2

theorem agree_names (h : Reads visit v d) (x : Subject) (onlyErrors : Bool)
    {uses uses' : List (Nat × List Char)} (hnames : uses' = uses ∨ FieldsOnly v d) :
    Agree (fun names names' => names'.flatten = readOff v names.flatten)
      (uses.mapM fun use => do
        checkName x onlyErrors use.1 (String.ofList use.2)
        collect ⟨d, .name ⟨use.1, use.1 + (String.ofList use.2).length⟩ (String.ofList use.2)⟩)
      (uses'.mapM fun use => do
        checkName x onlyErrors use.1 (String.ofList use.2)
        visit ⟨d, .name ⟨use.1, use.1 + (String.ofList use.2).length⟩ (String.ofList use.2)⟩) := by
  refine agree_of_ok
    (answers_mapM_ok (fun use => (answers_checkName _ _ _ _).bind_ok (answers_collect _)) uses)
    (answers_mapM_ok (fun use => (answers_checkName _ _ _ _).bind_ok (h _)) uses') ?_
  rw [readOff_flatten, map_map]
  refine Eq.trans ?_ (congrArg flatten (map_congr_left fun use _ =>
    (flatMap_singleton v _).symm))
  rcases hnames with rfl | hv
  · rfl
  · rw [flatten_map_names hv, flatten_map_names hv]

/-- What a visitor makes of a body is read off its events. -/
theorem agree_scanBody (h : Reads visit v d) (hk : k'.codebase = k.codebase)
    (hnames : k' = k ∨ FieldsOnly v d) (onlyErrors : Bool) (f : FunctionDecl) (body : Token) :
    Agree (Sees v k k') (scanBody k onlyErrors collect d f body)
      (scanBody k' onlyErrors visit d f body) := by
  unfold scanBody
  rw [hk]
  have hexpansions : Views (List.map (readOff v)) ((bodyExpansions d body).mapM fun e => do
        let found ← collect ⟨d, .expansion e⟩
        checkExpansions k.codebase d e
        return found) ((bodyExpansions d body).mapM fun e => do
        let found ← visit ⟨d, .expansion e⟩
        checkExpansions k.codebase d e
        return found) :=
    views_mapM fun e _ => (h.views _).bind fun es found hfound =>
      (adds_checkExpansions _ _ _).answers.bind_agree fun _ => agree_pure hfound
  refine hexpansions.bind fun expansions expansions' hexp => ?_
  refine (adds_localTypes _ _ _).answers.bind_agree fun locals => ?_
  refine .ite ((answers_trace _ _ _).bind_agree fun _ => ?_) ?_
  all_goals
    refine (agree_names h _ onlyErrors (hnames.imp_left fun hsame => by rw [hsame])).bind
      fun names names' hnames => ?_
    refine (views_mapM fun chain _ => views_checkChain h chain).bind
      fun chains chains' hchains => agree_pure ⟨?_, fun hsame => by rw [hsame], ?_⟩
    · exact (codebase_namePattern _ _ _).trans hk
    · rw [readOff_append, readOff_append, hnames, hexp, hchains, readOff_flatten, readOff_flatten,
        readOff_flatten]

/-- So it is for a definition. -/
theorem agree_scanDefinition (h : ∀ f body, d.details = some (.function f) → f.body = some body →
      Reads visit v d ∧ (k' = k ∨ FieldsOnly v d)) (hk : k'.codebase = k.codebase)
    (onlyErrors : Bool) :
    Agree (Sees v k k') (scanDefinition k onlyErrors collect d)
      (scanDefinition k' onlyErrors visit d) := by
  refine (answers_trace _ _ _).bind_agree fun _ => (answers_trace _ _ _).bind_agree fun _ => ?_
  have hnothing : Agree (Sees v k k') (pure (k, [])) (pure (k', [])) := agree_pure ⟨hk, id, rfl⟩
  split
  · rename_i f hf
    split
    · rename_i body hbody
      obtain ⟨hreads, hnames⟩ := h f body hf hbody
      exact .ite (agree_scanBody hreads hk hnames onlyErrors _ _) hnothing
    · exact hnothing
  · exact hnothing

/-- So it is for all tasks. -/
theorem related_taskResults (h : ∀ e, Answers (visit e) (.ok (v e))) (k : Checker)
    (onlyErrors : Bool) :
    Fault.Related (fun parts parts' => parts'.map Prod.snd = parts.map fun r => readOff v r.2)
      (k.taskResults onlyErrors collect) (k.taskResults onlyErrors visit) := by
  refine Fault.Related.mapM (fun ds => ?_) _
  have hscan : Agree (fun r r' => r'.1 = r.1 ∧ r'.2 = readOff v r.2)
      (k.scanDefinitions onlyErrors collect ds) (k.scanDefinitions onlyErrors visit ds) := by
    refine agree_foldlM (fun acc acc' d hacc => ?_) ds ⟨rfl, rfl⟩
    obtain ⟨hk, hfound⟩ := hacc
    refine (agree_scanDefinition (fun _ _ _ _ => ⟨fun _ => h _, .inl hk⟩)
      (congrArg codebase hk) onlyErrors).bind fun r r' hr => agree_pure ⟨hr.2.1 hk, ?_⟩
    rw [hfound, hr.2.2, readOff_append]
  obtain ⟨r, r', hr, hr', hrelated⟩ := hscan
  rw [hr.task_eq, hr'.task_eq]
  cases hrelated with
  | error fault => exact .error fault
  | ok hfound => exact .ok hfound.2

end Checker

end CBoundary
