import CBoundary.Proofs.Code.Merge
import CBoundary.Proofs.Declaration.Tree

/-!
# Changes while records are entered

No definition is ever refused, so that what entering it does, apart from what it reports, is a
function on code bases.  Entering a record can change what is known about records and variables, and
every change shows in all copies.
-/

namespace CBoundary

open Audit

/-! ## Effects -/

namespace Visibility

variable (c : Context) (thing : Details) (isPrivate : Option Bool) (moduleName : String)
  (isNested : Bool)

theorem answers_decide : Answers (decide c thing isPrivate moduleName isNested)
      (.ok (verdict c.workspace thing isPrivate moduleName isNested)) := by
  exact .ite ((answers_report _ _ _).bind_pure) (answers_pure _)

theorem answers_check : Answers (check c thing isPrivate moduleName isNested)
      (.ok (verdict c.workspace thing isPrivate moduleName isNested)) := by
  refine (answers_decide c thing isPrivate moduleName isNested).bind_ok ?_
  exact .ite ((answers_report _ _ _).bind_pure) (answers_pure _)

end Visibility

namespace Codebase

/-! ## Types and fields -/

/-- A type entered, and the changes. -/
def upsertedType (cb : Codebase) (d : Definition) : Codebase × List Change :=
  match cb.findType? d.name with
  | none => ({ cb with types := cb.types.insert d.name (.own d) }, [])
  | some old =>
    let changes := Change.ofDefinition (old.merged d).1 ++ Change.ofDefinition (old.merged d).2
    (({ cb with types := cb.types.insert (cb.canonicalType d.name) (.own (old.merged d).1) }).after
      changes, changes)

variable (c : Context) (isGlobal : Bool) (r : RecordDecl) (cb : Codebase)

theorem answers_upsertType (d : Definition) :
    Answers (cb.upsertType d) (.ok (cb.upsertedType d)) := by
  unfold upsertType upsertedType
  cases cb.findType? d.name with
  | none => exact answers_pure _
  | some old => exact (Definition.answers_merge old d).bind_pure

/-- A field entered, and the changes. -/
def upsertedField (cb : Codebase) (record : String) (d : Definition) : Codebase × List Change :=
  let t := (cb.fields.find? record).getD {}
  match t.find? d.name with
  | none => ({ cb with fields := cb.fields.insert record (t.insert d.name d) }, [])
  | some old =>
    let changes := Change.ofDefinition (old.merged d).1 ++ Change.ofDefinition (old.merged d).2
    (({ cb with fields := cb.fields.insert record (t.insert d.name (old.merged d).1) }).after
      changes, changes)

theorem answers_upsertField (record : String) (d : Definition) :
    Answers (cb.upsertField record d) (.ok (cb.upsertedField record d)) := by
  unfold upsertField upsertedField
  dsimp only
  cases ((cb.fields.find? record).getD {}).find? d.name with
  | none => exact answers_pure _
  | some old =>
    exact (Definition.answers_merge old d).bind_pure

/-! ## Records -/

/-- The definition of a field. -/
def fieldDefinition (v : Visibility.Verdict) (member : Variable) : Definition where
  name := member.name.value
  kind := "field"
  scope := member.scope
  offset := member.name.span.start
  moduleName := v.moduleName
  isPrivate := v.isPrivate
  details := some (.var member)

/-- The verdict about fields. -/
def fieldVerdict (c : Context) (r : RecordDecl) : Visibility.Verdict :=
  Visibility.verdict c.workspace (.record r) c.file.isPrivate c.file.moduleName true

/-- One more field entered, as changes left it. -/
def addedField (c : Context) (r : RecordDecl) (acc : Codebase × List Change)
    (member : Variable) : Codebase × List Change :=
  let added := acc.1.upsertedField r.name.value
    (fieldDefinition (fieldVerdict c r) (member.after acc.2))
  (added.1, acc.2 ++ added.2)

/-- The fields of a record entered, and the changes. -/
def addedFields (c : Context) (r : RecordDecl) (cb : Codebase) : Codebase × List Change :=
  (r.members.getD []).foldl (addedField c r) (cb, [])

theorem answers_addFields : Answers (addFields c r cb) (.ok (addedFields c r cb)) := by
  refine (Visibility.answers_check c (.record r) _ _ true).bind_ok ?_
  refine answers_foldlM_ok (fun acc member => ?_) _ _
  exact (answers_upsertField _ _ _).bind_pure

/-- The verdict about a record. -/
def verdictOf (c : Context) (cb : Codebase) (r : RecordDecl) : Visibility.Verdict :=
  match r.parent with
  | some parent =>
    Visibility.verdict c.workspace (.record r) ((cb.findType? parent).bind Definition.isPrivate)
      (((cb.findType? parent).map Definition.moduleName).getD "") true
  | none =>
    Visibility.verdict c.workspace (.record r) c.file.isPrivate c.file.moduleName false

theorem answers_recordVerdict (r : RecordDecl) :
    Answers (recordVerdict c cb r) (.ok (verdictOf c cb r)) := by
  unfold recordVerdict verdictOf
  cases r.parent <;> exact Visibility.answers_check _ _ _ _ _

/-- The definition of a record. -/
def recordDefinition (v : Visibility.Verdict) (r : RecordDecl) : Definition where
  name := r.name.value
  kind := "record"
  scope := r.scope
  offset := r.name.span.start
  moduleName := v.moduleName
  isPrivate := v.isPrivate
  details := some (.record r)

/-- Lists a type that is private. -/
def restrictType (v : Visibility.Verdict) (key : String) (cb : Codebase) : Codebase :=
  if v.isPrivate == some true then
    { cb with restrictedTypes := addName cb.restrictedTypes key } else cb

/-- Enters the type definitions of a record. -/
def addRecordTypedefs (r : RecordDecl) (key : String) (cb : Codebase) : Codebase :=
  { cb with
    typedefs := (r.typedefs.getD []).foldl (fun t v => t.insert v.name.value key) cb.typedefs }

/-- A record entered without inner ones, and the changes. -/
def enteredRecord (c : Context) (r : RecordDecl) (cb : Codebase) : Codebase × List Change :=
  let verdict := verdictOf c cb r
  let upserted := cb.upsertedType (recordDefinition verdict r)
  let r' := r.after upserted.2
  let added := addedFields c r' (restrictType verdict r.name.value upserted.1)
  (addRecordTypedefs r' r.name.value added.1, upserted.2 ++ added.2)

theorem answers_enterRecord :
    Answers (enterRecord c isGlobal r cb) (.ok (enteredRecord c r cb)) := by
  refine (answers_recordVerdict c cb r).bind_ok ?_
  refine (answers_upsertType cb (recordDefinition (verdictOf c cb r) r)).bind_ok ?_
  refine (answers_trace _ _ _).bind_ok ?_
  refine (answers_addFields _ _ _).bind_ok ?_
  exact .ite ((answers_report _ _ _).bind_pure) (answers_pure _)

/-- A tree of records entered, and the changes. -/
def addedTree (c : Context) (r : RecordDecl) (cb : Codebase) : Codebase × List Change :=
  let entered := enteredRecord c r cb
  ((r.after entered.2).nested.getD []).foldl (fun (acc : Codebase × List Change) n =>
    if _h : (n.after acc.2).bodyLength < r.bodyLength then
      let added := addedTree c (n.after acc.2) acc.1
      (added.1, acc.2 ++ added.2)
    else acc) entered
termination_by r.bodyLength

/-- Entering a tree of records. -/
theorem answers_addTree : Answers (addTree c isGlobal r cb) (.ok (addedTree c r cb)) := by
  fun_induction addTree c isGlobal r cb with
  | case1 isGlobal r cb ih =>
    rw [addedTree]
    refine (answers_enterRecord c isGlobal r cb).bind_ok ?_
    refine answers_foldlM_ok (fun acc n => ?_) _ _
    dsimp only
    split
    · rename_i hlt
      exact (ih acc n hlt).bind_pure
    · exact answers_pure _

/-- The code base after a record and the records inside it were entered, with a number of its own.
-/
def addedRecord (c : Context) (r : RecordDecl) (cb : Codebase) : Codebase :=
  (addedTree c (r.renumber fun _ => cb.entries + 1) { cb with entries := cb.entries + 1 }).1

/-! ## Macros and functions -/

/-- The definition of a macro. -/
def macroDefinition (c : Context) (m : MacroDecl) : Definition :=
  let v := Visibility.verdict c.workspace (.macroDef m) c.file.isPrivate c.file.moduleName false
  { name := m.name.value
    kind := "macro"
    scope := c.scope
    offset := m.name.span.start
    moduleName := v.moduleName
    isPrivate := v.isPrivate
    details := some (.macroDef m) }

/-- The code base after a macro was entered. -/
def addedMacro (c : Context) (m : MacroDecl) (cb : Codebase) : Codebase :=
  { cb with macros := (Definition.upserted cb.macros (macroDefinition c m)).1 }

theorem answers_addMacro (m : MacroDecl) (cb : Codebase) :
    Answers (addMacro c m cb) (.ok (addedMacro c m cb)) := by
  refine (Visibility.answers_check c (.macroDef m) _ _ false).bind_ok ?_
  refine (answers_trace _ _ _).bind_ok ?_
  exact (Definition.answers_upsert cb.macros (macroDefinition c m)).bind_pure

/-- Is the function known in its file only? -/
def isLocal (c : Context) (f : FunctionDecl) : Bool := f.isStatic && c.file.kind == .source

/-- The definition of a function. -/
def functionDefinition (c : Context) (f : FunctionDecl) : Definition :=
  let v := Visibility.verdict c.workspace (.function f)
    (if isLocal c f then some true else c.file.isPrivate) c.file.moduleName false
  { name := f.name.value
    kind := "function"
    scope := f.scope
    offset := f.name.span.start
    moduleName := v.moduleName
    isPrivate := v.isPrivate
    details := some (.function f) }

/-- The static names with one more function. -/
def addedStatic (cb : Codebase) (file : String) (d : Definition) : Codebase :=
  { cb with
    staticNames := cb.staticNames.insert file
      (Definition.upserted ((cb.staticNames.find? file).getD {}) d).1 }

/-- The global names with one more function. -/
def addedName (cb : Codebase) (d : Definition) : Codebase :=
  { cb with
    names := (Definition.upserted cb.names d).1
    restrictedNames :=
      if d.hidden then addName cb.restrictedNames d.name else cb.restrictedNames }

/-- The code base after a function was entered. -/
def addedFunction (c : Context) (f : FunctionDecl) (cb : Codebase) : Codebase :=
  if isLocal c f then cb.addedStatic c.file.name (functionDefinition c f)
  else cb.addedName (functionDefinition c f)

theorem answers_addFunction (f : FunctionDecl) (cb : Codebase) :
    Answers (addFunction c f cb) (.ok (addedFunction c f cb)) := by
  unfold addFunction addedFunction
  refine (Visibility.answers_check c (.function f) _ _ false).bind_ok ?_
  refine (answers_trace _ _ _).bind_ok ?_
  have hupsert := fun t => Definition.answers_upsert t (functionDefinition c f)
  change Answers (if isLocal c f = true then _ else _) _
  split
  · refine .ite ((answers_report _ _ _).bind_ok ?_) ?_
    · exact (hupsert _).bind_pure
    · exact (hupsert _).bind_pure
  · exact (hupsert _).bind_pure

end Codebase

open List

variable {P : RecordDecl.Head → Prop} {V : Variable → Prop} {C : Change → Prop}
variable {ch : Change} {v : Variable} {r : RecordDecl} {changes : List Change}

/-! ## Changes of records and variables -/

/-- Something holds everywhere in a change. -/
def Change.Everywhere (P : RecordDecl.Head → Prop) (V : Variable → Prop) : Change → Prop
  | .var v => V v
  | .record r => r.Everywhere P V

theorem Change.Everywhere.onVariable (hch : ch.Everywhere P V) (hv : V v) :
    V (Change.onVariable v ch) := by
  cases ch with
  | record _ => exact hv
  | var new =>
    show V (if v.site == new.site then new else v)
    split
    · exact hch
    · exact hv

theorem Change.Everywhere.onRecord (hch : ch.Everywhere P V) (hr : r.Everywhere P V) :
    (Change.onRecord r ch).Everywhere P V := by
  cases ch with
  | record new => exact hr.refresh hch
  | var new => exact hr.refreshVariable fun v hv => hch.onVariable hv

/-- What holds of a record and of what is inside it, and what changes may say to keep that. -/
structure RecordDecl.Lasts (T : RecordDecl → Prop) (V : Variable → Prop) (C : Change → Prop) :
    Prop where
  members : ∀ r, T r → ∀ v ∈ r.members.getD [], V v
  nested : ∀ r, T r → ∀ n ∈ r.nested.getD [], T n
  onRecord : ∀ r ch, T r → C ch → T (Change.onRecord r ch)
  onVariable : ∀ v ch, V v → C ch → V (Change.onVariable v ch)

theorem RecordDecl.lasts_everywhere : Lasts (Everywhere P V) V (Change.Everywhere P V) where
  members := fun _ hr v hv => hr.own v (mem_append_left _ hv)
  nested := fun _ hr => hr.nested
  onRecord := fun _ _ hr hch => hch.onRecord hr
  onVariable := fun _ _ hv hch => hch.onVariable hv

theorem RecordDecl.lasts_true : Lasts (fun _ => True) (fun _ => True) (fun _ => True) where
  members := fun _ _ _ _ => trivial
  nested := fun _ _ _ _ => trivial
  onRecord := fun _ _ _ _ => trivial
  onVariable := fun _ _ _ _ => trivial

section Lasts

variable {T : RecordDecl → Prop} (hT : RecordDecl.Lasts T V C)
include hT

theorem RecordDecl.Lasts.variable_after (hv : V v) (hchanges : ∀ ch ∈ changes, C ch) :
    V (v.after changes) :=
  foldlRecOn (motive := V) changes Change.onVariable hv
    fun _ hw ch hch => hT.onVariable _ ch hw (hchanges ch hch)

theorem RecordDecl.Lasts.after (hr : T r) (hchanges : ∀ ch ∈ changes, C ch) : T (r.after changes) :=
  foldlRecOn (motive := T) changes Change.onRecord hr
    fun _ hq ch hch => hT.onRecord _ ch hq (hchanges ch hch)

end Lasts

theorem RecordDecl.Everywhere.absorb {a b : RecordDecl} (ha : a.Everywhere P V)
    (hb : b.Everywhere P V) : (a.absorb b).1.Everywhere P V := by
  rw [absorb_fst]
  cases a.takesBody b with
  | true => exact .intro ha.head hb.own hb.nested
  | false => exact .intro ha.head ha.own ha.nested

/-! ## Definitions -/

namespace Definition

variable {a b d : Definition}

/-- Something holds everywhere in a definition. -/
def Everywhere (P : RecordDecl.Head → Prop) (V : Variable → Prop) (d : Definition) : Prop :=
  ∀ ch ∈ Change.ofDefinition d, ch.Everywhere P V

theorem everywhere_record (h : d.details = some (.record r)) :
    d.Everywhere P V ↔ r.Everywhere P V := by
  rw [Everywhere, Change.ofDefinition, h]
  exact forall_mem_singleton

theorem everywhere_var (h : d.details = some (.var v)) : d.Everywhere P V ↔ V v := by
  rw [Everywhere, Change.ofDefinition, h]
  exact forall_mem_singleton

/-- A predicate that does not look at comments. -/
def CommentFree (V : Variable → Prop) : Prop :=
  ∀ (v : Variable) (pre post : Option Token), V v →
    V { v with preComment := pre, postComment := post }

/-- Taking over keeps what holds everywhere. -/
theorem Everywhere.absorbed (hV : CommentFree V) (ha : a.Everywhere P V) (hb : b.Everywhere P V) :
    (a.absorbed b).Everywhere P V := by
  unfold Everywhere Change.ofDefinition at ha hb ⊢
  rw [absorbed_details]
  unfold jointDetails?
  cases hx : a.details with
  | none => exact forall_mem_nil _
  | some x =>
    rw [hx] at ha
    cases hy : b.details with
    | none => exact ha
    | some y =>
      rw [hy] at hb
      cases x <;> cases y
      case record.record r q =>
        have hr := forall_mem_singleton.mp ha
        have hq := forall_mem_singleton.mp hb
        exact forall_mem_singleton.mpr (RecordDecl.Everywhere.absorb hr hq)
      case var.var v w =>
        have hv := forall_mem_singleton.mp ha
        exact forall_mem_singleton.mpr (hV v _ _ hv)
      all_goals exact ha

end Definition

/-! ## Entering records -/

namespace Codebase

variable {r : RecordDecl} {cb : Codebase} {c : Context}
variable {T : RecordDecl → Prop} {I : Codebase → Prop}

/-- Entering the type and the fields of a record keeps an invariant, which may fail in between, and
makes only certain changes. -/
structure Enters (c : Context) (T : RecordDecl → Prop) (V : Variable → Prop) (C : Change → Prop)
    (I : Codebase → Prop) : Prop extends RecordDecl.Lasts T V C where
  type : ∀ cb r, I cb → T r → I (restrictType (verdictOf c cb r) r.name.value
      (cb.upsertedType (recordDefinition (verdictOf c cb r) r)).1) ∧
      ∀ ch ∈ (cb.upsertedType (recordDefinition (verdictOf c cb r) r)).2, C ch
  field : ∀ cb r member, I cb → T r → V member →
    I (cb.upsertedField r.name.value (fieldDefinition (fieldVerdict c r) member)).1 ∧
      ∀ ch ∈ (cb.upsertedField r.name.value (fieldDefinition (fieldVerdict c r) member)).2, C ch
  typedefs : ∀ cb r key, I cb → I (addRecordTypedefs r key cb)

theorem Enters.addedFields (hI : Enters c T V C I) (hcb : I cb) (hr : T r) :
    I (addedFields c r cb).1 ∧ ∀ ch ∈ (addedFields c r cb).2, C ch := by
  refine foldlRecOn (motive := fun (acc : Codebase × List Change) => I acc.1 ∧ ∀ ch ∈ acc.2, C ch)
    _ (addedField c r) ⟨hcb, forall_mem_nil _⟩ fun acc hacc member hmember => ?_
  have hv := hI.variable_after (hI.members r hr member hmember) hacc.2
  obtain ⟨hstep, hchanges⟩ := hI.field acc.1 r _ hacc.1 hr hv
  exact ⟨hstep, forall_mem_append.mpr ⟨hacc.2, hchanges⟩⟩

theorem Enters.enteredRecord (hI : Enters c T V C I) (hcb : I cb) (hr : T r) :
    I (enteredRecord c r cb).1 ∧ ∀ ch ∈ (enteredRecord c r cb).2, C ch := by
  obtain ⟨htype, hfirst⟩ := hI.type cb r hcb hr
  obtain ⟨hfields, hmore⟩ := hI.addedFields htype (hI.after hr hfirst)
  exact ⟨hI.typedefs _ _ _ hfields, forall_mem_append.mpr ⟨hfirst, hmore⟩⟩

/-- A tree of records keeps it too. The induction is on the length of the body, as the entering
itself. -/
theorem Enters.addedTree (hI : Enters c T V C I) (hcb : I cb) (hr : T r) :
    I (addedTree c r cb).1 ∧ ∀ ch ∈ (addedTree c r cb).2, C ch := by
  fun_induction Codebase.addedTree c r cb with
  | case1 r cb _ ih =>
    have hentered := hI.enteredRecord hcb hr
    have hnested := hI.nested _ (hI.after hr hentered.2)
    refine foldlRecOn (motive := fun (acc : Codebase × List Change) => I acc.1 ∧ ∀ ch ∈ acc.2, C ch)
      _ _ hentered fun acc hacc n hn => ?_
    split
    · rename_i hsmaller
      obtain ⟨hstep, hchanges⟩ := ih acc n hsmaller hacc.1 (hI.after (hnested n hn) hacc.2)
      exact ⟨hstep, forall_mem_append.mpr ⟨hacc.2, hchanges⟩⟩
    · exact hacc

/-! ## What entering records leaves alone -/

/-- The parts of a code base that no record touches. -/
def outside (cb : Codebase) :
    Table Definition × List String × Table (Table Definition) × Table Definition × Nat :=
  (cb.names, cb.restrictedNames, cb.staticNames, cb.macros, cb.entries)

/-- The parts that neither types nor fields touch. -/
def aside (cb : Codebase) : List String ×
    (Table Definition × List String × Table (Table Definition) × Table Definition × Nat) :=
  (cb.restrictedTypes, cb.outside)

variable (c : Context) (r : RecordDecl) (cb : Codebase)

theorem aside_after (changes : List Change) : (cb.after changes).aside = cb.aside := by
  refine foldlRecOn (motive := fun cb' => aside cb' = cb.aside) changes Change.onCodebase
    rfl fun cb' hcb' ch _ => ?_
  cases ch <;> exact hcb'

theorem aside_upsertedType (d : Definition) : (cb.upsertedType d).1.aside = cb.aside := by
  unfold upsertedType
  split
  · rfl
  · exact aside_after _ _

theorem aside_upsertedField (record : String) (d : Definition) :
    (cb.upsertedField record d).1.aside = cb.aside := by
  unfold upsertedField
  dsimp only
  split
  · rfl
  · exact aside_after _ _

theorem outside_restrictType (v : Visibility.Verdict) (key : String) (cb : Codebase) :
    (restrictType v key cb).outside = cb.outside := by
  unfold restrictType
  split <;> rfl

theorem outside_addedTree : (addedTree c r cb).1.outside = cb.outside := by
  have henters : Enters c (fun _ => True) (fun _ => True) (fun _ => True)
      (fun cb' => cb'.outside = cb.outside) := {
    RecordDecl.lasts_true with
    type := fun cb' r h _ => ⟨(outside_restrictType _ _ _).trans
      ((congrArg Prod.snd (aside_upsertedType cb' _)).trans h), fun _ _ => trivial⟩
    field := fun cb' r member h _ _ =>
      ⟨(congrArg Prod.snd (aside_upsertedField cb' _ _)).trans h, fun _ _ => trivial⟩
    typedefs := fun cb' r key h => h }
  exact (henters.addedTree rfl trivial).1

theorem outside_addedRecord :
    (addedRecord c r cb).names = cb.names ∧ (addedRecord c r cb).restrictedNames = cb.restrictedNames ∧
      (addedRecord c r cb).staticNames = cb.staticNames ∧
      (addedRecord c r cb).macros = cb.macros ∧ (addedRecord c r cb).entries = cb.entries + 1 := by
  have houtside := outside_addedTree c (r.renumber fun _ => cb.entries + 1)
    { cb with entries := cb.entries + 1 }
  simp only [outside, Prod.mk.injEq] at houtside
  exact houtside

end Codebase

end CBoundary
