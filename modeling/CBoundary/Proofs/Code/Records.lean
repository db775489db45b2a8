import CBoundary.Proofs.Code.Change
import CBoundary.Proofs.Code.Standing

/-!
# Invariants of the tables of a code base

Definitions come in one by one, take over from each other under one name, and change with all other
copies of what they hold.  An invariant of the entries that survives these three is kept.  The
numbers of entries tell copies of different entries apart and matter in no other way.
-/

namespace CBoundary.Codebase

open List

variable {A A' : String → TypeEntry → Prop} {R R' : String → Prop}
  {B B' : String → Definition → Prop} {C : Change → Prop}
variable {cb : Codebase} {f : RecordDecl → RecordDecl} {d : Definition}
  {key record name : String} {e : TypeEntry} {changes : List Change}

/-! ## Changes -/

/-- Changes the record of an entry. -/
def mapRecordOf (f : RecordDecl → RecordDecl) (e : TypeEntry) : TypeEntry :=
  match e with
  | .own d =>
    match d.details with
    | some (.record r) => .own { d with details := some (.record (f r)) }
    | _ => e
  | .further _ => e

/-- Changes the variable of a field. -/
def mapVariableOf (f : Variable → Variable) (d : Definition) : Definition :=
  match d.details with
  | some (.var v) => { d with details := some (.var (f v)) }
  | _ => d

theorem find?_mapRecords (f : RecordDecl → RecordDecl) (cb : Codebase) (key : String) :
    (cb.mapRecords f).types.find? key = (cb.types.find? key).map (mapRecordOf f) :=
  Table.find?_mapValues _ cb.types key

theorem find?_mapFields (f : Variable → Variable) (cb : Codebase) (record : String) :
    (cb.mapFields f).fields.find? record =
      (cb.fields.find? record).map (Table.mapValues (mapVariableOf f)) :=
  Table.find?_mapValues _ cb.fields record

theorem mapRecordOf_own {r : RecordDecl} (h : d.details = some (.record r)) :
    mapRecordOf f (.own d) = .own { d with details := some (.record (f r)) } := by
  unfold mapRecordOf
  dsimp only
  rw [h]

theorem mapVariableOf_var {f : Variable → Variable} {v : Variable} (h : d.details = some (.var v)) :
    mapVariableOf f d = { d with details := some (.var (f v)) } := by
  rw [mapVariableOf, h]

/-! ## What is known of types and fields -/

theorem findType?_of_find?_eq_none (h : cb.types.find? key = none) :
    cb.canonicalType key = key ∧ cb.findType? key = none := by
  have hcanonical : cb.canonicalType key = key := by rw [canonicalType, h]
  rw [findType?, hcanonical, h]
  exact ⟨rfl, rfl⟩

theorem findType?_of_find?_eq_own (h : cb.types.find? key = some (.own d)) :
    cb.canonicalType key = key ∧ cb.findType? key = some d := by
  have hcanonical : cb.canonicalType key = key := by rw [canonicalType, h]
  rw [findType?, hcanonical, h]
  exact ⟨rfl, rfl⟩

/-- Something is known of all entries of types, of the names of records with fields, and of all
fields. -/
structure RecordsAre (A : String → TypeEntry → Prop) (R : String → Prop)
    (B : String → Definition → Prop) (cb : Codebase) : Prop where
  typesAre : ∀ p ∈ cb.types.entries, A p.1 p.2
  fieldsAre : ∀ p ∈ cb.fields.entries, R p.1 ∧ ∀ q ∈ p.2.entries, B q.1 q.2

namespace RecordsAre

theorem types {A : TypeEntry → Prop} (h : cb.RecordsAre (fun _ => A) R B) :
    ∀ e ∈ cb.types.values, A e :=
  forall_mem_map.mpr h.typesAre

theorem fields {B : Definition → Prop} (h : cb.RecordsAre A R (fun _ => B)) :
    ∀ t ∈ cb.fields.values, ∀ d ∈ t.values, B d :=
  forall_mem_map.mpr fun p hp => forall_mem_map.mpr (h.fieldsAre p hp).2

variable (h : cb.RecordsAre A R B)

include h

theorem type (hfind : cb.types.find? key = some e) : A key e :=
  h.typesAre (key, e) (Table.mem_entries_of_find? hfind)

theorem findType? (hfind : cb.findType? key = some d) : A (cb.canonicalType key) (.own d) := by
  unfold Codebase.findType? at hfind
  split at hfind
  · rename_i hentry
    cases hfind
    exact h.type hentry
  · cases hfind

theorem fieldsIn {t : Table Definition} (hfind : cb.fields.find? record = some t) :
    R record ∧ ∀ q ∈ t.entries, B q.1 q.2 :=
  h.fieldsAre (record, t) (Table.mem_entries_of_find? hfind)

theorem fieldsOf (record : String) :
    ∀ q ∈ ((cb.fields.find? record).getD {}).entries, B q.1 q.2 := by
  cases hfind : cb.fields.find? record with
  | none => exact forall_mem_nil _
  | some t => exact (h.fieldsIn hfind).2

theorem field (hfind : ((cb.fields.find? record).getD {}).find? name = some d) : B name d :=
  h.fieldsOf record (name, d) (Table.mem_entries_of_find? hfind)

theorem imp (hA : ∀ key e, A key e → A' key e) (hR : ∀ record, R record → R' record)
    (hB : ∀ name d, B name d → B' name d) : cb.RecordsAre A' R' B' where
  typesAre := fun p hp => hA _ _ (h.typesAre p hp)
  fieldsAre := fun p hp =>
    ⟨hR _ (h.fieldsAre p hp).1, fun q hq => hB _ _ ((h.fieldsAre p hp).2 q hq)⟩

theorem mapRecords (hA : ∀ key e, A key e → A' key (mapRecordOf f e)) :
    (cb.mapRecords f).RecordsAre A' R B where
  typesAre := forall_mem_map.mpr fun p hp => hA _ _ (h.typesAre p hp)
  fieldsAre := h.fieldsAre

theorem mapFields {f : Variable → Variable} (hB : ∀ name d, B name d → B' name (mapVariableOf f d))
    : (cb.mapFields f).RecordsAre A R B' where
  typesAre := h.typesAre
  fieldsAre := forall_mem_map.mpr fun p hp => ⟨(h.fieldsAre p hp).1,
    forall_mem_map.mpr fun q hq => hB _ _ ((h.fieldsAre p hp).2 q hq)⟩

theorem insertType (he : A key e) :
    RecordsAre A R B { cb with types := cb.types.insert key e } := by
  refine ⟨fun p hp => ?_, h.fieldsAre⟩
  rcases Table.mem_entries_insert hp with rfl | hp
  · exact he
  · exact h.typesAre p hp

theorem insertField (hrecord : R record) (hd : B name d) : RecordsAre A R B { cb with
      fields := cb.fields.insert record (((cb.fields.find? record).getD {}).insert name d) } := by
  refine ⟨h.typesAre, fun p hp => ?_⟩
  rcases Table.mem_entries_insert hp with rfl | hp
  · refine ⟨hrecord, fun q hq => ?_⟩
    rcases Table.mem_entries_insert hq with rfl | hq
    · exact hd
    · exact h.fieldsOf record q hq
  · exact h.fieldsAre p hp

theorem restrictType (v : Visibility.Verdict) (key : String) :
    (restrictType v key cb).RecordsAre A R B := by
  unfold Codebase.restrictType
  split
  · exact ⟨h.typesAre, h.fieldsAre⟩
  · exact h

end RecordsAre

/-! ## Invariants that last -/

/-- What is known survives that definitions take over from each other and that changes show. -/
structure Lasting (A : String → TypeEntry → Prop) (B : String → Definition → Prop)
    (C : Change → Prop) : Prop where
  onType : ∀ key e ch, A key e → C ch → A key (mapRecordOf (fun r => Change.onRecord r ch) e)
  onField : ∀ name d new, B name d → C (.var new) → B name (mapVariableOf new.refresh d)
  absorbType : ∀ key key' a b, A key (.own a) → A key' (.own b) → A key (.own (a.absorbed b))
  absorbField : ∀ name name' a b, B name a → B name' b → B name (a.absorbed b)
  ofType : ∀ key d, A key (.own d) → ∀ ch ∈ Change.ofDefinition d, C ch
  ofField : ∀ name d, B name d → ∀ ch ∈ Change.ofDefinition d, C ch

namespace Lasting

variable (hA : Lasting A B C) (h : cb.RecordsAre A R B)

include hA h

theorem after (hchanges : ∀ ch ∈ changes, C ch) : (cb.after changes).RecordsAre A R B := by
  refine foldlRecOn (motive := RecordsAre A R B) changes Change.onCodebase h fun cb hcb ch hmem => ?_
  have hch := hchanges ch hmem
  have hrecords := hcb.mapRecords fun key e he => hA.onType key e ch he hch
  cases ch with
  | record new => exact hrecords
  | var new => exact hrecords.mapFields fun name d hd => hA.onField name d new hd hch

/-- Entering a type keeps the invariant. -/
theorem upsertedType (hd : A d.name (.own d)) :
    (cb.upsertedType d).1.RecordsAre A R B ∧ ∀ ch ∈ (cb.upsertedType d).2, C ch := by
  unfold Codebase.upsertedType
  split
  · exact ⟨h.insertType hd, forall_mem_nil _⟩
  · rename_i old hfind
    have hold := h.findType? hfind
    have hmerged : A (cb.canonicalType d.name) (.own (old.merged d).1) ∧
        A d.name (.own (old.merged d).2) := by
      unfold Definition.merged
      split
      · exact ⟨hold, hA.absorbType _ _ d old hd hold⟩
      · exact ⟨hA.absorbType _ _ old d hold hd, hd⟩
    have hchanges := forall_mem_append.mpr ⟨hA.ofType _ _ hmerged.1, hA.ofType _ _ hmerged.2⟩
    exact ⟨hA.after (h.insertType hmerged.1) hchanges, hchanges⟩

/-- So does entering a field. -/
theorem upsertedField (hrecord : R record) (hd : B d.name d) :
    (cb.upsertedField record d).1.RecordsAre A R B ∧
      ∀ ch ∈ (cb.upsertedField record d).2, C ch := by
  unfold Codebase.upsertedField
  dsimp only
  split
  · exact ⟨h.insertField hrecord hd, forall_mem_nil _⟩
  · rename_i old hfind
    have hold : B d.name old := h.field hfind
    have hmerged : B d.name (old.merged d).1 ∧ B d.name (old.merged d).2 := by
      unfold Definition.merged
      split
      · exact ⟨hold, hA.absorbField _ _ d old hd hold⟩
      · exact ⟨hA.absorbField _ _ old d hold hd, hd⟩
    have hchanges := forall_mem_append.mpr ⟨hA.ofField _ _ hmerged.1, hA.ofField _ _ hmerged.2⟩
    exact ⟨hA.after (h.insertField hrecord hmerged.1) hchanges, hchanges⟩

end Lasting

/-! ## Functions -/

/-- A condition holds of the definitions of all functions, static or not. -/
structure FunctionsAre (P : Definition → Prop) (cb : Codebase) : Prop where
  names : ∀ d ∈ cb.names.values, P d
  staticNames : ∀ t ∈ cb.staticNames.values, ∀ d ∈ t.values, P d

namespace FunctionsAre

variable {P : Definition → Prop}

/-- So does entering a function. -/
theorem addedFunction (hmerged : ∀ a b : Definition, P a → P b → P (a.merged b).1) {c : Context}
    {f : FunctionDecl} (h : cb.FunctionsAre P) (hd : P (functionDefinition c f)) :
    (addedFunction c f cb).FunctionsAre P := by
  unfold Codebase.addedFunction
  split
  · refine ⟨h.names, fun t ht => ?_⟩
    rcases Table.mem_values_insert ht with rfl | ht
    · refine Definition.forall_upserted hmerged hd fun x hx => ?_
      obtain ⟨t, ht, hx⟩ := Table.mem_values_getD_find? hx
      exact h.staticNames t ht x hx
    · exact h.staticNames t ht
  · exact ⟨Definition.forall_upserted hmerged hd h.names, h.staticNames⟩

theorem addedRecord (h : cb.FunctionsAre P) (c : Context) (r : RecordDecl) :
    (addedRecord c r cb).FunctionsAre P := by
  obtain ⟨hnames, -, hstatic, -, -⟩ := outside_addedRecord c r cb
  refine ⟨?_, ?_⟩
  · rw [hnames]
    exact h.names
  · rw [hstatic]
    exact h.staticNames

end FunctionsAre

end CBoundary.Codebase

namespace CBoundary

open Definition
open RecordDecl (renumberVariable)

variable {f : Nat → Nat}

/-! ## Definitions -/

/-- The definition with other details. -/
def Definition.mapDetails (g : Details → Details) (d : Definition) : Definition :=
  { d with details := d.details.map g }

/-- A view of details that shows all that bringing definitions together looks at. -/
structure Details.Neutral (g : Details → Details) : Prop where
  absorb : ∀ a b, ((g a).absorb? (g b)).map Prod.fst = (a.absorb? b).map fun p => g p.1
  hasBody : ∀ d : Definition, (d.mapDetails g).hasBody = d.hasBody

namespace Definition

theorem eq_of_details {a b : Definition} (h : { a with details := none } = { b with details := none })
    (hdetails : a.details = b.details) : a = b := by
  cases b
  cases hdetails
  cases h
  rfl

end Definition

section Neutral

variable {g : Details → Details}

theorem Details.Neutral.jointDetails? (hg : Neutral g) (a b : Definition) :
    ((a.mapDetails g).jointDetails? (b.mapDetails g)).map Prod.fst =
      ((a.jointDetails? b).map Prod.fst).map g := by
  unfold Definition.jointDetails? mapDetails
  cases a.details with
  | none => rfl
  | some x =>
    cases b.details with
    | none => rfl
    | some y =>
      show ((g x).absorb? (g y)).map Prod.fst = ((x.absorb? y).map Prod.fst).map g
      rw [hg.absorb, Option.map_map]
      rfl

theorem Details.Neutral.absorbed (hg : Neutral g) (a b : Definition) :
    (a.mapDetails g).absorbed (b.mapDetails g) = (a.absorbed b).mapDetails g := by
  have hframe : ∀ a b : Definition,
      { a.absorbed b with details := none } = { a.joinStanding b with details := none } := by
    intro a b
    unfold Definition.absorbed
    split <;> rfl
  refine eq_of_details ?_ ?_
  · rw [hframe]
    exact (hframe a b).symm
  · rw [absorbed_details, hg.jointDetails?]
    show _ = (a.absorbed b).details.map g
    rw [absorbed_details, Option.map_or]
    rfl

theorem Details.Neutral.priority (hg : Neutral g) (d : Definition) :
    (d.mapDetails g).priority = d.priority := by
  rw [priority_eq, priority_eq, hg.hasBody]
  rfl

theorem Details.Neutral.merged (hg : Neutral g) (a b : Definition) :
    (a.mapDetails g).merged (b.mapDetails g) =
      ((a.merged b).1.mapDetails g, (a.merged b).2.mapDetails g) := by
  unfold Definition.merged
  rw [hg.priority, hg.priority, hg.absorbed, hg.absorbed]
  split <;> rfl

theorem Details.Neutral.upserted (hg : Neutral g) (t : Table Definition) (d : Definition) :
    (Definition.upserted (t.mapValues (mapDetails g)) (d.mapDetails g)).1 =
      (Definition.upserted t d).1.mapValues (mapDetails g) := by
  have hname : (d.mapDetails g).name = d.name := rfl
  unfold Definition.upserted
  rw [hname, Table.find?_mapValues]
  cases t.find? d.name with
  | none => exact (Table.mapValues_insert _ t d.name d).symm
  | some old =>
    simp only [Option.map_some, hg.merged]
    exact (Table.mapValues_insert _ t _ _).symm

end Neutral

/-- Details whose entries have other numbers. -/
def Details.renumber (f : Nat → Nat) : Details → Details
  | .function g => .function g
  | .record r => .record (r.renumber f)
  | .macroDef m => .macroDef m
  | .var v => .var (renumberVariable f v)

/-- The definition of an entry with another number. -/
def Definition.renumber (f : Nat → Nat) (d : Definition) : Definition :=
  { d with details := d.details.map (Details.renumber f) }

theorem RecordDecl.renumber_absorb (a b : RecordDecl) :
    ((a.renumber f).absorb (b.renumber f)).1 = (a.absorb b).1.renumber f := by
  rw [renumber_eq f (a.absorb b).1, absorb_fst, absorb_fst, takesBody, bodiesDiffer,
    renumber_body, renumber_body, ← bodiesDiffer, ← takesBody, renumber_eq f a, renumber_eq f b]
  cases a.takesBody b <;> rfl

theorem Details.neutral_renumber : Neutral (Details.renumber f) where
  absorb := by
    intro a b
    cases a <;> cases b
    case record.record r q =>
      show some (Details.record ((r.renumber f).absorb (q.renumber f)).1) =
        some (.record ((r.absorb q).1.renumber f))
      rw [RecordDecl.renumber_absorb]
    all_goals rfl
  hasBody := by
    intro d
    unfold hasBody mapDetails
    cases d.details with
    | none => rfl
    | some details =>
      cases details with
      | record r =>
        show (r.renumber f).body.isSome = r.body.isSome
        rw [RecordDecl.renumber_body]
      | _ => rfl

theorem Definition.renumber_merged (a b : Definition) : (a.renumber f).merged (b.renumber f) =
      ((a.merged b).1.renumber f, (a.merged b).2.renumber f) :=
  Details.neutral_renumber.merged a b

/-! ## Changes -/

/-- The change with new numbers. -/
def Change.renumber (f : Nat → Nat) : Change → Change
  | .var v => .var (renumberVariable f v)
  | .record r => .record (r.renumber f)

theorem Change.ofDefinition_renumber (d : Definition) :
    Change.ofDefinition (d.renumber f) = (Change.ofDefinition d).map (Change.renumber f) := by
  unfold ofDefinition Definition.renumber
  cases d.details with
  | none => rfl
  | some details => cases details <;> rfl

theorem Variable.renumber_after (hf : ∀ m n, f m = f n → m = n) (v : Variable)
    (changes : List Change) :
    (renumberVariable f v).after (changes.map (Change.renumber f)) =
      renumberVariable f (v.after changes) := by
  rw [after, List.foldl_map]
  refine List.foldl_hom (renumberVariable f) fun v ch => ?_
  cases ch with
  | var new => exact (RecordDecl.renumberVariable_refresh hf new v).symm
  | record new => rfl

theorem RecordDecl.renumber_after (hf : ∀ m n, f m = f n → m = n) (r : RecordDecl)
    (changes : List Change) :
    (r.renumber f).after (changes.map (Change.renumber f)) = (r.after changes).renumber f := by
  rw [after, List.foldl_map]
  refine List.foldl_hom (RecordDecl.renumber f) fun r ch => ?_
  cases ch with
  | var new => exact (renumber_refreshVariable hf new r).symm
  | record new => exact (renumber_refresh hf new r).symm

/-! ## Records and fields that come in -/

namespace Codebase

theorem recordDefinition_renumber (v : Visibility.Verdict) (r : RecordDecl) :
    recordDefinition v (r.renumber f) = (recordDefinition v r).renumber f := by
  rw [recordDefinition, RecordDecl.renumber_name, RecordDecl.renumber_scope]
  rfl

end Codebase

namespace Visibility

/-- Numbers do not matter for verdicts. -/
theorem verdict_renumber (w : Workspace) (r : RecordDecl) (isPrivate : Option Bool)
    (moduleName : String) (isNested : Bool) :
    verdict w (.record (r.renumber f)) isPrivate moduleName isNested =
      verdict w (.record r) isPrivate moduleName isNested := by
  have hmark : annotationOf? (.record (r.renumber f)) = annotationOf? (.record r) := by
    unfold annotationOf? Details.preComment Details.postComment
    dsimp only
    rw [RecordDecl.renumber_preComment, RecordDecl.renumber_postComment]
  have hname : (Details.record (r.renumber f)).name = (Details.record r).name :=
    RecordDecl.renumber_name f r
  unfold verdict
  rw [hmark, hname]

end Visibility

variable {K : String → Prop} {n : Nat}

/-! ## The records of a code base -/

/-- The names of a record and of the one around it are given ones; its number is one of the first.
-/
def RecordDecl.Numbered (K : String → Prop) (n : Nat) (h : RecordDecl.Head) : Prop :=
  K h.name.value ∧ (∀ parent, h.parent = some parent → K parent) ∧ 1 ≤ h.entry ∧ h.entry ≤ n

/-- A variable has a number of the first ones. -/
def Variable.Numbered (n : Nat) (v : Variable) : Prop := 1 ≤ v.entry ∧ v.entry ≤ n

namespace Definition

variable {key name : String} {d a b : Definition}

/-- The type by that name holds a record. -/
def HoldsRecord (K : String → Prop) (n : Nat) (key : String) (d : Definition) : Prop :=
  d.name = key ∧ ∃ r, d.details = some (.record r) ∧
    r.Everywhere (RecordDecl.Numbered K n) (Variable.Numbered n)

/-- The field by that name holds a variable. -/
def HoldsField (n : Nat) (name : String) (d : Definition) : Prop :=
  d.name = name ∧ ∃ v, d.details = some (.var v) ∧ v.Numbered n

theorem HoldsRecord.everywhere (h : d.HoldsRecord K n key) :
    d.Everywhere (RecordDecl.Numbered K n) (Variable.Numbered n) := by
  obtain ⟨-, r, hr, hall⟩ := h
  exact (everywhere_record hr).mpr hall

theorem HoldsField.everywhere (h : d.HoldsField n name) :
    d.Everywhere (RecordDecl.Numbered K n) (Variable.Numbered n) := by
  obtain ⟨-, v, hv, hall⟩ := h
  exact (everywhere_var hv).mpr hall

theorem HoldsRecord.absorbed {key' : String} (ha : a.HoldsRecord K n key)
    (hb : b.HoldsRecord K n key') : (a.absorbed b).HoldsRecord K n key := by
  obtain ⟨hname, r, hr, hall⟩ := ha
  obtain ⟨-, q, hq, hallq⟩ := hb
  refine ⟨(absorbed_name a b).trans hname, (r.absorb q).1, ?_, RecordDecl.Everywhere.absorb hall
    hallq⟩
  rw [absorbed_details]
  rw [jointDetails?, hr, hq]
  rfl

theorem HoldsField.absorbed {name' : String} (ha : a.HoldsField n name)
    (hb : b.HoldsField n name') : (a.absorbed b).HoldsField n name := by
  obtain ⟨hname, v, hv, hall⟩ := ha
  obtain ⟨-, w, hw, -⟩ := hb
  refine ⟨(absorbed_name a b).trans hname, (v.absorb w).1, ?_, hall⟩
  rw [absorbed_details]
  rw [jointDetails?, hv, hw]
  rfl

end Definition

namespace Codebase

variable {c : Context} {cb : Codebase} {d : Definition} {record name : String}

/-- All records have given names, and all that they hold has one of the first numbers. -/
abbrev Holds (K : String → Prop) (n : Nat) (cb : Codebase) : Prop :=
  cb.RecordsAre (fun key e => K key ∧ ∃ d, e = .own d ∧ d.HoldsRecord K n key) K
    (Definition.HoldsField n)

/-- The tables of a code base about records hold every name once. -/
structure Orderly (cb : Codebase) : Prop where
  types : cb.types.Distinct
  fields : cb.fields.Distinct
  inner : ∀ record t, cb.fields.find? record = some t → t.Distinct
  typedefs : cb.typedefs.Distinct

/-- Types are kept under their own names. -/
theorem Holds.findType?_cases (h : cb.Holds K n) (key : String) : cb.canonicalType key = key ∧
      (cb.types.find? key = none ∧ cb.findType? key = none ∨
        ∃ d, cb.types.find? key = some (.own d) ∧ cb.findType? key = some d ∧
          d.HoldsRecord K n key) := by
  have hcanonical : cb.canonicalType key = key := by
    unfold canonicalType
    split
    · rename_i canonical hfind
      obtain ⟨-, d, hd, -⟩ := h.type hfind
      cases hd
    · rfl
  refine ⟨hcanonical, ?_⟩
  rw [Codebase.findType?, hcanonical]
  cases hfind : cb.types.find? key with
  | none => exact .inl ⟨rfl, rfl⟩
  | some e =>
    obtain ⟨-, d, rfl, hd⟩ := h.type hfind
    exact .inr ⟨d, rfl, rfl, hd⟩

theorem lasting_holds : Lasting (fun key e => K key ∧ ∃ d, e = .own d ∧ d.HoldsRecord K n key)
    (Definition.HoldsField n) (Change.Everywhere (RecordDecl.Numbered K n) (Variable.Numbered n)) where
  onType := by
    rintro key _ ch ⟨hkey, d, rfl, hname, r, hr, hall⟩ hch
    rw [mapRecordOf_own hr]
    exact ⟨hkey, _, rfl, hname, _, rfl, hch.onRecord hall⟩
  onField := by
    rintro name d new ⟨hname, v, hv, hnumber⟩ hnew
    rw [mapVariableOf_var hv]
    exact ⟨hname, _, rfl, hnew.onVariable hnumber⟩
  absorbType := by
    rintro key key' a b ⟨hkey, _, ⟨⟩, ha⟩ ⟨-, _, ⟨⟩, hb⟩
    exact ⟨hkey, _, rfl, ha.absorbed hb⟩
  absorbField := fun _ _ _ _ ha hb => ha.absorbed hb
  ofType := by
    rintro key d ⟨-, _, ⟨⟩, hd⟩
    exact hd.everywhere
  ofField := fun _ _ hd => hd.everywhere

/-! ## The order of the tables -/

namespace Orderly

variable (h : cb.Orderly)

include h

theorem mapRecords (f : RecordDecl → RecordDecl) : (cb.mapRecords f).Orderly :=
  ⟨h.types.mapValues _, h.fields, h.inner, h.typedefs⟩

theorem mapFields (f : Variable → Variable) : (cb.mapFields f).Orderly := by
  refine ⟨h.types, h.fields.mapValues _, fun record t ht => ?_, h.typedefs⟩
  rw [find?_mapFields] at ht
  obtain ⟨t', hfind, rfl⟩ := Option.map_eq_some_iff.mp ht
  exact (h.inner record t' hfind).mapValues _

theorem after (changes : List Change) : (cb.after changes).Orderly := by
  refine List.foldlRecOn (motive := Orderly) changes Change.onCodebase h fun cb hcb ch _ => ?_
  cases ch with
  | var new => exact (hcb.mapRecords _).mapFields _
  | record new => exact hcb.mapRecords _

theorem insertType (key : String) (e : TypeEntry) :
    Orderly { cb with types := cb.types.insert key e } :=
  ⟨h.types.insert key e, h.fields, h.inner, h.typedefs⟩

theorem insertField (record name : String) (d : Definition) : Orderly { cb with
      fields := cb.fields.insert record (((cb.fields.find? record).getD {}).insert name d) } := by
  refine ⟨h.types, h.fields.insert _ _, fun record' t ht => ?_, h.typedefs⟩
  rw [Table.find?_insert] at ht
  split at ht
  · cases ht
    refine Table.Distinct.insert ?_ name d
    cases hfind : cb.fields.find? record with
    | none => exact Table.distinct_empty
    | some t => exact h.inner record t hfind
  · exact h.inner record' t ht

theorem upsertedType (d : Definition) : (cb.upsertedType d).1.Orderly := by
  unfold Codebase.upsertedType
  split
  · exact h.insertType _ _
  · exact (h.insertType _ _).after _

theorem upsertedField (record : String) (d : Definition) :
    (cb.upsertedField record d).1.Orderly := by
  unfold Codebase.upsertedField
  dsimp only
  split
  · exact h.insertField _ _ _
  · exact (h.insertField _ _ _).after _

theorem restrictType (v : Visibility.Verdict) (key : String) : (restrictType v key cb).Orderly := by
  unfold Codebase.restrictType
  split
  · exact ⟨h.types, h.fields, h.inner, h.typedefs⟩
  · exact h

end Orderly

theorem enters_holds : Enters c (RecordDecl.Everywhere (RecordDecl.Numbered K n) (Variable.Numbered n))
    (Variable.Numbered n) (Change.Everywhere (RecordDecl.Numbered K n) (Variable.Numbered n))
    (fun cb => cb.Holds K n ∧ cb.Orderly) where
  toLasts := RecordDecl.lasts_everywhere
  type := by
    intro cb r hcb hr
    obtain ⟨hholds, hchanges⟩ := lasting_holds.upsertedType hcb.1
      (d := recordDefinition (verdictOf c cb r) r) ⟨hr.head.1, _, rfl, rfl, r, rfl, hr⟩
    exact ⟨⟨hholds.restrictType _ _, (hcb.2.upsertedType _).restrictType _ _⟩, hchanges⟩
  field := by
    intro cb r member hcb hr hmember
    obtain ⟨hholds, hchanges⟩ := lasting_holds.upsertedField hcb.1 hr.head.1
      (d := fieldDefinition (fieldVerdict c r) member) ⟨rfl, member, rfl, hmember⟩
    exact ⟨⟨hholds, hcb.2.upsertedField _ _⟩, hchanges⟩
  typedefs := by
    intro cb r key hcb
    refine ⟨⟨hcb.1.typesAre, hcb.1.fieldsAre⟩, ⟨hcb.2.types, hcb.2.fields, hcb.2.inner, ?_⟩⟩
    exact List.foldlRecOn (motive := Table.Distinct) _ _ hcb.2.typedefs
      fun t ht v _ => ht.insert _ _

end Codebase

end CBoundary
