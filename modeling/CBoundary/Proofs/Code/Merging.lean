import CBoundary.Proofs.Code.Beside

/-!
# Merging the result of a task

What merging the result of a task does to a code base, apart from what it reports.  The lists of
private types and names and the macros stay as they were.  New records come to stand beside what
the code base holds.
-/

namespace CBoundary.Codebase

open Audit Definition List Table

variable {acc : Codebase × Codebase}

/-! ## The effect of merging -/

/-- One more type of a task entered into a code base: both as they are afterwards. -/
def mergedType (acc : Codebase × Codebase) (key : String) : Codebase × Codebase :=
  match acc.1.findType? key with
  | none => acc
  | some d => (acc.1.after (acc.2.upsertedType d).2, (acc.2.upsertedType d).1)

/-- The types of a task entered into a code base. -/
def mergedTypes (src cb : Codebase) : Codebase × Codebase :=
  src.types.keys.foldl mergedType (src, cb)

section

variable {P : Definition → Prop} (src cb : Codebase)

theorem answers_mergeTypes : Answers (mergeTypes src cb) (.ok (mergedTypes src cb)) := by
  refine answers_foldlM_ok (fun acc key => ?_) _ _
  obtain ⟨src, cb⟩ := acc
  unfold mergedType
  dsimp only
  cases src.findType? key with
  | none => exact answers_pure _
  | some d => exact (answers_upsertType cb d).bind_pure

/-- The fields that a code base knows of a record. -/
def fieldsOf (record : String) (cb : Codebase) : Table Definition :=
  (cb.fields.find? record).getD {}

/-- One more field of a task entered. -/
def mergedField (record : String) (acc : Codebase × Codebase) (name : String) :
    Codebase × Codebase :=
  match (acc.1.fieldsOf record).find? name with
  | none => acc
  | some d => (acc.1.after (acc.2.upsertedField record d).2, (acc.2.upsertedField record d).1)

/-- The code base that knows of a record. -/
def withRecord (record : String) (cb : Codebase) : Codebase :=
  if cb.fields.contains record then cb else { cb with fields := cb.fields.insert record {} }

/-- The fields of a record of a task entered. -/
def mergedRecordFields (acc : Codebase × Codebase) (record : String) : Codebase × Codebase :=
  (acc.1.fieldsOf record).keys.foldl (mergedField record) (acc.1, acc.2.withRecord record)

theorem answers_mergeRecordFields (record : String) (src cb : Codebase) :
    Answers (mergeRecordFields record src cb) (.ok (mergedRecordFields (src, cb) record)) := by
  refine answers_foldlM_ok (fun acc name => ?_) _ _
  obtain ⟨src, cb⟩ := acc
  unfold mergedField fieldsOf
  dsimp only
  cases ((src.fields.find? record).getD {}).find? name with
  | none => exact answers_pure _
  | some d => exact (answers_upsertField cb record d).bind_pure

/-- The types and fields of a task after they were merged, with the code base. -/
def mergedRecords (src cb : Codebase) : Codebase × Codebase :=
  (mergedTypes src cb).1.fields.keys.foldl mergedRecordFields (mergedTypes src cb)

/-- What each step of merging keeps is kept. -/
theorem merged_induction {Q : Codebase × Codebase → Prop}
    (htype : ∀ acc key d, acc.1.findType? key = some d → Q acc →
      Q (acc.1.after (acc.2.upsertedType d).2, (acc.2.upsertedType d).1))
    (hrecord : ∀ acc record, Q acc → Q (acc.1, acc.2.withRecord record))
    (hfield : ∀ acc record name d, (acc.1.fieldsOf record).find? name = some d → Q acc →
      Q (acc.1.after (acc.2.upsertedField record d).2, (acc.2.upsertedField record d).1))
    {src cb : Codebase} (h : Q (src, cb)) : Q (mergedTypes src cb) ∧ Q (mergedRecords src cb) := by
  have htypes : Q (mergedTypes src cb) := by
    refine foldlRecOn (motive := Q) _ mergedType h fun acc hacc key _ => ?_
    unfold mergedType
    split
    · exact hacc
    · rename_i d hd
      exact htype acc key d hd hacc
  refine ⟨htypes, foldlRecOn (motive := Q) _ mergedRecordFields htypes fun acc hacc record _ => ?_⟩
  refine foldlRecOn (motive := Q) _ (mergedField record) (hrecord acc record hacc)
    fun acc hacc name _ => ?_
  unfold mergedField
  split
  · exact hacc
  · rename_i d hd
    exact hfield acc record name d hd hacc

theorem RecordsAre.withRecord {A : String → TypeEntry → Prop} {R : String → Prop}
    {B : String → Definition → Prop} {cb : Codebase} (h : cb.RecordsAre A R B) {record : String}
    (hrecord : R record) : (cb.withRecord record).RecordsAre A R B := by
  unfold Codebase.withRecord
  split
  · exact h
  · refine ⟨h.typesAre, fun p hp => ?_⟩
    rcases mem_entries_insert hp with rfl | hp
    · exact ⟨hrecord, forall_mem_nil _⟩
    · exact h.fieldsAre p hp

/-- The definitions of nested tables entered. -/
def enteredNested (t src : Table (Table Definition)) : Table (Table Definition) :=
  src.entries.foldl (fun t e => t.insert e.1 (enteredAll ((t.find? e.1).getD {}) e.2.values)) t

theorem forall_enteredNested (hmerged : ∀ a b : Definition, P a → P b → P (a.merged b).1)
    {t src : Table (Table Definition)} (ht : ∀ x ∈ t.values, ∀ d ∈ x.values, P d)
    (hsrc : ∀ x ∈ src.values, ∀ d ∈ x.values, P d) :
    ∀ x ∈ (enteredNested t src).values, ∀ d ∈ x.values, P d := by
  refine foldlRecOn
    (motive := fun t : Table (Table Definition) => ∀ x ∈ t.values, ∀ d ∈ x.values, P d)
    src.entries _ ht fun t ht e he x hx => ?_
  rcases mem_values_insert hx with rfl | hx
  · have hnew := hsrc e.2 (mem_map_of_mem he)
    refine Definition.forall_enteredAll hmerged hnew fun d hd => ?_
    obtain ⟨x, hx, hd⟩ := mem_values_getD_find? hd
    exact ht x hx d hd
  · exact ht x hx

theorem answers_upsertNested (t src : Table (Table Definition)) :
    Answers (upsertNested t src) (.ok (enteredNested t src)) := by
  refine answers_foldlM_ok (fun t e => ?_) _ _
  exact (answers_upsertAll _ _).bind_pure

/-- The code base counts the entries of the task, and knows its type definitions. -/
def withTypedefs (src cb : Codebase) : Codebase :=
  { cb with
    entries := cb.entries + src.entries
    typedefs := src.typedefs.entries.foldl (fun t e => t.insert e.1 e.2) cb.typedefs }

/-- The code base after a task was merged. -/
def mergedTask (src cb : Codebase) : Codebase :=
  let src := src.renumber (cb.entries + ·)
  let types := mergedTypes src (withTypedefs src cb)
  let records := mergedRecords src (withTypedefs src cb)
  { records.2 with
    names := enteredAll types.2.names types.1.names.values
    staticNames := enteredNested records.2.staticNames types.1.staticNames }

theorem answers_mergeTask (path : String) (log : Transcript) (src cb : Codebase) :
    Answers (mergeTask path log src cb) (.ok (mergedTask src cb)) := by
  refine (answers_trace _ _ _).bind_ok ((answers_relay log).bind_ok ?_)
  refine (answers_mergeTypes _ _).bind_ok ?_
  refine (answers_upsertAll _ _).bind_ok ?_
  refine (answers_foldlM_ok (fun acc record =>
    answers_mergeRecordFields record acc.1 acc.2) _ _).bind_ok ?_
  exact (answers_upsertNested _ _).bind_pure

/-! ## What merging leaves alone -/

/-- Both code bases have the parts that they had. -/
def SameAside (acc acc' : Codebase × Codebase) : Prop :=
  acc'.1.aside = acc.1.aside ∧ acc'.2.aside = acc.2.aside

theorem sameAside_merged :
    SameAside (src, cb) (mergedTypes src cb) ∧ SameAside (src, cb) (mergedRecords src cb) := by
  refine merged_induction (fun acc key d _ h => ?_) (fun acc record h => ?_)
    (fun acc record name d _ h => ?_) ⟨rfl, rfl⟩
  · exact ⟨(aside_after _ _).trans h.1, (aside_upsertedType _ _).trans h.2⟩
  · refine ⟨h.1, .trans ?_ h.2⟩
    unfold withRecord
    split <;> rfl
  · exact ⟨(aside_after _ _).trans h.1, (aside_upsertedField _ _ _).trans h.2⟩

theorem mergedTask_aside : (mergedTask src cb).names = enteredAll cb.names src.names.values ∧
      (mergedTask src cb).staticNames = enteredNested cb.staticNames src.staticNames ∧
      (mergedTask src cb).restrictedTypes = cb.restrictedTypes ∧
      (mergedTask src cb).restrictedNames = cb.restrictedNames ∧
      (mergedTask src cb).macros = cb.macros := by
  obtain ⟨htypes, hrecords⟩ := sameAside_merged (src.renumber (cb.entries + ·))
    (withTypedefs (src.renumber (cb.entries + ·)) cb)
  have hnames {a b : Codebase} (h : a.aside = b.aside) : a.names = b.names :=
    congrArg (fun a => a.2.1) h
  have hstatic {a b : Codebase} (h : a.aside = b.aside) : a.staticNames = b.staticNames :=
    congrArg (fun a => a.2.2.2.1) h
  have hentered := congrArg₂ (fun t s : Table Definition => enteredAll t s.values)
    (hnames htypes.2) (hnames htypes.1)
  have hnested := congrArg₂ enteredNested (hstatic hrecords.2) (hstatic htypes.1)
  exact ⟨hentered, hnested, congrArg Prod.fst hrecords.2, congrArg (fun a => a.2.2.1) hrecords.2,
    congrArg (fun a => a.2.2.2.2.1) hrecords.2⟩

theorem FunctionsAre.mergedTask {src cb : Codebase}
    (hmerged : ∀ a b : Definition, P a → P b → P (a.merged b).1) (hsrc : src.FunctionsAre P)
    (h : cb.FunctionsAre P) : (mergedTask src cb).FunctionsAre P := by
  obtain ⟨hnames, hstatic, -⟩ := mergedTask_aside src cb
  exact ⟨hnames ▸ Definition.forall_enteredAll hmerged hsrc.names h.names,
    hstatic ▸ forall_enteredNested hmerged h.staticNames hsrc.staticNames⟩

end

/-! ## Records under new names

If the code base has no record by the names of the task, nothing is brought together:
each type and each field is entered behind those that are there. -/

section Fresh

variable {K : String → Prop} {n : Nat} {src cb : Codebase}

section

variable (hsrc : src.Holds K n) (horder : src.Orderly)

include hsrc horder

theorem mergedTypes_of_apart (hcb : cb.Apart K) : mergedTypes src cb =
      (src, { cb with types := ⟨cb.types.entries ++ src.types.entries⟩ }) := by
  have hwalk := @foldl_keys _ src.types _ mergedType
    (fun done => (src, { cb with types := ⟨cb.types.entries ++ done⟩ }))
    fun done key entry left hsplit => ?_
  · rwa [append_nil] at hwalk
  have hfind : src.types.find? key = some entry :=
    horder.types.find?_of_mem (hsplit ▸ mem_append_right _ mem_cons_self)
  obtain ⟨hkey, d, rfl, hname, -⟩ := hsrc.type hfind
  have hnew : (⟨cb.types.entries ++ done⟩ : Table TypeEntry).find? key = none := by
    rw [Table.find?_append, horder.types.find?_before hsplit, Option.or_none]
    exact (hcb key hkey).1
  rw [mergedType, (findType?_of_find?_eq_own hfind).2]
  dsimp only
  rw [upsertedType, hname, (findType?_of_find?_eq_none hnew).2]
  rw [insert_of_find?_eq_none hnew, append_assoc]
  rfl

/-- The code base with one more record of fields. -/
def withFields (record : String) (es : List (String × Definition)) (cb : Codebase) : Codebase :=
  { cb with fields := ⟨cb.fields.entries ++ [(record, ⟨es⟩)]⟩ }

theorem mergedRecordFields_of_apart {record : String} {t : Table Definition}
    (ht : src.fields.find? record = some t) (hnew : cb.fields.find? record = none) :
    mergedRecordFields (src, cb) record = (src, cb.withFields record t.entries) := by
  have hfields : src.fieldsOf record = t := by rw [fieldsOf, ht, Option.getD_some]
  have hdistinct := horder.inner record t ht
  have hstart : cb.withRecord record = cb.withFields record [] := by
    unfold withRecord withFields
    rw [contains_eq, hnew, if_neg (by simp), insert_of_find?_eq_none hnew]
  unfold mergedRecordFields
  rw [hfields, hstart]
  refine foldl_keys (fun done => (src, cb.withFields record done))
    fun done name d left hsplit => ?_
  have hmem : (name, d) ∈ t.entries := hsplit ▸ mem_append_right _ mem_cons_self
  have hname : d.name = name := ((hsrc.fieldsIn ht).2 (name, d) hmem).1
  have hknown : ((cb.withFields record done).fields.find? record).getD {} = ⟨done⟩ := by
    unfold withFields
    rw [Table.find?_append, show (⟨cb.fields.entries⟩ : Table (Table Definition)).find? record =
      none from hnew, Option.none_or, Table.find?_singleton]
    rfl
  have habsent : (⟨done⟩ : Table Definition).find? name = none := hdistinct.find?_before hsplit
  rw [mergedField, hfields, hdistinct.find?_of_mem hmem]
  unfold upsertedField
  dsimp only
  rw [hknown, hname, habsent]
  rw [insert_of_find?_eq_none habsent]
  unfold withFields
  rw [insert_append_cons hnew]
  rfl

theorem foldl_mergedRecordFields_of_apart
    (hcb : ∀ record, K record → cb.fields.find? record = none) :
    src.fields.keys.foldl mergedRecordFields (src, cb) =
      (src, { cb with fields := ⟨cb.fields.entries ++ src.fields.entries⟩ }) := by
  have hwalk := @foldl_keys _ src.fields _ mergedRecordFields
    (fun done => (src, { cb with fields := ⟨cb.fields.entries ++ done⟩ }))
    fun done record t left hsplit => ?_
  · rwa [append_nil] at hwalk
  have hfind : src.fields.find? record = some t :=
    horder.fields.find?_of_mem (hsplit ▸ mem_append_right _ mem_cons_self)
  have hnew : (⟨cb.fields.entries ++ done⟩ : Table (Table Definition)).find? record = none := by
    rw [Table.find?_append, horder.fields.find?_before hsplit, Option.or_none]
    exact hcb record (hsrc.fieldsIn hfind).1
  refine (mergedRecordFields_of_apart hsrc horder hfind hnew).trans ?_
  unfold withFields
  rw [append_assoc]

theorem mergedRecords_of_apart (hcb : cb.Apart K) : mergedRecords src cb = (src, { cb with
        types := ⟨cb.types.entries ++ src.types.entries⟩
        fields := ⟨cb.fields.entries ++ src.fields.entries⟩ }) := by
  rw [mergedRecords, mergedTypes_of_apart hsrc horder hcb]
  exact foldl_mergedRecordFields_of_apart hsrc horder fun record hrecord => (hcb record hrecord).2

end

/-! ### The numbers of a task -/

theorem Holds.renumber (h : src.Holds K n) (k : Nat) : (src.renumber (k + ·)).Holds K (k + n) := by
  refine (h.mapRecords ?_).mapFields ?_
  · rintro key _ ⟨hkey, d, rfl, hname, r, hr, hall⟩
    rw [mapRecordOf_own hr]
    refine ⟨hkey, _, rfl, hname, _, rfl, hall.renumber (fun h hh => ?_) fun v hv => ?_⟩
    · obtain ⟨hhead, hparent, hfirst, hlast⟩ := hh
      exact ⟨hhead, hparent, Nat.le_trans hfirst (Nat.le_add_left _ k), Nat.add_le_add_left hlast k⟩
    · exact ⟨Nat.le_trans hv.1 (Nat.le_add_left _ k), Nat.add_le_add_left hv.2 k⟩
  · rintro name d ⟨hname, v, hv, hnumber⟩
    rw [mapVariableOf_var hv]
    exact ⟨hname, _, rfl, Nat.le_trans hnumber.1 (Nat.le_add_left _ k),
      Nat.add_le_add_left hnumber.2 k⟩

theorem Orderly.renumber (h : src.Orderly) (f : Nat → Nat) : (src.renumber f).Orderly :=
  (h.mapRecords _).mapFields _

theorem Holds.find?_renumber_types (h : src.Holds K n) (f : Nat → Nat) (key : String) :
    (src.renumber f).types.find? key = (src.types.find? key).map (renumberEntry f) := by
  change (src.mapRecords _).types.find? key = _
  rw [find?_mapRecords]
  cases hfind : src.types.find? key with
  | none => rfl
  | some e =>
    obtain ⟨-, d, rfl, -, r, hr, -⟩ := h.type hfind
    rw [Option.map_some, Option.map_some, mapRecordOf_own hr]
    unfold renumberEntry Definition.renumber
    dsimp only
    rw [hr]
    rfl

theorem Holds.find?_renumber_fields (h : src.Holds K n) (f : Nat → Nat) (record : String) :
    (src.renumber f).fields.find? record =
      (src.fields.find? record).map (mapValues (Definition.renumber f)) := by
  change ((src.mapRecords _).mapFields _).fields.find? record = _
  rw [find?_mapFields]
  change (src.fields.find? record).map _ = _
  cases hfind : src.fields.find? record with
  | none => rfl
  | some t =>
    refine congrArg some (congrArg Table.mk (map_congr_left fun e he => ?_))
    obtain ⟨-, v, hv, -⟩ := (h.fieldsIn hfind).2 e he
    rw [mapVariableOf_var hv]
    rw [Definition.renumber, hv]
    rfl

/-- Merging new records puts them beside the others. -/
theorem beside_mergedTask (hsrc : src.Holds K src.entries) (horder : src.Orderly)
    (hcb : cb.Apart K) : Beside cb src (mergedTask src cb) := by
  have hapart : (withTypedefs (src.renumber (cb.entries + ·)) cb).Apart K := hcb
  have hrecords := mergedRecords_of_apart (hsrc.renumber cb.entries)
    (horder.renumber (cb.entries + ·)) hapart
  have htypes : (mergedTask src cb).types =
      ⟨cb.types.entries ++ (src.renumber (cb.entries + ·)).types.entries⟩ :=
    congrArg (fun p => p.2.types) hrecords
  have hfields : (mergedTask src cb).fields =
      ⟨cb.fields.entries ++ (src.renumber (cb.entries + ·)).fields.entries⟩ :=
    congrArg (fun p => p.2.fields) hrecords
  have htypedefs : (mergedTask src cb).typedefs =
      src.typedefs.entries.foldl (fun t e => t.insert e.1 e.2) cb.typedefs :=
    congrArg (fun p => p.2.typedefs) hrecords
  refine ⟨congrArg (fun p => p.2.entries) hrecords, fun key => ?_, fun record => ?_, fun name => ?_⟩
  · rw [htypes, Table.find?_append]
    rw [hsrc.find?_renumber_types]
    cases hfind : src.types.find? key with
    | none => exact Option.or_none
    | some e => rw [(hcb key (hsrc.type hfind).1).1, Option.or_none, Option.none_or]
  · rw [hfields, Table.find?_append]
    rw [hsrc.find?_renumber_fields]
    cases hfind : src.fields.find? record with
    | none => exact Option.or_none
    | some t => rw [(hcb record (hsrc.fieldsIn hfind).1).2, Option.or_none, Option.none_or]
  · rw [htypedefs]
    exact horder.typedefs.find?_foldl_insert cb.typedefs name

end Fresh

end CBoundary.Codebase
