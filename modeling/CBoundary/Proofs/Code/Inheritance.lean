import CBoundary.Proofs.Code.Records
import CBoundary.Proofs.Code.Verdict

/-!
# What members inherit

A record gets its standing, that is its privacy and its module, from what it says itself.  Where
it says nothing it takes over from the record that encloses it, or from its file.  Its fields
get the standing that the record would have inside its file, however deep the record lies.
-/

namespace CBoundary

open List

namespace RecordDecl

open Visibility

variable {c : Context} {r r' : RecordDecl}
variable {f : RecordDecl → RecordDecl}

/-! ## Standings -/

/-- The standing of a record, given the one of the record that encloses it. -/
def standingIn (c : Context) (outer : Option Standing) (r : RecordDecl) : Standing :=
  let v := match outer with
    | none => verdict c.workspace (.record r) c.file.isPrivate c.file.moduleName false
    | some s => verdict c.workspace (.record r) s.isPrivate s.moduleName true
  ⟨v.moduleName, v.isPrivate⟩

/-- The standing of the fields of a record. -/
def fieldStanding (c : Context) (r : RecordDecl) : Standing :=
  ⟨(Codebase.fieldVerdict c r).moduleName, (Codebase.fieldVerdict c r).isPrivate⟩

/-- Nothing of the standing is lost on the way to the fields. On the top level the name does not
give the record to another module than the file's, unless it is annotated or the file has none.
Inside a record, what is not said is the same for that record and for the file. -/
def HandsDown (c : Context) (outer : Option Standing) (r : RecordDecl) : Prop :=
  match outer with
  | none =>
    (annotationOf? (.record r)).isSome ∨ c.file.moduleName = "" ∨
      ∀ m ∈ saidModule c.workspace (.record r), m = c.file.moduleName
  | some s =>
    (saidPrivacy c.workspace (.record r) = none → c.file.isPrivate = s.isPrivate) ∧
      (saidModule c.workspace (.record r) = none → c.file.moduleName = s.moduleName)

theorem fieldStanding_eq_iff (c : Context) (outer : Option Standing) (r : RecordDecl) :
    r.fieldStanding c = r.standingIn c outer ↔ r.HandsDown c outer := by
  unfold fieldStanding Codebase.fieldVerdict standingIn HandsDown
  cases outer with
  | none =>
    rw [verdict_nested, verdict_top]
    simp only [Standing.mk.injEq, and_true]
    cases hsaid : saidModule c.workspace (.record r) with
    | none => simp
    | some m =>
      simp only [Option.getD_some, Option.mem_def, Option.some.injEq, forall_eq']
      rw [left_eq_ite_iff, ← or_iff_not_imp_left, or_assoc]
  | some s =>
    dsimp only
    rw [verdict_nested, verdict_nested]
    cases saidModule c.workspace (.record r) <;> cases saidPrivacy c.workspace (.record r) <;>
      simp [and_comm]

/-- A change that keeps where records belong and whether they have members, and does not look
inside. -/
structure Superficial (f : RecordDecl → RecordDecl) : Prop where
  isLocal : Local f
  front : ∀ r : RecordDecl, r.SameFront (f r)
  members : ∀ r : RecordDecl, (f r).members.getD [] = [] ↔ r.members.getD [] = []

theorem superficial_mapOwn (g : Variable → Variable) : Superficial (mapOwn g) where
  isLocal := local_mapOwn g
  front := fun _ => ⟨rfl, rfl, rfl, rfl, rfl⟩
  members := by
    intro r
    unfold mapOwn
    cases r.members <;> simp

theorem superficial_renumberOwn (g : Nat → Nat) : Superficial (renumberOwn g) where
  isLocal := local_renumberOwn g
  front := fun _ => ⟨rfl, rfl, rfl, rfl, rfl⟩
  members := (superficial_mapOwn _).members

theorem Superficial.comp {g : RecordDecl → RecordDecl} (hg : Superficial g) (hf : Superficial f) :
    Superficial (g ∘ f) where
  isLocal := by
    intro r l
    show g (f (r.withNested l)) = (g (f r)).withNested l
    rw [hf.isLocal, hg.isLocal]
  front := by
    intro r
    have hfirst := hf.front r
    have hsecond := hg.front (f r)
    exact ⟨hsecond.name.trans hfirst.name, hsecond.parent.trans hfirst.parent,
      hsecond.body.trans hfirst.body, hsecond.preComment.trans hfirst.preComment,
      hsecond.postComment.trans hfirst.postComment⟩
  members := fun r => (hg.members (f r)).trans (hf.members r)

theorem Superficial.mapTree (hf : Superficial f) (r : RecordDecl) : r.SameFront (r.mapTree f) := by
  rw [mapTree_eq]
  have h := hf.front (r.withNested (r.nested.map (List.map (RecordDecl.mapTree f))))
  exact ⟨h.name, h.parent, h.body, h.preComment, h.postComment⟩

theorem Superficial.members_mapTree (hf : Superficial f) (r : RecordDecl) :
    (r.mapTree f).members.getD [] = [] ↔ r.members.getD [] = [] := by
  rw [mapTree_eq]
  exact hf.members _

theorem Superficial.nested_mapTree (hf : Superficial f) (r : RecordDecl) :
    (r.mapTree f).nested.getD [] = (r.nested.getD []).map (RecordDecl.mapTree f) := by
  rw [mapTree_eq, hf.isLocal.nested]
  cases r.nested <;> rfl

theorem SameFront.verdict_eq (h : r.SameFront r') (w : Workspace) (isPrivate : Option Bool)
    (moduleName : String) (isNested : Bool) :
    verdict w (.record r') isPrivate moduleName isNested =
      verdict w (.record r) isPrivate moduleName isNested := by
  have hnote : annotationOf? (.record r') = annotationOf? (.record r) := by
    show (r'.preComment.bind _ <|> r'.postComment.bind _) =
      (r.preComment.bind _ <|> r.postComment.bind _)
    rw [h.preComment, h.postComment]
  have hname : (Details.record r').name = (Details.record r).name := h.name
  unfold verdict
  rw [hnote, hname]

theorem SameFront.standingIn_eq (h : r.SameFront r') (outer : Option Standing) :
    r'.standingIn c outer = r.standingIn c outer := by
  unfold standingIn
  simp only [h.verdict_eq]

theorem SameFront.fieldStanding_eq (h : r.SameFront r') :
    r'.fieldStanding c = r.fieldStanding c := by
  unfold fieldStanding Codebase.fieldVerdict
  rw [h.verdict_eq]

/-- The record and all inside it, each with the standing of the one around it. -/
def within (c : Context) (outer : Option Standing) (r : RecordDecl) :
    List (Option Standing × RecordDecl) :=
  match _h : r.nested with
  | none => [(outer, r)]
  | some l => (outer, r) :: l.attach.flatMap fun n => within c (some (r.standingIn c outer)) n.1
termination_by sizeOf r
decreasing_by exact sizeOf_nested_lt _h n.2

theorem within_eq (c : Context) (outer : Option Standing) (r : RecordDecl) :
    r.within c outer = (outer, r) ::
      (r.nested.getD []).flatMap (within c (some (r.standingIn c outer))) := by
  rw [within]
  split
  · rename_i h
    rw [h]
    rfl
  · rename_i l h
    rw [h, Option.getD_some]
    simp

theorem mem_records_of_mem_within {outer : Option Standing} {p : Option Standing × RecordDecl}
    (h : p ∈ r.within c outer) : p.2 ∈ r.records := by
  induction r using treeInduction generalizing outer with
  | h r ih =>
    rw [within_eq] at h
    rw [records_eq]
    rcases mem_cons.mp h with rfl | h
    · exact mem_cons_self
    · obtain ⟨n, hn, hp⟩ := mem_flatMap.mp h
      exact mem_cons_of_mem _ (mem_flatMap.mpr ⟨n, hn, ih n hn hp⟩)

end RecordDecl

/-! ## What a code base says under a name -/

/-- The standing of a type of its own. -/
def TypeEntry.standing? : TypeEntry → Option Standing
  | own d => some d.standing
  | further _ => none

/-- The definition holds no record. -/
def Definition.RecordFree (d : Definition) : Prop := d.Everywhere (fun _ => False) (fun _ => True)

namespace Codebase

open Audit RecordDecl

variable {c : Context} {cb cb' cb₁ : Codebase} {key : String}
variable {s : Standing} {record : String} {d : Definition} {r r' : RecordDecl}
  {outer : Option Standing} {f : RecordDecl → RecordDecl}

/-- What is kept of a type under a name. -/
def typeView (cb : Codebase) (key : String) : Option (Option Standing) :=
  (cb.types.find? key).map TypeEntry.standing?

/-- The standings of the fields of a record. -/
def fieldView (cb : Codebase) (key : String) : Option (List Standing) :=
  (cb.fields.find? key).map fun t => t.values.map Definition.standing

/-- Two code bases say the same under a name. -/
def SameAt (key : String) (cb cb' : Codebase) : Prop :=
  cb'.typeView key = cb.typeView key ∧ cb'.fieldView key = cb.fieldView key

theorem SameAt.trans (h : SameAt key cb cb₁) (h' : SameAt key cb₁ cb') : SameAt key cb cb' :=
  ⟨h'.1.trans h.1, h'.2.trans h.2⟩

/-- The code base knows nothing of the name. -/
def Lacks (cb : Codebase) (key : String) : Prop :=
  cb.types.find? key = none ∧ cb.fields.find? key = none

theorem lacks_iff : cb.Lacks key ↔ cb.typeView key = none ∧ cb.fieldView key = none := by
  rw [Lacks, typeView, fieldView, Option.map_eq_none_iff, Option.map_eq_none_iff]

theorem Lacks.sameAt (h : cb.Lacks key) (hsame : SameAt key cb cb') : cb'.Lacks key := by
  rw [lacks_iff] at h ⊢
  rwa [hsame.1, hsame.2]

theorem exists_findType?_of_typeView (h : cb.typeView key = some (some s)) :
    ∃ d, cb.findType? key = some d ∧ d.standing = s := by
  obtain ⟨entry, hentry, hstanding⟩ := Option.map_eq_some_iff.mp h
  cases entry with
  | further canonical => cases hstanding
  | own d => exact ⟨d, (findType?_of_find?_eq_own hentry).2, Option.some.inj hstanding⟩

theorem standing_mapVariableOf (f : Variable → Variable) (d : Definition) :
    (mapVariableOf f d).standing = d.standing := by
  unfold mapVariableOf
  split <;> rfl

theorem standing?_mapRecordOf (f : RecordDecl → RecordDecl) (e : TypeEntry) :
    (mapRecordOf f e).standing? = e.standing? := by
  unfold mapRecordOf
  repeat' split
  all_goals rfl

theorem sameAt_after (cb : Codebase) (changes : List Change) (key : String) :
    SameAt key cb (cb.after changes) := by
  have hrecords : ∀ (cb : Codebase) (f : RecordDecl → RecordDecl),
      SameAt key cb (cb.mapRecords f) := by
    intro cb f
    refine ⟨?_, rfl⟩
    rw [typeView, find?_mapRecords, Option.map_map]
    exact congrArg (fun g => (cb.types.find? key).map g) (funext (standing?_mapRecordOf f))
  have hfields : ∀ (cb : Codebase) (f : Variable → Variable), SameAt key cb (cb.mapFields f) := by
    intro cb f
    refine ⟨rfl, ?_⟩
    rw [fieldView, find?_mapFields, Option.map_map]
    refine congrArg (fun g => (cb.fields.find? key).map g) (funext fun t => ?_)
    rw [Function.comp, Table.values_mapValues, map_map]
    exact map_congr_left fun d _ => standing_mapVariableOf f d
  refine foldlRecOn (motive := SameAt key cb) changes Change.onCodebase ⟨rfl, rfl⟩
    fun cb' hcb' ch _ => ?_
  cases ch with
  | var v => exact (hcb'.trans (hrecords _ _)).trans (hfields _ _)
  | record r => exact hcb'.trans (hrecords _ _)

/-! ## Entering fields -/

/-- The known fields of a record. -/
def knownFields (cb : Codebase) (key : String) : List Definition :=
  ((cb.fields.find? key).getD {}).values

theorem fieldView_getD (cb : Codebase) (key : String) :
    (cb.fieldView key).getD [] = (cb.knownFields key).map Definition.standing := by
  unfold fieldView knownFields
  cases cb.fields.find? key <;> rfl

/-- The fields of a record have the given standing, and none of them holds a record. -/
def FieldsStand (cb : Codebase) (key : String) (s : Standing) : Prop :=
  ∀ d ∈ cb.knownFields key, d.standing = s ∧ d.RecordFree

theorem recordFree_fieldDefinition (v : Visibility.Verdict) (member : Variable) :
    (fieldDefinition v member).RecordFree := by
  intro ch hch
  rw [mem_singleton.mp hch]
  exact trivial

theorem knownFields_mapFields (f : Variable → Variable) (cb : Codebase) (key : String) :
    (cb.mapFields f).knownFields key = (cb.knownFields key).map (mapVariableOf f) := by
  rw [knownFields, knownFields, find?_mapFields]
  cases cb.fields.find? key with
  | none => rfl
  | some t => exact Table.values_mapValues ..

theorem FieldsStand.after (h : cb.FieldsStand key s) (changes : List Change) :
    (cb.after changes).FieldsStand key s := by
  refine foldlRecOn (motive := fun cb => FieldsStand cb key s) changes Change.onCodebase h
    fun cb' hcb' ch _ => ?_
  cases ch with
  | record r => exact hcb'
  | var new =>
    rw [FieldsStand, Change.onCodebase, knownFields_mapFields]
    refine forall_mem_map.mpr fun d hd => ?_
    obtain ⟨hstanding, hfree⟩ := hcb' d hd
    refine ⟨(standing_mapVariableOf _ d).trans hstanding, ?_⟩
    unfold mapVariableOf
    split
    · exact fun ch hch => by rw [mem_singleton.mp hch]; exact trivial
    · exact hfree

theorem standing_merged {a b : Definition} (ha : a.standing = s) (hb : b.standing = s) :
    (a.merged b).1.standing = s := by
  unfold Definition.merged
  split
  · exact ha
  · rw [Definition.standing_absorbed, ha, hb, Standing.join_self]

/-- The code base with a field put in place. -/
def withField (cb : Codebase) (record name : String) (d : Definition) : Codebase :=
  { cb with fields := cb.fields.insert record (((cb.fields.find? record).getD {}).insert name d) }

section

variable (cb : Codebase) (record name : String) (d : Definition)

theorem knownFields_withField : (cb.withField record name d).knownFields record =
      (((cb.fields.find? record).getD {}).insert name d).values := by
  rw [knownFields, withField, Table.find?_insert, if_pos rfl]
  rfl

theorem knownFields_withField_ne_nil : (cb.withField record name d).knownFields record ≠ [] := by
  rw [knownFields_withField]
  have hfind : (((cb.fields.find? record).getD {}).insert name d).find? name = some d := by
    rw [Table.find?_insert, if_pos rfl]
  exact ne_nil_of_mem (Table.mem_values_of_find? hfind)

end

theorem FieldsStand.withField (h : cb.FieldsStand record s) (name : String) (hd : d.standing = s)
    (hfree : d.RecordFree) : (cb.withField record name d).FieldsStand record s := by
  intro x hx
  rw [knownFields_withField] at hx
  rcases Table.mem_values_insert hx with rfl | hx
  · exact ⟨hd, hfree⟩
  · exact h x hx

theorem sameAt_withField (hkey : key ≠ record) (name : String) (d : Definition) :
    SameAt key cb (cb.withField record name d) := by
  refine ⟨rfl, ?_⟩
  unfold fieldView withField
  rw [Table.find?_insert, if_neg hkey]

theorem knownFields_after_eq_nil_iff (cb : Codebase) (changes : List Change) (key : String) :
    (cb.after changes).knownFields key = [] ↔ cb.knownFields key = [] := by
  have hlists := congrArg (fun o => o.getD []) (sameAt_after cb changes key).2
  simp only [fieldView_getD] at hlists
  rw [← map_eq_nil_iff (f := Definition.standing), hlists, map_eq_nil_iff]

/-- The changes are none of records. -/
def RecordFree (changes : List Change) : Prop :=
  ∀ ch ∈ changes, ch.Everywhere (fun _ => False) (fun _ => True)

/-- A step that enters fields of one record, all of one standing. -/
structure FieldStep (record : String) (s : Standing) (cb : Codebase)
    (out : Codebase × List Change) : Prop where
  stands : out.1.FieldsStand record s
  free : RecordFree out.2
  types : ∀ key, out.1.typeView key = cb.typeView key
  same : ∀ key, key ≠ record → SameAt key cb out.1

theorem fieldStep_upsertedField (h : cb.FieldsStand record s) (hd : d.standing = s)
    (hfree : d.RecordFree) :
    FieldStep record s cb (cb.upsertedField record d) ∧
      (cb.upsertedField record d).1.knownFields record ≠ [] := by
  unfold upsertedField
  dsimp only
  cases hfind : ((cb.fields.find? record).getD {}).find? d.name with
  | none =>
    refine ⟨⟨h.withField d.name hd hfree, fun ch hch => absurd hch not_mem_nil, fun _ => rfl,
      fun key hkey => sameAt_withField hkey d.name d⟩, ?_⟩
    exact knownFields_withField_ne_nil cb record d.name d
  | some old =>
    obtain ⟨hold, holdfree⟩ := h old (Table.mem_values_of_find? hfind)
    have hV : Definition.CommentFree (fun _ => True) := fun _ _ _ _ => trivial
    have hmerged : (old.merged d).1.RecordFree ∧ (old.merged d).2.RecordFree := by
      unfold Definition.merged
      split
      · exact ⟨holdfree, hfree.absorbed hV holdfree⟩
      · exact ⟨holdfree.absorbed hV hfree, hfree⟩
    have hnew := h.withField d.name (standing_merged hold hd) hmerged.1
    refine ⟨⟨hnew.after _, forall_mem_append.mpr hmerged, fun key => (sameAt_after _ _ key).1,
      fun key hkey => ?_⟩, fun hnil => ?_⟩
    · exact (sameAt_withField hkey d.name (old.merged d).1).trans (sameAt_after _ _ key)
    · exact knownFields_withField_ne_nil cb record d.name (old.merged d).1
        ((knownFields_after_eq_nil_iff _ _ record).mp hnil)

theorem fieldStep_addedFields (h : cb.fields.find? r.name.value = none) :
    FieldStep r.name.value (r.fieldStanding c) cb (addedFields c r cb) ∧
      ((addedFields c r cb).1.knownFields r.name.value = [] ↔ r.members.getD [] = []) := by
  -- The induction is on the members that are left; some field is known from the first one on.
  have hwalk : ∀ (members : List Variable) (acc : Codebase × List Change),
      FieldStep r.name.value (r.fieldStanding c) cb acc →
      FieldStep r.name.value (r.fieldStanding c) cb (members.foldl (addedField c r) acc) ∧
        ((members.foldl (addedField c r) acc).1.knownFields r.name.value = [] ↔
          acc.1.knownFields r.name.value = [] ∧ members = []) := by
    intro members
    induction members with
    | nil => exact fun acc hacc => ⟨hacc, by simp⟩
    | cons member members ih =>
      intro acc hacc
      obtain ⟨hstep, hne⟩ := fieldStep_upsertedField hacc.stands
        (d := fieldDefinition (fieldVerdict c r) (member.after acc.2)) rfl
        (recordFree_fieldDefinition _ _)
      have hadded : FieldStep r.name.value (r.fieldStanding c) cb (addedField c r acc member) := by
        exact ⟨hstep.stands, forall_mem_append.mpr ⟨hacc.free, hstep.free⟩,
          fun key => (hstep.types key).trans (hacc.types key),
          fun key hkey => (hacc.same key hkey).trans (hstep.same key hkey)⟩
      obtain ⟨hall, hknown⟩ := ih (addedField c r acc member) hadded
      refine ⟨hall, ?_⟩
      rw [foldl_cons, hknown]
      exact iff_of_false (fun hnil => hne hnil.1) (fun hnil => cons_ne_nil _ _ hnil.2)
  have hnil : cb.knownFields r.name.value = [] := by
    rw [knownFields, h]
    rfl
  have hstart : FieldStep r.name.value (r.fieldStanding c) cb (cb, []) := by
    refine ⟨fun d hd => ?_, fun ch hch => absurd hch not_mem_nil, fun _ => rfl,
      fun _ _ => ⟨rfl, rfl⟩⟩
    rw [show (cb, ([] : List Change)).1.knownFields r.name.value = [] from hnil] at hd
    exact absurd hd not_mem_nil
  obtain ⟨hall, hknown⟩ := hwalk (r.members.getD []) (cb, []) hstart
  refine ⟨hall, hknown.trans ?_⟩
  exact and_iff_right hnil

/-! ## Entering records -/

/-- The standing of the record that encloses a record; the one of nothing if that is not
known. -/
def outerStanding (cb : Codebase) (r : RecordDecl) : Option Standing :=
  r.parent.map fun parent => ((cb.findType? parent).map Definition.standing).getD ⟨"", none⟩

theorem standing_verdictOf (c : Context) (cb : Codebase) (r : RecordDecl) :
    (recordDefinition (verdictOf c cb r) r).standing = r.standingIn c (cb.outerStanding r) := by
  unfold verdictOf standingIn outerStanding
  cases r.parent with
  | none => rfl
  | some parent =>
    dsimp only [Option.map_some]
    cases cb.findType? parent <;> rfl

/-- The code base knows the record and its fields, each with the standing it should have. -/
structure Shows (c : Context) (cb : Codebase) (outer : Option Standing) (r : RecordDecl) :
    Prop where
  type : cb.typeView r.name.value = some (some (r.standingIn c outer))
  fields : ∀ s ∈ (cb.fieldView r.name.value).getD [], s = r.fieldStanding c
  members : (cb.fieldView r.name.value).getD [] = [] ↔ r.members.getD [] = []

theorem Shows.sameAt (h : Shows c cb outer r) (hsame : SameAt r.name.value cb cb') :
    Shows c cb' outer r := by
  refine ⟨hsame.1.trans h.type, ?_, ?_⟩
  · rw [hsame.2]
    exact h.fields
  · rw [hsame.2]
    exact h.members

/-- The code base with a type put in place. -/
def withType (cb : Codebase) (d : Definition) : Codebase :=
  { cb with types := cb.types.insert d.name (.own d) }

theorem sameAt_withType (hkey : key ≠ d.name) : SameAt key cb (cb.withType d) := by
  refine ⟨?_, rfl⟩
  unfold typeView withType
  rw [Table.find?_insert, if_neg hkey]

theorem sameAt_restrictType (cb : Codebase) (v : Visibility.Verdict) (name key : String) :
    SameAt key cb (restrictType v name cb) := by
  unfold restrictType
  split <;> exact ⟨rfl, rfl⟩

/-- One new record. -/
theorem enteredRecord_shows (h : cb.Lacks r.name.value) :
    Shows c (enteredRecord c r cb).1 (cb.outerStanding r) r ∧
      RecordFree (enteredRecord c r cb).2 ∧
      ∀ key, key ≠ r.name.value → SameAt key cb (enteredRecord c r cb).1 := by
  let d := recordDefinition (verdictOf c cb r) r
  let cb₁ := restrictType (verdictOf c cb r) r.name.value (cb.withType d)
  have hentered : enteredRecord c r cb =
      (addRecordTypedefs r r.name.value (addedFields c r cb₁).1, [] ++ (addedFields c r cb₁).2) := by
    unfold enteredRecord
    dsimp only
    rw [upsertedType, show cb.findType? d.name = none from (findType?_of_find?_eq_none h.1).2]
    rfl
  have hother : ∀ key, key ≠ r.name.value → SameAt key cb cb₁ := fun key hkey =>
    (sameAt_withType hkey).trans (sameAt_restrictType _ _ _ key)
  have hfields : cb₁.fields.find? r.name.value = none := by
    have hview := (sameAt_restrictType (cb.withType d) (verdictOf c cb r) r.name.value
      r.name.value).2
    have hnone : (cb.withType d).fieldView r.name.value = none := (lacks_iff.mp h).2
    rw [hnone] at hview
    exact Option.map_eq_none_iff.mp hview
  obtain ⟨hstep, hmembers⟩ := fieldStep_addedFields (c := c) (r := r) hfields
  rw [hentered]
  refine ⟨⟨?_, fun s hs => ?_, ?_⟩, hstep.free, fun key hkey => ?_⟩
  · show (addedFields c r cb₁).1.typeView r.name.value = _
    rw [hstep.types, (sameAt_restrictType _ _ _ _).1, ← standing_verdictOf, typeView, withType]
    exact congrArg _ ((Table.find?_insert ..).trans (if_pos rfl))
  · rw [fieldView_getD] at hs
    obtain ⟨f, hf, rfl⟩ := mem_map.mp hs
    exact (hstep.stands f hf).1
  · show ((addedFields c r cb₁).1.fieldView r.name.value).getD [] = [] ↔ _
    rw [fieldView_getD, map_eq_nil_iff, hmembers]
  · exact (hother key hkey).trans (hstep.same key hkey)

/-! ## Trees of records -/

theorem after_mapTree (hf : RecordDecl.Superficial f) {changes : List Change}
    (h : RecordFree changes) :
    ∃ g, RecordDecl.Superficial g ∧ ∀ r : RecordDecl, (r.mapTree f).after changes = r.mapTree g := by
  induction changes generalizing f with
  | nil => exact ⟨f, hf, fun _ => rfl⟩
  | cons ch changes ih =>
    have hfirst := h ch mem_cons_self
    cases ch with
    | record r =>
      have hfalse : r.Everywhere (fun _ => False) (fun _ => True) := hfirst
      exact absurd hfalse.head id
    | var new =>
      obtain ⟨g, hg, hafter⟩ := ih ((superficial_mapOwn new.refresh).comp hf)
        fun ch hch => h ch (mem_cons_of_mem _ hch)
      refine ⟨g, hg, fun r => ?_⟩
      rw [← hafter r, ← mapTree_mapTree hf.isLocal]
      rfl

theorem Shows.sameFront (h : Shows c cb outer r') (hfront : r.SameFront r')
    (hmembers : r'.members.getD [] = [] ↔ r.members.getD [] = []) : Shows c cb outer r := by
  obtain ⟨htype, hfields, hempty⟩ := h
  rw [hfront.name, hfront.standingIn_eq] at htype
  rw [hfront.name, hfront.fieldStanding_eq] at hfields
  rw [hfront.name, hmembers] at hempty
  exact ⟨htype, hfields, hempty⟩

/-- The given records are shown, no change is one of a record, and nothing else has changed. -/
structure TreeStep (c : Context) (rs : List RecordDecl) (shown : List (Option Standing × RecordDecl))
    (cb : Codebase) (out : Codebase × List Change) : Prop where
  shown : ∀ p ∈ shown, Shows c out.1 p.1 p.2
  free : RecordFree out.2
  same : ∀ key, key ∉ rs.map (·.name.value) → SameAt key cb out.1

/-- The names of some records are different, and none of them is known. -/
structure AllNew (cb : Codebase) (rs : List RecordDecl) : Prop where
  nodup : (rs.map (·.name.value)).Nodup
  lacks : ∀ r ∈ rs, cb.Lacks r.name.value

theorem AllNew.sameAt {rs : List RecordDecl} (h : cb.AllNew rs)
    (hsame : ∀ r ∈ rs, SameAt r.name.value cb cb') : cb'.AllNew rs :=
  ⟨h.nodup, fun r hr => (h.lacks r hr).sameAt (hsame r hr)⟩

/-- The records inside, one after the other. -/
theorem treeStep_nested {step : Codebase × List Change → RecordDecl → Codebase × List Change}
    {ns : List RecordDecl}
    (hstep : ∀ acc, ∀ n ∈ ns, acc.1.AllNew n.records →
      acc.1.typeView r.name.value = some (some (r.standingIn c outer)) →
      RecordFree acc.2 →
      TreeStep c n.records (n.within c (some (r.standingIn c outer))) acc.1 (step acc n))
    {acc : Codebase × List Change} (hnew : acc.1.AllNew (ns.flatMap records))
    (hr : r.name.value ∉ (ns.flatMap records).map (·.name.value))
    (htype : acc.1.typeView r.name.value = some (some (r.standingIn c outer)))
    (hfree : RecordFree acc.2) :
    TreeStep c (ns.flatMap records)
      (ns.flatMap (within c (some (r.standingIn c outer)))) acc.1 (ns.foldl step acc) := by
  induction ns generalizing acc with
  | nil => exact ⟨fun p hp => absurd hp not_mem_nil, hfree, fun _ _ => ⟨rfl, rfl⟩⟩
  | cons n ns ih =>
    rw [flatMap_cons] at hnew hr
    have hnodup := hnew.nodup
    rw [map_append] at hnodup hr
    have hdisjoint := (nodup_append.mp hnodup).2.2
    -- The first tree is new, and leaves the others new.
    have hfirst := hstep acc n mem_cons_self
      ⟨(nodup_append.mp hnodup).1, fun x hx => hnew.lacks x (mem_append_left _ hx)⟩ htype
      hfree
    have hothers : (step acc n).1.AllNew (ns.flatMap records) := by
      have hbefore : acc.1.AllNew (ns.flatMap records) :=
        ⟨(nodup_append.mp hnodup).2.1, fun x hx => hnew.lacks x (mem_append_right _ hx)⟩
      refine hbefore.sameAt fun x hx => hfirst.same _ fun hmem => ?_
      exact hdisjoint _ hmem _ (mem_map_of_mem hx) rfl
    have hrest := ih (fun acc n hn => hstep acc n (mem_cons_of_mem _ hn)) hothers
      (fun hmem => hr (mem_append_right _ hmem))
      ((hfirst.same _ fun hmem => hr (mem_append_left _ hmem)).1.trans htype) hfirst.free
    refine ⟨fun p hp => ?_, hrest.free, fun key hkey => ?_⟩
    · rcases mem_append.mp hp with hp | hp
      · refine (hfirst.shown p hp).sameAt (hrest.same _ fun hmem => ?_)
        have hname := mem_map_of_mem (f := fun x : RecordDecl => x.name.value)
          (mem_records_of_mem_within hp)
        exact hdisjoint _ hname _ hmem rfl
      · exact hrest.shown p hp
    · rw [flatMap_cons, map_append] at hkey
      exact (hfirst.same key fun hmem => hkey (mem_append_left _ hmem)).trans
        (hrest.same key fun hmem => hkey (mem_append_right _ hmem))

theorem treeStep_of_nested {out : Codebase × List Change}
    (hroot : Shows c cb₁ outer r) (hsame : ∀ key, key ≠ r.name.value → SameAt key cb cb₁)
    (hr : r.name.value ∉ ((r.nested.getD []).flatMap records).map (·.name.value))
    (hinner : TreeStep c ((r.nested.getD []).flatMap records)
      ((r.nested.getD []).flatMap (within c (some (r.standingIn c outer)))) cb₁ out) :
    TreeStep c r.records (r.within c outer) cb out := by
  refine ⟨fun p hp => ?_, hinner.free, fun key hkey => ?_⟩
  · rw [within_eq] at hp
    rcases mem_cons.mp hp with rfl | hp
    · exact hroot.sameAt (hinner.same _ hr)
    · exact hinner.shown p hp
  · rw [records_eq, map_cons, mem_cons, not_or] at hkey
    exact (hsame key hkey.1).trans (hinner.same key hkey.2)

/-- A tree of new records. The induction is on the length of the body, as the entering itself. -/
theorem treeStep_addedTree (hr : r.WellNested) (hf : RecordDecl.Superficial f)
    (hnew : cb.AllNew r.records) :
    TreeStep c r.records (r.within c (cb.outerStanding r)) cb (addedTree c (r.mapTree f) cb) := by
  induction hsize : r.bodyLength using Nat.strongRecOn generalizing r f cb with
  | ind size ih =>
    subst hsize
    have hfront := hf.mapTree r
    have hnodup := hnew.nodup
    rw [records_eq, map_cons, nodup_cons] at hnodup
    have hlacks : cb.Lacks (r.mapTree f).name.value := by
      rw [hfront.name]
      exact hnew.lacks r r.mem_records_self
    obtain ⟨hshown, hfree, hsame⟩ := enteredRecord_shows (c := c) hlacks
    rw [outerStanding, hfront.parent] at hshown
    have hroot := hshown.sameFront hfront (hf.members_mapTree r)
    rw [hfront.name] at hsame
    obtain ⟨g, hg, hafter⟩ := after_mapTree hf hfree
    cases hr with
    | intro parent shorter nested =>
      rw [addedTree]
      rw [hafter r, hg.nested_mapTree, foldl_map]
      refine treeStep_of_nested hroot hsame hnodup.1 (treeStep_nested
        (fun acc n hn hnnew htype hnfree => ?_) ?_ hnodup.1 hroot.type hfree)
      · obtain ⟨g', hg', hafter'⟩ := after_mapTree hg hnfree
        have hlength : (n.mapTree g').bodyLength < (r.mapTree f).bodyLength := by
          rw [(hg'.mapTree n).bodyLength, hfront.bodyLength]
          exact shorter n hn
        have houter : acc.1.outerStanding n = some (r.standingIn c (cb.outerStanding r)) := by
          obtain ⟨d, hd, hstanding⟩ := exists_findType?_of_typeView htype
          unfold outerStanding
          rw [parent n hn, Option.map_some, hd, Option.map_some, Option.getD_some, hstanding]
          rfl
        have hadded := ih _ (shorter n hn) (nested n hn) hg' hnnew rfl
        rw [houter] at hadded
        rw [hafter' n, dif_pos hlength]
        exact ⟨hadded.shown, forall_mem_append.mpr ⟨hnfree, hadded.free⟩, hadded.same⟩
      · have hnested : cb.AllNew ((r.nested.getD []).flatMap records) := by
          refine ⟨hnodup.2, fun x hx => hnew.lacks x ?_⟩
          rw [records_eq]
          exact mem_cons_of_mem _ hx
        refine hnested.sameAt fun x hx => hsame _ fun heq => hnodup.1 ?_
        rw [← heq]
        exact mem_map_of_mem hx

theorem Shows.agree_iff (h : Shows c cb outer r) :
    ∃ d, cb.findType? r.name.value = some d ∧ d.standing = r.standingIn c outer ∧
      ((∀ f ∈ cb.knownFields r.name.value,
        f.isPrivate = d.isPrivate ∧ f.moduleName = d.moduleName) ↔
          r.members.getD [] = [] ∨ r.HandsDown c outer) := by
  obtain ⟨d, hd, hstanding⟩ := exists_findType?_of_typeView h.type
  have hfields := h.fields
  have hmembers := h.members
  rw [fieldView_getD] at hfields hmembers
  rw [map_eq_nil_iff] at hmembers
  refine ⟨d, hd, hstanding, ?_⟩
  rw [← hmembers, ← fieldStanding_eq_iff, ← hstanding]
  constructor
  · intro hall
    cases hknown : cb.knownFields r.name.value with
    | nil => exact .inl rfl
    | cons f fs =>
      have hf : f ∈ cb.knownFields r.name.value := by
        rw [hknown]
        exact mem_cons_self
      obtain ⟨hprivate, hmodule⟩ := hall f hf
      refine .inr ?_
      rw [← hfields _ (mem_map_of_mem hf)]
      unfold Definition.standing
      rw [hprivate, hmodule]
  · rintro (hnil | heq) f hf
    · rw [hnil] at hf
      exact absurd hf not_mem_nil
    · have hf' := (hfields _ (mem_map_of_mem hf)).trans heq
      exact ⟨congrArg Standing.isPrivate hf', congrArg Standing.moduleName hf'⟩

/-- **When the fields of a record have the standing of the record.** After a record of a new name
was entered, its fields have its privacy and module exactly if it has none or hands its standing
down; so it is for each record as it is entered, and for all records of a tree. -/
theorem addRecord_hands_down_iff (c : Context) (isGlobal : Bool) (cb : Codebase) :
    (∀ r : RecordDecl, cb.Lacks r.name.value →
      ∃ out d, (enterRecord c isGlobal r cb).start.1 = .ok out ∧
        out.1.findType? r.name.value = some d ∧
        ((∀ f ∈ out.1.knownFields r.name.value,
          f.isPrivate = d.isPrivate ∧ f.moduleName = d.moduleName) ↔
            r.members.getD [] = [] ∨ r.HandsDown c (cb.outerStanding r))) ∧
    ∀ (ts : List Token) (r r' : RecordDecl), RecordDecl.ofTokens c ts none = .ok (some r) →
      r.withMembers c = .ok r' → cb.AllNew r'.records →
      ∃ out, (addRecord c isGlobal r cb).start.1 = .ok out ∧
        ∀ p ∈ r'.within c none, ∃ d, out.1.findType? p.2.name.value = some d ∧
          d.standing = p.2.standingIn c p.1 ∧
          ((∀ f ∈ out.1.knownFields p.2.name.value,
            f.isPrivate = d.isPrivate ∧ f.moduleName = d.moduleName) ↔
              p.2.members.getD [] = [] ∨ p.2.HandsDown c p.1) := by
  constructor
  · intro r hlacks
    obtain ⟨hshown, -, -⟩ := enteredRecord_shows (c := c) hlacks
    obtain ⟨d, hd, -, hiff⟩ := hshown.agree_iff
    exact ⟨_, d, (answers_enterRecord c isGlobal r cb).start_fst, hd, hiff⟩
  · intro ts r r' hread hmembers hnew
    have hunread := unread_ofTokens hread
    have hparent : r'.parent = none :=
      (sameFront_withMembers hmembers).parent.trans hunread.parent_eq
    have hnumbered : ({ cb with entries := cb.entries + 1 } : Codebase).AllNew r'.records :=
      ⟨hnew.nodup, hnew.lacks⟩
    have hstep := treeStep_addedTree (c := c) (wellNested_withMembers hunread hmembers)
      (superficial_renumberOwn fun _ => cb.entries + 1) hnumbered
    have houter : ({ cb with entries := cb.entries + 1 } : Codebase).outerStanding r' = none := by
      rw [outerStanding, hparent]
      rfl
    rw [houter] at hstep
    have hanswer : Answers (addRecord c isGlobal r cb) (.ok
        ((addedTree c (r'.renumber fun _ => cb.entries + 1) { cb with entries := cb.entries + 1 }).1,
          (r'.renumber fun _ => cb.entries + 1).after (addedTree c
            (r'.renumber fun _ => cb.entries + 1) { cb with entries := cb.entries + 1 }).2)) := by
      rw [addRecord, hmembers]
      exact (answers_addTree c isGlobal _ _).bind_pure
    exact ⟨_, hanswer.start_fst, fun p hp => (hstep.shown p hp).agree_iff⟩

/-- A record inside a private one, with one field. -/
def innerRecord : RecordDecl where
  name := ⟨0, ⟨0, 2⟩, "II", none⟩
  members := some [{ name := ⟨0, ⟨0, 1⟩, "xx", none⟩, type := none }]
  parent := some "OO"

/-- The private record around it. -/
def outerRecord : Definition where
  name := "OO"
  kind := "record"
  scope := .blank
  offset := 0
  moduleName := ""
  isPrivate := some true

/-- The code base that knows it. -/
def outerBase : Codebase where
  types := ⟨[("OO", .own outerRecord)]⟩

/-- A file of one module with a record whose name is of another module. -/
def foreignContext : Context where
  workspace := { modules := ⟨[("m", .make "m" "" [] []), ("n", .make "n" "" [] [])]⟩ }
  scopes := [⟨{ name := "src/m/a.h", moduleName := "m" }, 0⟩]

/-- That record. -/
def foreignTokens : List Token := Token.scan "struct __wt_n_rec \x7b int xx; \x7d;".toList 0

theorem foreignTokens_read :
    (((ofTokens foreignContext foreignTokens none).toOption.join.bind fun r =>
      (r.withMembers foreignContext).toOption).map fun r => (r.name.value, r.nested.isNone,
        (r.members.getD []).isEmpty, (Visibility.annotationOf? (.record r)).isSome,
        Visibility.saidModule foreignContext.workspace (.record r))) =
      some ("__wt_n_rec", true, false, false, some "n") := by
  decide +kernel

/-- A field in a record of a private record is not private, and one on the top level of a file may
not have the module of its record. -/
theorem addRecord_hands_down_iff_lost :
    (∃ out d, (enterRecord {} true innerRecord outerBase).start.1 = .ok out ∧
      out.1.findType? "II" = some d ∧
      ¬ ∀ f ∈ out.1.knownFields "II", f.isPrivate = d.isPrivate ∧ f.moduleName = d.moduleName) ∧
    ∃ r out d, RecordDecl.ofTokens foreignContext foreignTokens none = .ok (some r) ∧
      (addRecord foreignContext true r {}).start.1 = .ok out ∧
      out.1.findType? "__wt_n_rec" = some d ∧
      ¬ ∀ f ∈ out.1.knownFields "__wt_n_rec",
        f.isPrivate = d.isPrivate ∧ f.moduleName = d.moduleName := by
  constructor
  · obtain ⟨out, d, hout, hd, hiff⟩ := (addRecord_hands_down_iff {} true outerBase).1 innerRecord
      ⟨rfl, rfl⟩
    refine ⟨out, d, hout, hd, fun hall => ?_⟩
    rcases hiff.mp hall with hnil | hdown
    · exact absurd hnil (cons_ne_nil _ _)
    · have hsilent : Visibility.saidPrivacy {} (.record innerRecord) = none := by decide
      exact absurd (hdown.1 hsilent) (by decide)
  · obtain ⟨r', hread, hfacts⟩ := Option.map_eq_some_iff.mp foreignTokens_read
    obtain ⟨r, hr, hmembers⟩ := Option.bind_eq_some_iff.mp hread
    simp only [Prod.mk.injEq] at hfacts
    obtain ⟨hname, hnested, hne, hsilent, hmodule⟩ := hfacts
    have hr : ofTokens foreignContext foreignTokens none = .ok (some r) :=
      Fault.eq_ok_of_toOption (Option.join_eq_some_iff.mp hr)
    have hmembers : r.withMembers foreignContext = .ok r' := Fault.eq_ok_of_toOption hmembers
    have hleaf : r'.nested.getD [] = [] := by
      rw [Option.isNone_iff_eq_none.mp hnested]
      rfl
    have hnew : ({} : Codebase).AllNew r'.records := by
      rw [records_eq, hleaf]
      exact ⟨nodup_singleton _, fun _ _ => ⟨rfl, rfl⟩⟩
    obtain ⟨out, hout, hall⟩ := (addRecord_hands_down_iff foreignContext true {}).2 foreignTokens r r'
      hr hmembers hnew
    have hroot : (none, r') ∈ r'.within foreignContext none := by
      rw [within_eq]
      exact mem_cons_self
    obtain ⟨d, hd, -, hiff⟩ := hall (none, r') hroot
    rw [hname] at hd hiff
    refine ⟨r, out, d, hr, hout, hd, fun hagree => ?_⟩
    rcases hiff.mp hagree with hnil | hannotated | hfile | hown
    · rw [hnil] at hne
      cases hne
    · rw [hannotated] at hsilent
      cases hsilent
    · exact absurd hfile (by decide)
    · exact absurd (hown "n" hmodule) (by decide)

end Codebase

end CBoundary
