import CBoundary.Proofs.Code.Records

/-!
# Entering records beside others

Entering records with names of their own into a code base that holds others has the same effect
as entering them into one without records, apart from their numbers.
-/

namespace CBoundary.Codebase

open List RecordDecl

variable {K K' : String → Prop} {n : Nat}
variable {f : Nat → Nat}

/-! ## One code base beside another -/

/-- The entry with new numbers. -/
def renumberEntry (f : Nat → Nat) : TypeEntry → TypeEntry
  | .own d => .own (d.renumber f)
  | .further canonical => .further canonical

/-- The code base holds the records of the second one, numbered on from the first, and beside them
those of the first under other names. -/
structure Beside (old src cb : Codebase) : Prop where
  entries : cb.entries = old.entries + src.entries
  types : ∀ key, cb.types.find? key =
    ((src.types.find? key).map (renumberEntry (old.entries + ·))).or (old.types.find? key)
  fields : ∀ record, cb.fields.find? record = ((src.fields.find? record).map
      (Table.mapValues (Definition.renumber (old.entries + ·)))).or (old.fields.find? record)
  typedefs : ∀ name, cb.typedefs.find? name = (src.typedefs.find? name).or (old.typedefs.find? name)

theorem mapRecordOf_renumberEntry {g g' : RecordDecl → RecordDecl}
    (h : ∀ r, g' (r.renumber f) = (g r).renumber f) (e : TypeEntry) :
    mapRecordOf g' (renumberEntry f e) = renumberEntry f (mapRecordOf g e) := by
  cases e with
  | further canonical => rfl
  | own d =>
    obtain ⟨name, kind, scope, offset, moduleName, isPrivate, details⟩ := d
    cases details with
    | none => rfl
    | some details =>
      cases details with
      | record r =>
        exact congrArg (fun r' => TypeEntry.own
          ⟨name, kind, scope, offset, moduleName, isPrivate, some (.record r')⟩) (h r)
      | _ => rfl

theorem mapVariableOf_renumber {g g' : Variable → Variable}
    (h : ∀ v, g' (renumberVariable f v) = renumberVariable f (g v)) (d : Definition) :
    mapVariableOf g' (d.renumber f) = (mapVariableOf g d).renumber f := by
  obtain ⟨name, kind, scope, offset, moduleName, isPrivate, details⟩ := d
  cases details with
  | none => rfl
  | some details =>
    cases details with
    | var v =>
      exact congrArg (fun v' => Definition.mk
        name kind scope offset moduleName isPrivate (some (.var v'))) (h v)
    | _ => rfl

section Beside

variable {old src cb : Codebase}
variable {g : RecordDecl → RecordDecl} {record key : String}

theorem Beside.mapRecords (hb : Beside old src cb) {g' : RecordDecl → RecordDecl}
    (hsrc : ∀ r, g' (r.renumber (old.entries + ·)) = (g r).renumber (old.entries + ·))
    (hold : ∀ key e, old.types.find? key = some e → mapRecordOf g' e = e) :
    Beside old (src.mapRecords g) (cb.mapRecords g') := by
  refine ⟨hb.entries, fun key => ?_, hb.fields, hb.typedefs⟩
  have hother : (old.types.find? key).map (mapRecordOf g') = old.types.find? key := by
    cases hfind : old.types.find? key with
    | none => rfl
    | some e => rw [Option.map_some, hold key e hfind]
  rw [find?_mapRecords, find?_mapRecords, hb.types, Option.map_or, hother, Option.map_map,
    Option.map_map]
  refine congrArg (fun o => Option.or o _) (congrArg (fun h => Option.map h _) ?_)
  funext e
  exact mapRecordOf_renumberEntry hsrc e

theorem Beside.mapFields (hb : Beside old src cb) {g g' : Variable → Variable}
    (hsrc : ∀ v, g' (renumberVariable (old.entries + ·) v) =
      renumberVariable (old.entries + ·) (g v))
    (hold : ∀ record t, old.fields.find? record = some t → t.mapValues (mapVariableOf g') = t) :
    Beside old (src.mapFields g) (cb.mapFields g') := by
  refine ⟨hb.entries, hb.types, fun record => ?_, hb.typedefs⟩
  have hother : (old.fields.find? record).map (Table.mapValues (mapVariableOf g')) =
      old.fields.find? record := by
    cases hfind : old.fields.find? record with
    | none => rfl
    | some t => rw [Option.map_some, hold record t hfind]
  rw [find?_mapFields, find?_mapFields, hb.fields, Option.map_or, hother, Option.map_map,
    Option.map_map]
  refine congrArg (fun o => Option.or o _) (congrArg (fun h => Option.map h _) ?_)
  funext t
  show (t.mapValues _).mapValues _ = (t.mapValues _).mapValues _
  rw [Table.mapValues_mapValues, Table.mapValues_mapValues]
  refine congrArg (fun h => Table.mapValues h t) ?_
  funext d
  exact mapVariableOf_renumber hsrc d

theorem Holds.mapRecordOf_eq_self (h : cb.Holds K n)
    (hg : ∀ r, r.Everywhere (RecordDecl.Numbered K n) (Variable.Numbered n) → g r = r) :
    ∀ key e, cb.types.find? key = some e → mapRecordOf g e = e := by
  intro key e he
  obtain ⟨-, d, rfl, -, r, hr, hall⟩ := h.type he
  rw [mapRecordOf_own hr, hg r hall, ← hr]

theorem Holds.mapVariableOf_eq_self (h : cb.Holds K n) {g : Variable → Variable}
    (hg : ∀ v, v.Numbered n → g v = v) :
    ∀ record t, cb.fields.find? record = some t → t.mapValues (mapVariableOf g) = t := by
  intro record t ht
  refine Table.mapValues_eq_self fun e he => ?_
  obtain ⟨-, v, hv, hnumber⟩ := (h.fieldsIn ht).2 e he
  rw [mapVariableOf_var hv, hg v hnumber, ← hv]

/-- A change keeps the two side by side. -/
theorem Beside.onCodebase (hb : Beside old src cb) (hold : old.Holds K' old.entries) {ch : Change}
    (hch : ch.Everywhere (RecordDecl.Numbered K n) (Variable.Numbered n)) :
    Beside old (ch.onCodebase src) ((ch.renumber (old.entries + ·)).onCodebase cb) := by
  have hinj : ∀ i j, old.entries + i = old.entries + j → i = j := fun _ _ => Nat.add_left_cancel
  cases ch with
  | record new =>
    have hnew : old.entries < (new.renumber (old.entries + ·)).entry := by
      rw [renumber_entry]
      have hfirst : 1 ≤ new.entry := hch.head.2.2.1
      omega
    refine hb.mapRecords (fun r => (renumber_refresh hinj new r).symm) ?_
    refine hold.mapRecordOf_eq_self fun r hr => ?_
    exact refresh_eq_self (hr.imp (fun h hh => hh.2.2.2) fun v hv => hv) hnew
  | var new =>
    have hnew : old.entries < (renumberVariable (old.entries + ·) new).entry := by
      have hfirst : 1 ≤ new.entry := hch.1
      show old.entries < old.entries + new.entry
      omega
    have hrecords := hb.mapRecords
      (fun r => (renumber_refreshVariable hinj new r).symm)
      (hold.mapRecordOf_eq_self fun r hr =>
        refreshVariable_eq_self (hr.imp (fun h hh => hh) fun v hv => hv.2) hnew)
    refine hrecords.mapFields (fun v => (renumberVariable_refresh hinj new v).symm) ?_
    exact hold.mapVariableOf_eq_self fun v hv => refresh_variable_eq_self hv.2 hnew

theorem Beside.after (hb : Beside old src cb) (hold : old.Holds K' old.entries)
    {changes : List Change}
    (hchanges : ∀ ch ∈ changes, ch.Everywhere (RecordDecl.Numbered K n) (Variable.Numbered n)) :
    Beside old (src.after changes) (cb.after (changes.map (Change.renumber (old.entries + ·)))) := by
  induction changes generalizing src cb with
  | nil => exact hb
  | cons ch changes ih =>
    exact ih (hb.onCodebase hold (hchanges ch mem_cons_self))
      fun ch' hch' => hchanges ch' (mem_cons_of_mem ch hch')

theorem Beside.insertType (hb : Beside old src cb) (key : String) (d : Definition) :
    Beside old { src with types := src.types.insert key (.own d) }
      { cb with types := cb.types.insert key (.own (d.renumber (old.entries + ·))) } := by
  refine ⟨hb.entries, fun key' => ?_, hb.fields, hb.typedefs⟩
  rw [Table.find?_insert, Table.find?_insert]
  split
  · rfl
  · exact hb.types key'

/-- The code base has no record by any of the names. -/
def Apart (K : String → Prop) (cb : Codebase) : Prop :=
  ∀ key, K key → cb.types.find? key = none ∧ cb.fields.find? key = none

theorem Holds.apart (h : old.Holds K' n) (hK : ∀ key, K key → ¬ K' key) : old.Apart K := by
  intro key hkey
  constructor
  · cases hfind : old.types.find? key with
    | none => rfl
    | some e => exact absurd (h.type hfind).1 (hK key hkey)
  · cases hfind : old.fields.find? key with
    | none => rfl
    | some t => exact absurd (h.fieldsIn hfind).1 (hK key hkey)

variable (hb : Beside old src cb) (hold : old.Apart K)

include hb hold

theorem Beside.fieldsOf (hrecord : K record) :
    (cb.fields.find? record).getD {} = ((src.fields.find? record).getD {}).mapValues
      (Definition.renumber (old.entries + ·)) := by
  rw [hb.fields, (hold record hrecord).2, Option.or_none]
  cases src.fields.find? record <;> rfl

theorem Beside.insertField (hrecord : K record) (name : String) (d : Definition) : Beside old
      { src with
        fields := src.fields.insert record (((src.fields.find? record).getD {}).insert name d) }
      { cb with
        fields := cb.fields.insert record (((cb.fields.find? record).getD {}).insert name
          (d.renumber (old.entries + ·))) } := by
  refine ⟨hb.entries, hb.types, fun record' => ?_, hb.typedefs⟩
  rw [Table.find?_insert, Table.find?_insert]
  split
  · rw [hb.fieldsOf hold hrecord, ← Table.mapValues_insert]
    rfl
  · exact hb.fields record'

theorem Beside.findType? (hsrc : src.Holds K n) (hkey : K key) : cb.canonicalType key = key ∧
      cb.findType? key = (src.findType? key).map (Definition.renumber (old.entries + ·)) := by
  have htypes := hb.types key
  rw [(hold key hkey).1, Option.or_none] at htypes
  obtain ⟨-, ⟨hentry, hfind⟩ | ⟨d, hentry, hfind, -⟩⟩ := hsrc.findType?_cases key
  · rw [hentry, Option.map_none] at htypes
    rw [hfind]
    exact findType?_of_find?_eq_none htypes
  · rw [hentry] at htypes
    rw [hfind]
    exact findType?_of_find?_eq_own htypes

end Beside

/-! ## Entering records side by side

The same records are entered into a code base without others and into one that holds
others.  At every step the two hold the same about them, and the changes are the same,
apart from the numbers. -/

/-- Two states of entering records, the second one beside other records. -/
structure Follows (old : Codebase) (K : String → Prop) (n : Nat)
    (acc acc' : Codebase × List Change) : Prop where
  beside : Beside old acc.1 acc'.1
  changes : acc'.2 = acc.2.map (Change.renumber (old.entries + ·))
  holds : acc.1.Holds K n ∧ acc.1.Orderly
  said : ∀ ch ∈ acc.2, ch.Everywhere (RecordDecl.Numbered K n) (Variable.Numbered n)

section Follows

variable {old src cb : Codebase} {acc acc' : Codebase × List Change} {r : RecordDecl}
  {c : Context}
variable {d : Definition}

theorem changes_renumber (f : Nat → Nat) (a b : Definition) :
    Change.ofDefinition ((a.renumber f).merged (b.renumber f)).1 ++
        Change.ofDefinition ((a.renumber f).merged (b.renumber f)).2 =
      (Change.ofDefinition (a.merged b).1 ++ Change.ofDefinition (a.merged b).2).map
        (Change.renumber f) := by
  rw [Definition.renumber_merged, map_append]
  rw [Change.ofDefinition_renumber, Change.ofDefinition_renumber]

theorem beside_upsertedType (hb : Beside old src cb) (hold : old.Holds K' old.entries)
    (hapart : old.Apart K) (hsrc : src.Holds K n) (hkey : K d.name)
    (hd : d.HoldsRecord K n d.name) :
    Beside old (src.upsertedType d).1 (cb.upsertedType (d.renumber (old.entries + ·))).1 ∧
      (cb.upsertedType (d.renumber (old.entries + ·))).2 =
        (src.upsertedType d).2.map (Change.renumber (old.entries + ·)) := by
  have hname : (d.renumber (old.entries + ·)).name = d.name := rfl
  have hsaid := (lasting_holds.upsertedType hsrc ⟨hkey, d, rfl, hd⟩).2
  obtain ⟨hcanonical, hfind⟩ := hb.findType? hapart hsrc hkey
  obtain ⟨hcanonical', ⟨-, hfind'⟩ | ⟨a, -, hfind', ha⟩⟩ := hsrc.findType?_cases d.name
  · unfold upsertedType
    rw [hname, hfind, hfind']
    exact ⟨hb.insertType d.name d, rfl⟩
  · unfold upsertedType at hsaid ⊢
    rw [hfind'] at hsaid
    rw [hname, hfind, hfind', hcanonical, hcanonical']
    dsimp only [Option.map_some]
    rw [changes_renumber, Definition.renumber_merged]
    exact ⟨(hb.insertType d.name (a.merged d).1).after hold hsaid, rfl⟩

theorem beside_upsertedField (hb : Beside old src cb) (hold : old.Holds K' old.entries)
    (hapart : old.Apart K) (hsrc : src.Holds K n) {record : String} (hrecord : K record)
    (hd : d.HoldsField n d.name) :
    Beside old (src.upsertedField record d).1
        (cb.upsertedField record (d.renumber (old.entries + ·))).1 ∧
      (cb.upsertedField record (d.renumber (old.entries + ·))).2 =
        (src.upsertedField record d).2.map (Change.renumber (old.entries + ·)) := by
  have hname : (d.renumber (old.entries + ·)).name = d.name := rfl
  have hfields := hb.fieldsOf hapart hrecord
  have hfind : ((cb.fields.find? record).getD {}).find? d.name =
      (((src.fields.find? record).getD {}).find? d.name).map
        (Definition.renumber (old.entries + ·)) := by
    rw [hfields, Table.find?_mapValues]
  have hsaid := (lasting_holds.upsertedField hsrc hrecord hd).2
  unfold upsertedField at hsaid ⊢
  dsimp only at hsaid ⊢
  rw [hname, hfind]
  cases hfind' : ((src.fields.find? record).getD {}).find? d.name with
  | none => exact ⟨hb.insertField hapart hrecord d.name d, rfl⟩
  | some a =>
    rw [hfind'] at hsaid
    dsimp only [Option.map_some]
    rw [changes_renumber, Definition.renumber_merged]
    exact ⟨(hb.insertField hapart hrecord d.name (a.merged d).1).after hold hsaid, rfl⟩

theorem Follows.addedField (h : Follows old K n acc acc') (hold : old.Holds K' old.entries)
    (hapart : old.Apart K) (hr : r.Everywhere (RecordDecl.Numbered K n) (Variable.Numbered n))
    {member : Variable} (hmember : member.Numbered n) :
    Follows old K n (addedField c r acc member)
      (addedField c (r.renumber (old.entries + ·)) acc'
        (renumberVariable (old.entries + ·) member)) := by
  have hafter := lasts_everywhere.variable_after hmember h.said
  have hfield : (fieldDefinition (fieldVerdict c r) (member.after acc.2)).HoldsField n
      (member.after acc.2).name.value := ⟨rfl, _, rfl, hafter⟩
  have hkey : K r.name.value := hr.head.1
  obtain ⟨hbeside, hchanges⟩ := beside_upsertedField h.beside hold hapart h.holds.1 hkey hfield
  obtain ⟨hholds, hsaid⟩ := enters_holds.field (c := c) acc.1 r _ h.holds hr hafter
  have hadded : Codebase.addedField c (r.renumber (old.entries + ·)) acc'
      (renumberVariable (old.entries + ·) member) =
      ((acc'.1.upsertedField r.name.value ((fieldDefinition (fieldVerdict c r)
          (member.after acc.2)).renumber (old.entries + ·))).1,
        acc'.2 ++ (acc'.1.upsertedField r.name.value ((fieldDefinition (fieldVerdict c r)
          (member.after acc.2)).renumber (old.entries + ·))).2) := by
    unfold Codebase.addedField fieldVerdict
    rw [h.changes, Variable.renumber_after (fun _ _ => Nat.add_left_cancel), renumber_name,
      Visibility.verdict_renumber]
    rfl
  rw [hadded]
  refine ⟨hbeside, ?_, hholds, forall_mem_append.mpr ⟨h.said, hsaid⟩⟩
  show acc'.2 ++ _ = (acc.2 ++ _).map _
  rw [map_append, ← hchanges, ← h.changes]

variable (hb : Beside old src cb)

include hb

theorem follows_addedFields (hold : old.Holds K' old.entries) (hapart : old.Apart K)
    (hsrc : src.Holds K n ∧ src.Orderly)
    (hr : r.Everywhere (RecordDecl.Numbered K n) (Variable.Numbered n)) :
    Follows old K n (addedFields c r src) (addedFields c (r.renumber (old.entries + ·)) cb) := by
  have hmembers : (r.renumber (old.entries + ·)).members.getD [] =
      (r.members.getD []).map (renumberVariable (old.entries + ·)) := by
    rw [renumber_eq]
    exact Option.getD_map (List.map _) [] r.members
  unfold addedFields
  rw [hmembers, foldl_map]
  refine foldl_rel (r := Follows old K n) ⟨hb, rfl, hsrc, forall_mem_nil _⟩
    fun member hmember acc acc' h => ?_
  exact h.addedField hold hapart hr (hr.own member (mem_append_left _ hmember))

theorem verdictOf_renumber (hapart : old.Apart K) (hsrc : src.Holds K n)
    (hr : r.Everywhere (RecordDecl.Numbered K n) (Variable.Numbered n)) :
    verdictOf c cb (r.renumber (old.entries + ·)) = verdictOf c src r := by
  unfold verdictOf
  rw [renumber_parent]
  cases hparent : r.parent with
  | none => exact Visibility.verdict_renumber _ _ _ _ _
  | some parent =>
    have hfind := (hb.findType? hapart hsrc (hr.head.2.1 parent hparent)).2
    dsimp only
    rw [Visibility.verdict_renumber, hfind]
    cases src.findType? parent <;> rfl

theorem Beside.restrictType (v : Visibility.Verdict) (key : String) :
    Beside old (restrictType v key src) (restrictType v key cb) := by
  unfold Codebase.restrictType
  split
  · exact ⟨hb.entries, hb.types, hb.fields, hb.typedefs⟩
  · exact hb

theorem Beside.insertTypedef (name base : String) :
    Beside old { src with typedefs := src.typedefs.insert name base }
      { cb with typedefs := cb.typedefs.insert name base } := by
  refine ⟨hb.entries, hb.types, hb.fields, fun name' => ?_⟩
  rw [Table.find?_insert, Table.find?_insert]
  split
  · rfl
  · exact hb.typedefs name'

theorem Beside.addRecordTypedefs (r : RecordDecl) (key : String) (f : Nat → Nat) :
    Beside old (addRecordTypedefs r key src) (addRecordTypedefs (r.renumber f) key cb) := by
  have htypedefs : (r.renumber f).typedefs.getD [] =
      (r.typedefs.getD []).map (renumberVariable f) := by
    rw [renumber_eq]
    exact Option.getD_map (List.map _) [] r.typedefs
  have hwalk : ∀ (l : List Variable) (src cb : Codebase), Beside old src cb →
      Beside old { src with typedefs := l.foldl (fun t v => t.insert v.name.value key) src.typedefs }
        { cb with typedefs := l.foldl (fun t v => t.insert v.name.value key) cb.typedefs } := by
    intro l
    induction l with
    | nil => exact fun src cb hb => hb
    | cons v l ih => exact fun src cb hb => ih _ _ (hb.insertTypedef v.name.value key)
  unfold Codebase.addRecordTypedefs
  rw [htypedefs, foldl_map]
  exact hwalk _ src cb hb

variable (hold : old.Holds K' old.entries) (hapart : old.Apart K)
  (hsrc : src.Holds K n ∧ src.Orderly)
  (hr : r.Everywhere (RecordDecl.Numbered K n) (Variable.Numbered n))

include hold hapart hsrc hr

theorem follows_enteredRecord : Follows old K n (enteredRecord c r src)
      (enteredRecord c (r.renumber (old.entries + ·)) cb) := by
  have hverdict := verdictOf_renumber (c := c) hb hapart hsrc.1 hr
  have hkey : K r.name.value := hr.head.1
  have hd : (recordDefinition (verdictOf c src r) r).HoldsRecord K n r.name.value :=
    ⟨rfl, r, rfl, hr⟩
  obtain ⟨hbeside, hchanges⟩ := beside_upsertedType hb hold hapart hsrc.1 hkey hd
  obtain ⟨htype, hsaid⟩ := enters_holds.type (c := c) src r hsrc hr
  rw [← recordDefinition_renumber] at hbeside hchanges
  have hfields := follows_addedFields (c := c) (hbeside.restrictType (verdictOf c src r) r.name.value)
    hold hapart htype (lasts_everywhere.after hr hsaid)
  obtain ⟨hholds, hsaidAll⟩ := enters_holds.enteredRecord (c := c) hsrc hr
  unfold Codebase.enteredRecord at hholds hsaidAll ⊢
  dsimp only at hholds hsaidAll ⊢
  rw [hverdict, renumber_name, hchanges,
    renumber_after (fun _ _ => Nat.add_left_cancel)]
  refine ⟨hfields.beside.addRecordTypedefs _ _ _, ?_, hholds, hsaidAll⟩
  rw [map_append, hfields.changes]

/-- A new tree of records. The induction is on the length of the body, as the entering itself. -/
theorem follows_addedTree :
    Follows old K n (addedTree c r src) (addedTree c (r.renumber (old.entries + ·)) cb) := by
  induction hsize : r.bodyLength using Nat.strongRecOn generalizing r src cb with
  | ind size ih =>
    subst hsize
    have hinj : ∀ i j, old.entries + i = old.entries + j → i = j := fun _ _ => Nat.add_left_cancel
    have hlength : ∀ q : RecordDecl, (q.renumber (old.entries + ·)).bodyLength = q.bodyLength := by
      intro q
      unfold bodyLength
      rw [renumber_body]
    have hentered := follows_enteredRecord (c := c) hb hold hapart hsrc hr
    have hnested : ((r.renumber (old.entries + ·)).after
          (enteredRecord c (r.renumber (old.entries + ·)) cb).2).nested.getD [] =
        ((r.after (enteredRecord c r src).2).nested.getD []).map
          (RecordDecl.renumber (old.entries + ·)) := by
      rw [hentered.changes, renumber_after hinj, renumber_nested]
      exact Option.getD_map (List.map _) [] _
    have hinside := (lasts_everywhere.after hr hentered.said).nested
    rw [addedTree, addedTree, hnested, foldl_map]
    refine foldl_rel (r := Follows old K n) hentered fun q hq acc acc' h => ?_
    have hafter : (q.renumber (old.entries + ·)).after acc'.2 =
        (q.after acc.2).renumber (old.entries + ·) := by
      rw [h.changes, renumber_after hinj]
    rw [hafter, hlength, hlength]
    split
    · rename_i hsmaller
      have hstep := ih _ hsmaller h.beside h.holds
        (lasts_everywhere.after (hinside q hq) h.said) rfl
      refine ⟨hstep.beside, ?_, hstep.holds, forall_mem_append.mpr ⟨h.said, hstep.said⟩⟩
      rw [map_append, ← h.changes, ← hstep.changes]
    · exact h

end Follows

end CBoundary.Codebase
