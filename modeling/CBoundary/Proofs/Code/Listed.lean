import CBoundary.Proofs.Code.Aliases
import CBoundary.Proofs.Code.Bodies

/-!
# Private definitions are listed

The private types and names of a code base are listed apart, and these lists are what accesses are
checked against.  Each step that can make a definition private lists its name.
-/

namespace CBoundary.Codebase

open List

variable {cb cb' : Codebase} {l : List String}
variable {key : String} {d : Definition} {r : RecordDecl}

theorem mem_addName_self (l : List String) (name : String) : name ∈ addName l name := by
  unfold addName
  split
  · rename_i h
    exact contains_iff_mem.mp h
  · exact mem_append_right _ (mem_singleton.mpr rfl)

theorem subset_addName (l : List String) (name : String) : l ⊆ addName l name := by
  unfold addName
  split
  · exact List.Subset.refl l
  · exact subset_append_left _ _

/-! ## Types -/

/-- Private types are listed. -/
def ListsTypes (l : List String) (cb : Codebase) : Prop :=
  ∀ key d, cb.findType? key = some d → d.hidden = true → key ∈ l

theorem ListsTypes.mono {l' : List String} (h : cb.ListsTypes l) (hl : l ⊆ l') :
    cb.ListsTypes l' := fun key d hd hhidden => hl (h key d hd hhidden)

theorem ListsTypes.congr (h : cb.ListsTypes l) (htypes : cb'.types = cb.types) :
    cb'.ListsTypes l := by
  intro key d hd
  refine h key d ?_
  rw [← hd]
  unfold findType? canonicalType
  rw [htypes]

theorem ListsTypes.mapRecords (h : cb.ListsTypes l) (hcb : cb.OwnNames)
    (f : RecordDecl → RecordDecl) : (cb.mapRecords f).ListsTypes l := by
  intro key d hd hhidden
  have hfind := ((hcb.mapRecords f).name_of_findType? hd).2
  rw [find?_mapRecords] at hfind
  obtain ⟨e, he, hmap⟩ := Option.map_eq_some_iff.mp hfind
  obtain ⟨d', rfl, -⟩ := hcb key e he
  have hold : cb.findType? key = some d' := by simp [findType?, canonicalType, he]
  refine h key d' hold ?_
  unfold mapRecordOf at hmap
  dsimp only at hmap
  split at hmap
  · cases hmap
    exact hhidden
  · cases hmap
    exact hhidden

theorem ListsTypes.after (h : cb.ListsTypes l) (hcb : cb.OwnNames) (changes : List Change) :
    (cb.after changes).ListsTypes l := by
  have hboth : (cb.after changes).OwnNames ∧ (cb.after changes).ListsTypes l := by
    refine foldlRecOn (motive := fun cb => cb.OwnNames ∧ cb.ListsTypes l) changes
      Change.onCodebase ⟨hcb, h⟩ fun cb hcb ch _ => ?_
    cases ch with
    | var new =>
      exact ⟨(hcb.1.mapRecords _).congr rfl, (hcb.2.mapRecords hcb.1 _).congr rfl⟩
    | record new => exact ⟨hcb.1.mapRecords _, hcb.2.mapRecords hcb.1 _⟩
  exact hboth.2

theorem ListsTypes.insertOwn (h : cb.ListsTypes l) (hcb : cb.OwnNames) (hname : d.name = key)
    (hd : d.hidden = true → key ∈ l) :
    ListsTypes l { cb with types := cb.types.insert key (.own d) } := by
  intro key' d' hd' hhidden
  have hfind := ((hcb.insertOwn hname).name_of_findType? hd').2
  rw [Table.find?_insert] at hfind
  split at hfind
  · rename_i heq
    cases hfind
    rw [heq]
    exact hd hhidden
  · refine h key' d' ?_ hhidden
    simp [findType?, canonicalType, hfind]

theorem hidden_of_merged {a b : Definition} (h : (a.merged b).1.hidden = true) :
    a.hidden = true ∨ b.hidden = true := by
  rcases (Definition.hidden_merged_fst a b).mp h with ha | ⟨-, hb, -⟩
  · exact .inl ha
  · exact .inr hb

theorem ListsTypes.upsertedType (h : cb.ListsTypes l) (hcb : cb.OwnNames)
    (hd : d.hidden = true → d.name ∈ l) : (cb.upsertedType d).1.ListsTypes l := by
  unfold Codebase.upsertedType
  split
  · exact h.insertOwn hcb rfl hd
  · rename_i old hold
    have hname : (old.merged d).1.name = cb.canonicalType d.name := by
      rw [Definition.merged_fst_name, hcb.canonicalType_eq]
      exact (hcb.name_of_findType? hold).1
    refine ListsTypes.after (h.insertOwn hcb hname fun hhidden => ?_) (hcb.insertOwn hname) _
    rw [hcb.canonicalType_eq]
    rcases hidden_of_merged hhidden with hhidden | hhidden
    · exact h d.name old hold hhidden
    · exact hd hhidden

theorem ListsTypes.upsertedField (h : cb.ListsTypes l) (hcb : cb.OwnNames) (record : String)
    (d : Definition) : (cb.upsertedField record d).1.ListsTypes l := by
  unfold Codebase.upsertedField
  dsimp only
  split
  · exact h.congr rfl
  · refine ListsTypes.after ?_ ?_ _
    · exact h.congr rfl
    · exact hcb.congr rfl

/-- Types are kept under their names, and listed if private. -/
def ListsOwnTypes (cb : Codebase) : Prop := cb.OwnNames ∧ cb.ListsTypes cb.restrictedTypes

theorem ListsOwnTypes.congr (h : cb.ListsOwnTypes) (htypes : cb'.types = cb.types)
    (hlist : cb'.restrictedTypes = cb.restrictedTypes) : cb'.ListsOwnTypes := by
  refine ⟨h.1.congr htypes, ?_⟩
  rw [hlist]
  exact h.2.congr htypes

theorem enters_listsOwnTypes (c : Context) :
    Enters c (fun _ => True) (fun _ => True) (fun _ => True) ListsOwnTypes where
  toLasts := RecordDecl.lasts_true
  type := by
    intro cb r hcb _
    refine ⟨?_, fun _ _ => trivial⟩
    generalize verdictOf c cb r = v
    have hown := hcb.1.upsertedType (recordDefinition v r)
    have hlist := congrArg Prod.fst (aside_upsertedType cb (recordDefinition v r))
    dsimp only [aside] at hlist
    unfold restrictType
    split
    · refine ⟨hown.congr rfl, ListsTypes.congr ?_ rfl⟩
      rw [hlist]
      exact (hcb.2.mono (subset_addName _ _)).upsertedType hcb.1 fun _ => mem_addName_self _ _
    · rename_i hpublic
      refine ⟨hown, ?_⟩
      rw [hlist]
      exact hcb.2.upsertedType hcb.1 fun hhidden => absurd hhidden hpublic
  field := by
    intro cb r member hcb _ _
    refine ⟨⟨hcb.1.upsertedField _ _, ?_⟩, fun _ _ => trivial⟩
    have hlist := congrArg Prod.fst
      (aside_upsertedField cb r.name.value (fieldDefinition (fieldVerdict c r) member))
    dsimp only [aside] at hlist
    rw [hlist]
    exact hcb.2.upsertedField hcb.1 _ _
  typedefs := fun cb r key hcb => hcb.congr rfl rfl

/-! ## Names -/

/-- Private names are listed. -/
def ListsNames (cb : Codebase) : Prop :=
  ∀ key d, cb.names.find? key = some d → d.hidden = true → key ∈ cb.restrictedNames

theorem ListsNames.congr (h : cb.ListsNames) (hnames : cb'.names = cb.names)
    (hlist : cb'.restrictedNames = cb.restrictedNames) : cb'.ListsNames := by
  rw [ListsNames, hnames, hlist]
  exact h

theorem ListsNames.addedName (h : cb.ListsNames) (d : Definition) :
    (cb.addedName d).ListsNames := by
  have hlist : cb.restrictedNames ⊆ (cb.addedName d).restrictedNames := by
    show cb.restrictedNames ⊆ if d.hidden = true then _ else _
    split
    · exact subset_addName _ _
    · exact List.Subset.refl _
  have hnew (hhidden : d.hidden = true) : d.name ∈ (cb.addedName d).restrictedNames := by
    show d.name ∈ if d.hidden = true then _ else _
    rw [if_pos hhidden]
    exact mem_addName_self _ _
  intro key x hx hhidden
  change (Definition.upserted cb.names d).1.find? key = some x at hx
  rw [Definition.find?_upserted] at hx
  split at hx
  · rename_i heq
    subst heq
    cases hold : cb.names.find? d.name with
    | none =>
      rw [hold] at hx
      cases hx
      exact hnew hhidden
    | some old =>
      rw [hold] at hx
      cases hx
      rcases hidden_of_merged hhidden with hhidden | hhidden
      · exact hlist (h d.name old hold hhidden)
      · exact hnew hhidden
  · exact hlist (h key x hx hhidden)

/-! ## Scans -/

/-- Every private name and every private type is listed. -/
structure ListsPrivate (cb : Codebase) : Prop where
  types : cb.ListsOwnTypes
  names : cb.ListsNames

theorem ListsPrivate.enter (h : cb.ListsPrivate) (found : Finding) :
    (cb.enter found).ListsPrivate := by
  cases found with
  | typedef name base | macroDef c m => exact ⟨h.types.congr rfl rfl, h.names.congr rfl rfl⟩
  | record c r =>
    have hstart : ListsOwnTypes { cb with entries := cb.entries + 1 } := h.types.congr rfl rfl
    exact ⟨((enters_listsOwnTypes c).addedTree hstart trivial).1,
      h.names.congr (outside_addedRecord c r cb).1 (outside_addedRecord c r cb).2.1⟩
  | function c f =>
    show (addedFunction c f cb).ListsPrivate
    unfold addedFunction
    split
    · exact ⟨h.types.congr rfl rfl, h.names.congr rfl rfl⟩
    · exact ⟨h.types.congr rfl rfl, h.names.addedName _⟩

theorem gives_scanFiles {I : Codebase → Prop} (henter : ∀ cb found, I cb → I (cb.enter found))
    (hexamine : ∀ cb, I cb → I cb.examineMacros) (c : Context) (tree : FileTree) (twoPass : Bool)
    (paths : List String) (h : I cb) : Audit.Gives (scanFiles c tree twoPass false paths cb) I := by
  have henterAll (cb : Codebase) (findings : List Finding) (hcb : I cb) :
      I (cb.enterAll findings) :=
    foldlRecOn (motive := I) findings Codebase.enter hcb fun cb hcb found _ =>
      henter cb found hcb
  have hkept (found : Except Fault (List Finding)) : KeptBy I found :=
    fun findings _ cb hcb => henterAll cb findings hcb
  cases twoPass with
  | true =>
    exact gives_twoPass hexamine (fun _ _ _ => hkept _) (absurd · Bool.false_ne_true)
      fun first => foldlM_enterAll_preserves (fun _ _ => hkept _) h
  | false => exact gives_onePass (fun _ _ => hkept _) false h

/-! ## Merged type definitions -/

theorem findType?_of_insert_further {name target : String}
    (htypes : cb'.types = cb.types.insert name (.further (cb.canonicalType target)))
    (hfree : cb.types.find? name = none) (hd : cb.findType? target = some d) (key : String) :
    cb'.findType? key = if key = name then some d else cb.findType? key := by
  have htarget : cb.types.find? (cb.canonicalType target) = some (.own d) := by
    unfold findType? at hd
    split at hd
    · rename_i heq
      cases hd
      exact heq
    · cases hd
  have hcanonical : cb'.canonicalType key =
      if key = name then cb.canonicalType target else cb.canonicalType key := by
    by_cases hkey : key = name
    · rw [if_pos hkey, canonicalType, htypes, Table.find?_insert, if_pos hkey]
    · rw [if_neg hkey, canonicalType, htypes, Table.find?_insert, if_neg hkey]
      rfl
  unfold findType?
  rw [hcanonical, htypes, Table.find?_insert]
  by_cases hkey : key = name
  · have hne : cb.canonicalType target ≠ name := by
      intro heq
      rw [heq, hfree] at htarget
      cases htarget
    rw [if_pos hkey, if_pos hkey, if_neg hne, htarget]
  · rw [if_neg hkey, if_neg hkey]
    by_cases hname : cb.canonicalType key = name
    · rw [if_pos hname, hname, hfree]
    · rw [if_neg hname]

theorem ListsTypes.mergeTypedef (h : cb.ListsTypes cb.restrictedTypes) (name : String) :
    (cb.mergeTypedef name).ListsTypes (cb.mergeTypedef name).restrictedTypes := by
  unfold Codebase.mergeTypedef
  split
  · exact h
  · rename_i hunknown
    dsimp only
    split
    · exact h
    · rename_i d hd
      have hfree : cb.types.find? name = none := by
        rw [Bool.not_eq_true, Table.contains_eq, Option.isSome_eq_false_iff,
          Option.isNone_iff_eq_none] at hunknown
        exact hunknown
      intro key x hx hhidden
      rw [findType?_of_insert_further rfl hfree hd] at hx
      split at hx
      · rename_i hkey
        cases hx
        rw [hkey, if_pos hhidden]
        exact mem_addName_self _ _
      · have hmem := h key x hx hhidden
        split
        · exact subset_addName _ _ hmem
        · exact hmem

theorem ListsTypes.finalize (h : cb.ListsTypes cb.restrictedTypes) :
    cb.finalize.ListsTypes cb.finalize.restrictedTypes := by
  have hfold : (cb.typedefs.keys.foldl Codebase.mergeTypedef cb).ListsTypes
      (cb.typedefs.keys.foldl Codebase.mergeTypedef cb).restrictedTypes :=
    foldlRecOn (motive := fun cb => cb.ListsTypes cb.restrictedTypes) _
      Codebase.mergeTypedef h fun _ hcb name _ => hcb.mergeTypedef name
  unfold Codebase.finalize
  split
  · exact h
  · rename_i hmerged
    rw [fillTypedefs, if_neg hmerged]
    exact hfold.congr rfl

/-! ## Sequences of scans -/

/-- Files of a tree that are scanned one after the other, in one pass or in two. -/
structure FileScan where
  context : Context := {}
  tree : FileTree
  twoPass : Bool := false
  paths : List String

/-- Scans go on with what the scans before them found. -/
def scanInTurn (scans : List FileScan) (cb : Codebase) : Audit Codebase :=
  scans.foldlM (fun cb s => scanFiles s.context s.tree s.twoPass false s.paths cb) cb

theorem ListsPrivate.gives_scanInTurn (h : cb.ListsPrivate) (scans : List FileScan) :
    Audit.Gives (scanInTurn scans cb) ListsPrivate :=
  Audit.gives_foldlM (fun _ s hcb => gives_scanFiles (fun _ found hcb => hcb.enter found)
    (fun _ hcb => ⟨hcb.types.congr rfl rfl, hcb.names.congr rfl rfl⟩) s.context s.tree s.twoPass
    s.paths hcb) scans h

/-- The listed private name under a key. -/
def restrictedName? (cb : Codebase) (key : String) : Option Definition :=
  if cb.restrictedNames.contains key then cb.names.find? key else none

/-- The listed private type under a key. -/
def restrictedType? (cb : Codebase) (key : String) : Option Definition :=
  if cb.restrictedTypes.contains key then cb.findType? key else none

/-- Every private definition of a name or of a type is listed as such under each of its keys. -/
structure ListsDefinitions (cb : Codebase) : Prop where
  names : ∀ key d, cb.names.find? key = some d → d.isPrivate = some true →
    cb.restrictedName? key = some d
  types : ∀ key d, cb.findType? key = some d → d.isPrivate = some true →
    cb.restrictedType? key = some d

theorem hidden_of_isPrivate (h : d.isPrivate = some true) : d.hidden = true := by
  rw [Definition.hidden, h]
  rfl

theorem listsDefinitions (hnames : cb.ListsNames) (htypes : cb.ListsTypes cb.restrictedTypes) :
    cb.ListsDefinitions where
  names := by
    intro key d hd hprivate
    have hmem := hnames key d hd (hidden_of_isPrivate hprivate)
    rw [restrictedName?, if_pos (contains_iff_mem.mpr hmem), hd]
  types := by
    intro key d hd hprivate
    have hmem := htypes key d hd (hidden_of_isPrivate hprivate)
    rw [restrictedType?, if_pos (contains_iff_mem.mpr hmem), hd]

theorem ListsDefinitions.mem_foreignNames (h : cb.ListsDefinitions)
    (hd : cb.names.find? key = some d) (hprivate : d.isPrivate = some true) {moduleName : String}
    (hmodule : d.moduleName ≠ moduleName) : key ∈ Checker.foreignNames cb moduleName := by
  have hlisted := h.names key d hd hprivate
  unfold restrictedName? at hlisted
  split at hlisted
  · rename_i hmem
    refine mem_filter.mpr ⟨contains_iff_mem.mp hmem, ?_⟩
    simpa [hd] using hmodule
  · cases hlisted

theorem ListsDefinitions.checkType_eq (h : cb.ListsDefinitions) (hd : cb.findType? key = some d)
    (hprivate : d.isPrivate = some true) {x : Access.Subject} (hx : x.codebase = cb)
    (offset : Int) : Checker.checkType x offset key = Checker.checkMember x offset d d.name := by
  have hlisted := h.types key d hd hprivate
  unfold restrictedType? at hlisted
  split at hlisted
  · rename_i hmem
    rw [Checker.checkType, hx, if_pos hmem, hd]
  · cases hlisted

/-- After any scans in turn, in one pass or in two, and after type definitions were merged, every
private name and every private type, under each of its names, is listed, and so looked for. -/
theorem scanInTurn_lists_private (macros : Table Definition) (scans : List FileScan)
    (cb : Codebase) (hrun : (scanInTurn scans { macros }).start.1 = .ok cb) :
    cb.ListsDefinitions ∧ cb.finalize.ListsDefinitions ∧
      (∀ key d moduleName, cb.finalize.names.find? key = some d → d.isPrivate = some true →
        d.moduleName ≠ moduleName → key ∈ Checker.foreignNames cb.finalize moduleName) ∧
      ∀ (x : Access.Subject) (offset : Int) key d, x.codebase = cb.finalize →
        cb.finalize.findType? key = some d → d.isPrivate = some true →
        Checker.checkType x offset key = Checker.checkMember x offset d d.name := by
  have hstart : ListsPrivate { macros } :=
    ⟨⟨fun _ _ h => (nomatch h), fun _ _ h => (nomatch h)⟩, fun _ _ h => (nomatch h)⟩
  have hscanned : cb.ListsPrivate := hstart.gives_scanInTurn scans #[] cb hrun
  obtain ⟨hnames, hrestricted, -⟩ := cb.names_finalize
  have hfinal : cb.finalize.ListsDefinitions :=
    listsDefinitions (hscanned.names.congr hnames hrestricted) hscanned.types.2.finalize
  exact ⟨listsDefinitions hscanned.names hscanned.types.2, hfinal,
    fun key d moduleName hd hprivate hmodule => hfinal.mem_foreignNames hd hprivate hmodule,
    fun x offset key d hx hd hprivate => hfinal.checkType_eq hd hprivate hx offset⟩

/-- A private record, an alias of it, and a private function. -/
def listedText : String :=
  "/* #private */ struct Pp \x7bint xx;\x7d;\ntypedef struct Pp Qq;\n" ++
    "/* #private */ int ff(void) \x7b return 0; \x7d\n"

/-- The tree of that file alone. -/
def listedTree : FileTree := ⟨⟨[(Path.normalize "a.h", listedText)]⟩⟩

/-- The names with a private definition, and the names of types with one. -/
def privateKeys (cb : Codebase) : List String × List String :=
  (cb.names.keys.filter fun key => ((cb.names.find? key).map Definition.hidden).getD false,
    cb.types.keys.filter fun key => ((cb.findType? key).map Definition.hidden).getD false)

theorem mapTree_of_nested_eq_nil {f : RecordDecl → RecordDecl} (h : r.nested.getD [] = []) :
    r.mapTree f = f r := by
  rw [RecordDecl.mapTree]
  split
  · rfl
  · rename_i l hl
    rw [hl] at h
    have hnil : l = [] := h
    subst hnil
    have hr : { r with nested := some [] } = r := by
      cases r
      cases hl
      rfl
    exact congrArg f hr

theorem addedTree_of_nested_eq_nil {c : Context}
    (h : (r.after (enteredRecord c r cb).2).nested.getD [] = []) :
    addedTree c r cb = enteredRecord c r cb := by
  rw [addedTree, h]
  rfl

/-- The record as the first entry, with no inner ones. -/
def firstEntry (r : RecordDecl) : RecordDecl :=
  { r.mapOwn fun v => { v with entry := 1 } with entry := 1 }

/-- What is private after a record without inner ones, an alias and a function were entered. -/
def flatKeys : List Finding → Option (List String × List String)
  | [.record c r, .typedef name base, .function c' f] =>
    let entered := enteredRecord c (firstEntry r) { entries := 1 }
    if (r.nested.getD []).isEmpty && (((firstEntry r).after entered.2).nested.getD []).isEmpty then
      some ((entered.1.enter (.typedef name base)).enter (.function c' f)).finalize.privateKeys
    else none
  | _ => none

theorem privateKeys_of_flatKeys {findings : List Finding} {keys : List String × List String}
    (h : flatKeys findings = some keys) :
    (({} : Codebase).enterAll findings).finalize.privateKeys = keys := by
  unfold flatKeys at h
  split at h
  · rename_i c r name base c' f
    dsimp only at h
    split at h
    · rename_i hflat
      obtain ⟨hnested, hflat⟩ := Bool.and_eq_true_iff.mp hflat
      have hfirst : r.renumber (fun _ => 1) = firstEntry r :=
        mapTree_of_nested_eq_nil (List.isEmpty_iff.mp hnested)
      have htree := addedTree_of_nested_eq_nil (List.isEmpty_iff.mp hflat)
      rw [← htree, ← hfirst] at h
      exact Option.some.inj h
    · cases h
  · cases h

theorem flatKeys_listed :
    (plainFindings {} listedTree "a.h").toOption.bind flatKeys = some (["ff"], ["Pp", "Qq"]) := by
  rw [plainFindings, openFile, listedTree, find?_single]
  decide +kernel

/-- The function, the record and its alias are private, and listed. -/
theorem scanInTurn_lists_private_alias :
    ∃ cb, (scanInTurn [{ tree := listedTree, paths := ["a.h"] }] {}).start.1 = .ok cb ∧
      cb.finalize.privateKeys = (["ff"], ["Pp", "Qq"]) ∧ cb.finalize.ListsDefinitions := by
  have hflat := flatKeys_listed
  cases hfound : plainFindings {} listedTree "a.h" with
  | error fault =>
    rw [hfound] at hflat
    cases hflat
  | ok findings =>
    rw [hfound] at hflat
    have hrun : (scanInTurn [{ tree := listedTree, paths := ["a.h"] }] {}).start.1 =
        .ok (({} : Codebase).enterAll findings) := by
      have hanswers := answers_addFile {} listedTree "a.h" {}
      rw [hfound] at hanswers
      exact ((hanswers.bind_ok (Audit.answers_pure _)).bind_ok (Audit.answers_pure _)).start_fst
    exact ⟨_, hrun, privateKeys_of_flatKeys hflat, (scanInTurn_lists_private {} _ _ hrun).2.1⟩

end CBoundary.Codebase
