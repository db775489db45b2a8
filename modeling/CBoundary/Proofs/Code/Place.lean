import CBoundary.Proofs.Code.Finding
import CBoundary.Proofs.Code.Records
import CBoundary.Proofs.Declaration.Inside

/-!
# Definitions point at their names

Scanning files as they stand enters definitions that point at their names: declarations do, and
bringing definitions together never moves the one that is kept.
-/

namespace CBoundary

open Text List Definition

variable {texts : Texts}

/-! ## What a text defines is in place -/

/-- The name of a finding. -/
def Finding.name : Finding → String
  | .typedef name _ => name
  | .function _ f => f.name.value
  | .record _ r => r.name.value
  | .macroDef _ m => m.name.value

/-- The name of what was found stands where the finding says. -/
def Finding.InPlace (texts : Texts) : Finding → Prop
  | .typedef _ _ => True
  | .function _ f => f.scope.Shows texts f.name.span.start f.name.chars
  | .record c r => r.InPlace texts c.file.name
  | .macroDef c m => c.scope.Shows texts m.name.span.start m.name.chars

namespace Codebase

variable {c : Context} {s : List Char} {directives : Bool} {findings : List Finding}

theorem inPlace_statementFindings {st : Statement} {k : StatementKind} (hc : c.Reads texts s)
    (hst : st ∈ Statement.scan s 0) (h : statementFindings c directives st k = .ok findings) :
    ∀ found ∈ findings, found.InPlace texts := by
  have htokens := Statement.standsIn_of_mem_scan hst
  intro found hfound
  rcases cases_of_mem_statementFindings h hfound with
    ⟨f, -, hf, -, rfl⟩ | ⟨r, r', hr, hmembers, rfl⟩ | ⟨m, hm, rfl⟩
  · exact (FunctionDecl.shows_name hc htokens hf).2
  · exact RecordDecl.inPlace_withMembers (RecordDecl.unread_ofTokens hr)
      (RecordDecl.parsed_ofTokens hc hst hr) hmembers
  · exact MacroDecl.shows_name hc htokens hm

theorem inPlace_textFindings {offset : Int} (hc : (c.enterPiece offset).Reads texts s)
    (h : textFindings c offset directives s = .ok findings) :
    ∀ found ∈ findings, found.InPlace texts := by
  refine forall_mem_textFindings (R := fun c s => c.Reads texts s) (fun c s st body hc hst hbody => ?_)
    (fun name base => trivial) (fun c s st directives k found hc hst _ hfound => ?_) hc h
  · have hinside := (Statement.standsIn_of_mem_scan hst body hbody).inside
    rw [Int.sub_zero] at hinside
    exact hc.enterPiece hinside
  · exact inPlace_statementFindings hc hst hfound

end Codebase

/-! ## Definitions in place -/

namespace Definition

variable {a d : Definition} {v : Variable}

/-- The name stands where the definition says. -/
def InPlace (texts : Texts) (d : Definition) : Prop :=
  d.scope.Shows texts d.offset d.name.toList

theorem InPlace.merged (h : a.InPlace texts) (b : Definition) : (a.merged b).1.InPlace texts := by
  rw [InPlace, merged_fst_scope, merged_fst_offset, merged_fst_name]
  exact h

/-- A definition of a type whose name stands there, or is made of the place of a body. -/
def TagInPlace (texts : Texts) (d : Definition) : Prop :=
  d.scope.ShowsTag texts d.offset d.name

/-- The name is read off a token at the place of the definition, and so is the variable. -/
structure FieldInPlace (texts : Texts) (d : Definition) : Prop where
  words : d.scope.ShowsWordsOf texts d.offset d.name
  var : ∃ v, d.details = some (.var v) ∧ d.offset = v.name.span.start ∧
    d.scope.offset = v.scope.offset ∧ d.scope.file.name = v.scope.file.name

theorem details_absorbed_var {b : Definition} (h : a.details = some (.var v)) :
    ∃ pre post, (a.absorbed b).details =
      some (.var { v with preComment := pre, postComment := post }) := by
  rw [absorbed_details]
  rw [jointDetails?, h]
  cases b.details with
  | none => exact ⟨_, _, rfl⟩
  | some y => cases y <;> exact ⟨_, _, rfl⟩

theorem FieldInPlace.absorbed (h : a.FieldInPlace texts) (b : Definition) :
    (a.absorbed b).FieldInPlace texts := by
  obtain ⟨v, hv, hplace⟩ := h.var
  obtain ⟨pre, post, hdetails⟩ := details_absorbed_var (b := b) hv
  refine ⟨?_, _, hdetails, ?_⟩
  · rw [absorbed_scope, absorbed_offset, absorbed_name]
    exact h.words
  · rwa [absorbed_scope, absorbed_offset]

theorem FieldInPlace.shows (h : d.FieldInPlace texts) (hv : d.details = some (.var v))
    (hnamed : v.Named texts) (hword : v.name.kind = .word) : d.InPlace texts := by
  obtain ⟨w, hw, hoffset, hscope, hfile⟩ := h.var
  cases Option.some.inj (hw.symm.trans hv)
  obtain ⟨c, hc, hshows⟩ := hnamed.word hword
  rw [← hoffset] at hshows
  exact h.words.shows hc (hshows.congr hfile hscope)

end Definition

/-! ## Records in a code base

Every entry of a code base came from one file.  A variable that takes the place of a
copy of itself belongs to the same entry, so that it points into the same file. -/

/-- A variable in place, filed under its entry. -/
def Variable.Filed (texts : Texts) (origin : Nat → String) (n : Nat) (v : Variable) : Prop :=
  v.Named texts ∧ v.scope.file.name = origin v.entry ∧ v.entry ≤ n

/-- The name of a record is in place. -/
def RecordDecl.Tagged (texts : Texts) (h : RecordDecl.Head) : Prop :=
  h.scope.ShowsTag texts h.name.span.start h.name.value

namespace Codebase

variable {origin : Nat → String} {n : Nat}
variable {cb : Codebase} {d : Definition} {c : Context} {findings : List Finding} {tree : FileTree}
  {path : String}

/-- A type is in place, with all that it holds. -/
def TypeInPlace (texts : Texts) (origin : Nat → String) (n : Nat) (e : TypeEntry) : Prop :=
  ∃ d, e = .own d ∧ d.TagInPlace texts ∧
    d.Everywhere (RecordDecl.Tagged texts) (Variable.Filed texts origin n)

/-- The types and fields of a code base with some number of entries are in place. -/
abbrev RecordsInPlace (texts : Texts) (origin : Nat → String) (n : Nat) (cb : Codebase) : Prop :=
  cb.RecordsAre (fun _ => TypeInPlace texts origin n) (fun _ => True) fun _ d =>
    d.FieldInPlace texts ∧ d.Everywhere (RecordDecl.Tagged texts) (Variable.Filed texts origin n)

theorem commentFree_filed : Definition.CommentFree (Variable.Filed texts origin n) :=
  fun _ _ _ h => ⟨⟨h.1.words, h.1.word⟩, h.2⟩

theorem TypeInPlace.mapRecordOf {f : RecordDecl → RecordDecl} {e : TypeEntry}
    (h : TypeInPlace texts origin n e)
    (hf : ∀ r, r.Everywhere (RecordDecl.Tagged texts) (Variable.Filed texts origin n) →
      (f r).Everywhere (RecordDecl.Tagged texts) (Variable.Filed texts origin n)) :
    TypeInPlace texts origin n (mapRecordOf f e) := by
  obtain ⟨d, rfl, htag, hd⟩ := h
  unfold Codebase.mapRecordOf
  dsimp only
  split
  · rename_i r hr
    exact ⟨_, rfl, htag, (everywhere_record rfl).mpr
      (hf r ((everywhere_record hr).mp hd))⟩
  · exact ⟨d, rfl, htag, hd⟩

theorem fieldInPlace_refresh {new : Variable} (hnew : new.Filed texts origin n)
    (hplace : d.FieldInPlace texts)
    (hfiled : d.Everywhere (RecordDecl.Tagged texts) (Variable.Filed texts origin n)) :
    (mapVariableOf new.refresh d).FieldInPlace texts ∧ (mapVariableOf new.refresh d).Everywhere
      (RecordDecl.Tagged texts) (Variable.Filed texts origin n) := by
  obtain ⟨v, hv, hoffset, hscope, hfile⟩ := hplace.var
  have hvar := (everywhere_var hv).mp hfiled
  have hchange : (Change.var new).Everywhere (RecordDecl.Tagged texts)
      (Variable.Filed texts origin n) := hnew
  rw [mapVariableOf_var hv]
  refine ⟨⟨hplace.words, new.refresh v, rfl, ?_⟩,
    (everywhere_var rfl).mpr (hchange.onVariable hvar)⟩
  show d.offset = (if v.site == new.site then new else v).name.span.start ∧
    d.scope.offset = (if v.site == new.site then new else v).scope.offset ∧
    d.scope.file.name = (if v.site == new.site then new else v).scope.file.name
  split
  · -- a copy of the variable belongs to the same entry, and so to the same file
    rename_i hsite
    have hsite := eq_of_beq hsite
    unfold Variable.site at hsite
    simp only [Prod.mk.injEq] at hsite
    refine ⟨hoffset.trans hsite.2.2, hscope.trans hsite.2.1, hfile.trans ?_⟩
    rw [hvar.2.1, hnew.2.1, hsite.1]
  · exact ⟨hoffset, hscope, hfile⟩

theorem lasting_inPlace : Lasting (fun _ => TypeInPlace texts origin n)
    (fun _ d => d.FieldInPlace texts ∧
      d.Everywhere (RecordDecl.Tagged texts) (Variable.Filed texts origin n))
    (Change.Everywhere (RecordDecl.Tagged texts) (Variable.Filed texts origin n)) where
  onType := fun _ e ch he hch => he.mapRecordOf fun r hr => hch.onRecord hr
  onField := fun _ d new hd hnew => fieldInPlace_refresh hnew hd.1 hd.2
  absorbType := by
    rintro - - a b ⟨_, ⟨⟩, htag, ha⟩ ⟨_, ⟨⟩, -, hb⟩
    refine ⟨_, rfl, ?_, ha.absorbed commentFree_filed hb⟩
    unfold Definition.TagInPlace
    rwa [absorbed_scope, absorbed_offset, absorbed_name]
  absorbField := fun _ _ a b ha hb => ⟨ha.1.absorbed b, ha.2.absorbed commentFree_filed hb.2⟩
  ofType := by
    rintro - d ⟨_, ⟨⟩, -, hd⟩
    exact hd
  ofField := fun _ _ hd => hd.2

theorem enters_inPlace :
    Enters c (RecordDecl.Everywhere (RecordDecl.Tagged texts) (Variable.Filed texts origin n))
      (Variable.Filed texts origin n)
      (Change.Everywhere (RecordDecl.Tagged texts) (Variable.Filed texts origin n))
      (RecordsInPlace texts origin n) where
  toLasts := RecordDecl.lasts_everywhere
  type := by
    intro cb r hcb hr
    obtain ⟨hplace, hchanges⟩ := lasting_inPlace.upsertedType hcb
      (d := recordDefinition (verdictOf c cb r) r)
      ⟨_, rfl, hr.head, (everywhere_record rfl).mpr hr⟩
    exact ⟨hplace.restrictType _ _, hchanges⟩
  field := fun cb r member hcb _ hmember => lasting_inPlace.upsertedField hcb trivial
    ⟨⟨hmember.1.words, member, rfl, rfl, rfl, rfl⟩, (everywhere_var rfl).mpr hmember⟩
  typedefs := fun _ _ _ hcb => ⟨hcb.typesAre, hcb.fieldsAre⟩

/-- The files of entries with one entry more. -/
def originWith (origin : Nat → String) (n : Nat) (file : String) (k : Nat) : String :=
  if k = n + 1 then file else origin k

theorem filed_originWith {v : Variable} (file : String) (h : v.Filed texts origin n) :
    v.Filed texts (originWith origin n file) (n + 1) := by
  obtain ⟨hnamed, hfile, hle⟩ := h
  refine ⟨hnamed, ?_, Nat.le_succ_of_le hle⟩
  rw [originWith, if_neg (by omega)]
  exact hfile

theorem RecordsInPlace.later (h : cb.RecordsInPlace texts origin n) (file : String) :
    cb.RecordsInPlace texts (originWith origin n file) (n + 1) := by
  have hlater : ∀ d : Definition,
      d.Everywhere (RecordDecl.Tagged texts) (Variable.Filed texts origin n) →
      d.Everywhere (RecordDecl.Tagged texts)
        (Variable.Filed texts (originWith origin n file) (n + 1)) := by
    intro d hd ch hch
    have hold := hd ch hch
    cases ch with
    | var v => exact filed_originWith file hold
    | record r =>
      exact RecordDecl.Everywhere.imp hold (fun _ h => h) fun v hv => filed_originWith file hv
  refine h.imp ?_ (fun _ h => h) fun _ d hd => ⟨hd.1, hlater d hd.2⟩
  rintro - _ ⟨d, rfl, htag, hd⟩
  exact ⟨d, rfl, htag, hlater d hd⟩

/-! ## Code bases -/

/-- All definitions are in place, but for macros known without a source. -/
structure InPlace (texts : Texts) (given : String → Prop)
    (cb : Codebase) : Prop extends FunctionsAre (Definition.InPlace texts) cb where
  macros : ∀ key d, (key, d) ∈ cb.macros.entries → given key ∨ d.InPlace texts
  records : ∃ origin, cb.RecordsInPlace texts origin cb.entries

variable {given : String → Prop}

section

variable (h : cb.InPlace texts given)

include h

theorem InPlace.addedFunction {f : FunctionDecl} (hf : (Finding.function c f).InPlace texts) :
    (addedFunction c f cb).InPlace texts given := by
  obtain ⟨origin, hrecords⟩ := h.records
  refine ⟨h.toFunctionsAre.addedFunction (fun a b ha _ => ha.merged b) hf, ?_, origin, ?_⟩
  · unfold Codebase.addedFunction
    split <;> exact h.macros
  · unfold Codebase.addedFunction
    split <;> exact ⟨hrecords.typesAre, hrecords.fieldsAre⟩

theorem InPlace.addedMacro {m : MacroDecl} (hm : (Finding.macroDef c m).InPlace texts) :
    (addedMacro c m cb).InPlace texts given := by
  have hd : (macroDefinition c m).InPlace texts := hm
  obtain ⟨origin, hrecords⟩ := h.records
  refine ⟨⟨h.names, h.staticNames⟩, fun key x hx => ?_, origin, hrecords.typesAre,
    hrecords.fieldsAre⟩
  exact forall_entries_upserted (Q := fun key d => given key ∨ d.InPlace texts)
    (fun _ _ b ha _ => ha.imp_right fun h => h.merged b) (.inr hd)
    (fun p hp => h.macros p.1 p.2 hp) (key, x) hx

theorem InPlace.addedRecord {r : RecordDecl} (hr : (Finding.record c r).InPlace texts) :
    (addedRecord c r cb).InPlace texts given := by
  obtain ⟨origin, hrecords⟩ := h.records
  have hnumbered : (r.renumber fun _ => cb.entries + 1).Everywhere (RecordDecl.Tagged texts)
      (Variable.Filed texts (originWith origin cb.entries c.file.name) (cb.entries + 1)) := by
    refine RecordDecl.Everywhere.renumber hr (fun _ h => h) fun v hv => ?_
    refine ⟨⟨hv.2.words, hv.2.word⟩, ?_, Nat.le_refl _⟩
    rw [originWith, if_pos rfl]
    exact hv.1
  have hstart : RecordsInPlace texts (originWith origin cb.entries c.file.name)
      (cb.entries + 1) { cb with entries := cb.entries + 1 } := by
    have hlater := hrecords.later c.file.name
    exact ⟨hlater.typesAre, hlater.fieldsAre⟩
  have htree := (enters_inPlace.addedTree (c := c) hstart hnumbered).1
  obtain ⟨-, -, -, hmacros, hentries⟩ := outside_addedRecord c r cb
  refine ⟨h.toFunctionsAre.addedRecord c r, ?_, originWith origin cb.entries c.file.name, ?_⟩
  · rw [hmacros]
    exact h.macros
  · rwa [hentries]

theorem InPlace.enter {found : Finding} (hfound : found.InPlace texts) :
    (cb.enter found).InPlace texts given := by
  cases found with
  | typedef name base =>
    obtain ⟨origin, hrecords⟩ := h.records
    exact ⟨⟨h.names, h.staticNames⟩, h.macros, origin, hrecords.typesAre, hrecords.fieldsAre⟩
  | function c f => exact h.addedFunction hfound
  | record c r => exact h.addedRecord hfound
  | macroDef c m => exact h.addedMacro hfound

theorem InPlace.enterAll (hfindings : ∀ found ∈ findings, found.InPlace texts) :
    (cb.enterAll findings).InPlace texts given :=
  foldlRecOn (motive := InPlace texts given) findings Codebase.enter h
    fun _ hcb found hmem => hcb.enter (hfindings found hmem)

end

/-! ## Files -/

/-- The texts of the files of a tree, as they are read. -/
def textsOf (tree : FileTree) (name : String) : Option (List Char) :=
  (tree.find? name).map fun text => unifyLineBreaks text.toList

variable {w : Workspace} {opened : SourceFile × List Char}

theorem openFile_ok (h : openFile w tree path = .ok opened) :
    opened.1.name = path ∧ opened.1.moduleName = w.moduleOfFile path ∧
      textsOf tree path = some opened.2 := by
  unfold openFile at h
  unfold textsOf
  split at h
  · cases h
  · rename_i text htext
    cases h
    refine ⟨?_, ?_, by rw [htext]; rfl⟩ <;> unfold SourceFile.fillLines <;> split <;> rfl

theorem reads_openFile (h : openFile w tree path = .ok opened) :
    ((c.enterFile opened.1 0).enterPiece 0).Reads (textsOf tree) opened.2 := by
  obtain ⟨hname, -, htext⟩ := openFile_ok h
  refine ⟨cons_ne_nil _ _, opened.2, ?_, standsAt_self _⟩
  rw [← htext, ← hname]
  rfl

theorem inPlace_plainFindings (h : plainFindings c tree path = .ok findings) :
    ∀ found ∈ findings, found.InPlace (textsOf tree) := by
  obtain ⟨opened, hopen, h⟩ := Fault.exists_of_bind_eq_ok h
  exact inPlace_textFindings (reads_openFile hopen) h

theorem inPlace_start (texts : Texts) (macros : Table Definition) :
    ({ macros } : Codebase).InPlace texts fun key => macros.find? key ≠ none where
  names := forall_mem_nil _
  staticNames := forall_mem_nil _
  macros := fun _ _ hd => .inl (Table.find?_ne_none_of_mem hd)
  records := ⟨fun _ => "", forall_mem_nil _, forall_mem_nil _⟩

theorem inPlace_scanFiles {tasks : Bool} {paths : List String} {cb' : Codebase}
    (hcb : cb.InPlace (textsOf tree) given)
    (h : (scanFiles c tree false tasks paths cb).start.1 = .ok cb') :
    cb'.InPlace (textsOf tree) given := by
  have hanswers := Audit.answers_foldlM (fun cb path => answers_addFile c tree path cb) paths cb
  have hrun := hanswers.start_fst.symm.trans h
  refine Fault.foldlM_preserves (fun cb cb' path _ hcb hstep => ?_) hcb hrun
  obtain ⟨findings, hfindings, rfl⟩ := Fault.exists_of_map_eq_ok hstep
  exact hcb.enterAll (inPlace_plainFindings hfindings)

end Codebase

/-! ## Scanning files as they stand -/

namespace Definition

variable {tree : FileTree} {d : Definition}

/-- The text at the offset of the definition, as long as its name, is its name. -/
def PointsAtName (tree : FileTree) (d : Definition) : Prop :=
  ∃ text, Codebase.textsOf tree d.scope.file.name = some text ∧ 0 ≤ d.scope.offset + d.offset ∧
    slice text (d.scope.offset + d.offset) (d.scope.offset + d.offset + d.name.length) =
      d.name.toList

/-- The definition is named after the start of a body, before which no name of two characters
stands. -/
def NamedAfterBody (tree : FileTree) (d : Definition) : Prop :=
  d.name = "(" ++ d.location ++ ")" ∧ d.scope.Untagged (Codebase.textsOf tree) d.offset

theorem InPlace.pointsAtName (h : d.InPlace (Codebase.textsOf tree)) : d.PointsAtName tree := by
  obtain ⟨text, htext, hplace⟩ := h
  refine ⟨text, htext, ?_, ?_⟩
  · obtain ⟨front, rear, -, hoffset⟩ := hplace
    rw [hoffset]
    exact Int.natCast_nonneg _
  · exact hplace.slice_eq

theorem TagInPlace.pointsAtName (h : d.TagInPlace (Codebase.textsOf tree)) :
    d.PointsAtName tree ∨ d.NamedAfterBody tree :=
  h.imp InPlace.pointsAtName id

end Definition

namespace Codebase

/-- Every definition that a scan of files as they stand enters points at its name: all functions,
all macros not given beforehand, all records with a tag of two or more characters, and all fields
whose name token is a word, at any depth. A record with a tag of one character is named after the
start of its body, as one without a tag is. -/
theorem scanFiles_pointsAtName (c : Context) (tree : FileTree) (tasks : Bool)
    (paths : List String) (macros : Table Definition) (cb : Codebase)
    (h : (scanFiles c tree false tasks paths { macros }).start.1 = .ok cb) :
    (∀ d ∈ cb.names.values, d.PointsAtName tree) ∧
      (∀ t ∈ cb.staticNames.values, ∀ d ∈ t.values, d.PointsAtName tree) ∧
      (∀ key d, (key, d) ∈ cb.macros.entries → macros.find? key = none → d.PointsAtName tree) ∧
      (∀ e ∈ cb.types.values, ∃ d, e = .own d ∧ (d.PointsAtName tree ∨ d.NamedAfterBody tree)) ∧
      ∀ t ∈ cb.fields.values, ∀ d ∈ t.values, ∃ v, d.details = some (.var v) ∧
        (v.name.kind = .word → d.PointsAtName tree) := by
  have hplace := inPlace_scanFiles (inPlace_start (textsOf tree) macros) h
  obtain ⟨origin, hrecords⟩ := hplace.records
  refine ⟨fun d hd => (hplace.names d hd).pointsAtName,
    fun t ht d hd => (hplace.staticNames t ht d hd).pointsAtName, fun key d hd hkey => ?_,
    fun e he => ?_, fun t ht d hd => ?_⟩
  · exact ((hplace.macros key d hd).resolve_left fun hgiven => hgiven hkey).pointsAtName
  · obtain ⟨d, hd, htag, -⟩ := hrecords.types e he
    exact ⟨d, hd, htag.pointsAtName⟩
  · obtain ⟨hfield, hfiled⟩ := hrecords.fields t ht d hd
    obtain ⟨v, hv, -⟩ := hfield.var
    have hmem : Change.var v ∈ Change.ofDefinition d := by
      rw [Change.ofDefinition, hv]
      exact mem_singleton.mpr rfl
    have hnamed : v.Filed (textsOf tree) origin cb.entries := hfiled _ hmem
    exact ⟨v, hv, fun hword => (hfield.shows hv hnamed.1 hword).pointsAtName⟩

/-- A record with a tag of one letter, records inside a record, with a name and without, a function
in an `extern "C"` block, and a macro. -/
def sampleText : String :=
  "struct S \x7bint zz;\x7d;\nstruct Ab \x7bstruct Cd \x7bint xx;\x7d m;" ++
    "struct \x7bint yy;\x7d;\x7d;\nextern \"C\" \x7bint ff() \x7b\x7d\x7d\n#define MM\n"

/-- The tree of that file alone. -/
def sampleTree : FileTree := ⟨⟨[(Path.normalize "a.h", sampleText)]⟩⟩

theorem plainFindings_sample :
    (plainFindings {} sampleTree "a.h").toOption.map (List.map Finding.name) =
      some ["(a.h:1:10:)", "Ab", "ff", "MM"] := by
  rw [plainFindings, openFile, sampleTree, find?_single]
  decide +kernel

/-- The sample is scanned, and what it defines points at its name. -/
theorem scanFiles_pointsAtName_sample :
    (plainFindings {} sampleTree "a.h").toOption.map (List.map Finding.name) =
        some ["(a.h:1:10:)", "Ab", "ff", "MM"] ∧
      ∃ cb, (scanFiles {} sampleTree false false ["a.h"] {}).start.1 = .ok cb ∧
        (∀ d ∈ cb.names.values, d.PointsAtName sampleTree) ∧
        ∀ t ∈ cb.fields.values, ∀ d ∈ t.values, ∃ v, d.details = some (.var v) ∧
          (v.name.kind = .word → d.PointsAtName sampleTree) := by
  refine ⟨plainFindings_sample, ?_⟩
  obtain ⟨findings, -, hrun⟩ := exists_scanFiles_single plainFindings_sample
  obtain ⟨hnames, -, -, -, hfields⟩ := scanFiles_pointsAtName {} sampleTree false ["a.h"] {} _ hrun
  exact ⟨_, hrun, hnames, hfields⟩

end Codebase

end CBoundary
