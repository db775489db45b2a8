import CBoundary.Proofs.Code.Place
import CBoundary.Proofs.Code.TwoPass
import CBoundary.Proofs.Code.Verdict

/-!
# Where modules come from

A thing gets its module from an annotation, from the form of its name, from its file, or from
the record around it, and definitions that are brought together hand their modules on.  An
annotation is taken at its word: nothing looks up the module that it names.
-/

namespace CBoundary

open List

/-! ## Definitions -/

/-- The module of the file is covered. -/
def Context.Covered (w : Workspace) (K : String → Prop) (c : Context) : Prop :=
  c.workspace = w ∧ K c.file.moduleName

/-- The comments throughout the record name only modules with some property. -/
def Change.Covered (K : String → Prop) : Change → Prop
  | .var _ => True
  | .record r => r.Commented (Visibility.NamesOnly K)

/-- The module has some property, and so have all that the comments of a record name. -/
structure Definition.Covered (K : String → Prop) (d : Definition) : Prop where
  module : K d.moduleName
  record : ∀ r, d.details = some (.record r) → r.Commented (Visibility.NamesOnly K)

/-- The module of the file and those named in the comments have some property. -/
def Finding.Covered (w : Workspace) (K : String → Prop) : Finding → Prop
  | .typedef _ _ => True
  | .function c f => c.Covered w K ∧ (Details.function f).Comments (Visibility.NamesOnly K)
  | .record c r => c.Covered w K ∧ r.Commented (Visibility.NamesOnly K)
  | .macroDef c m => c.Covered w K ∧ (Details.macroDef m).Comments (Visibility.NamesOnly K)

section Covers

variable {K : String → Prop}
variable {r : RecordDecl}

theorem RecordDecl.Commented.absorb {N : List Char → Prop} {a b : RecordDecl} (ha : a.Commented N)
    (hb : b.Commented N) : (a.absorb b).1.Commented N := by
  have hor : ∀ {o o' : Option Token}, (∀ t ∈ o, N t.chars) → (∀ t ∈ o', N t.chars) →
      ∀ t ∈ (o <|> o'), N t.chars := by
    intro o o' ho ho' t ht
    cases o with
    | none => exact ho' t ht
    | some u => exact ho t ht
  have hcomments := And.intro (hor ha.comments.1 hb.comments.1) (hor ha.comments.2 hb.comments.2)
  rw [absorb_fst]
  cases a.takesBody b with
  | true => exact .intro hcomments hb.nested
  | false => exact .intro hcomments ha.nested

theorem Change.Covered.onRecord {ch : Change} (hch : ch.Covered K)
    (hr : r.Commented (Visibility.NamesOnly K)) :
    (Change.onRecord r ch).Commented (Visibility.NamesOnly K) := by
  cases ch with
  | var new => exact hr.refreshVariable new
  | record new => exact hr.refresh hch

namespace Definition

variable {a b : Definition}

theorem moduleName_absorbed_of (ha : K a.moduleName) (hb : K b.moduleName) :
    K (a.absorbed b).moduleName := by
  rw [absorbed_moduleName]
  split
  · exact hb
  · exact ha

theorem moduleName_merged_of (a b : Definition) (ha : K a.moduleName) (hb : K b.moduleName) :
    K (a.merged b).1.moduleName := by
  rw [merged_fst]
  split
  · exact moduleName_absorbed_of ha hb
  · exact ha

theorem Covered.absorbed (ha : a.Covered K) (hb : b.Covered K) : (a.absorbed b).Covered K := by
  refine ⟨moduleName_absorbed_of ha.module hb.module, fun r hr => ?_⟩
  unfold Definition.absorbed at hr
  split at hr
  · rename_i details errors hjoint
    cases hr
    simp only [jointDetails?, Option.bind_eq_bind, Option.bind_eq_some_iff] at hjoint
    obtain ⟨x, hx, y, hy, hxy⟩ := hjoint
    cases x <;> cases y <;> simp only [Details.absorb?, reduceCtorEq, Option.some.injEq] at hxy
    case record p q =>
      have hdetails : (Details.record (p.absorb q).1) = .record r := congrArg Prod.fst hxy
      cases hdetails
      exact (ha.record p hx).absorb (hb.record q hy)
    all_goals cases congrArg Prod.fst hxy
  · exact ha.record r hr

theorem Covered.changes {d : Definition} (h : d.Covered K) :
    ∀ ch ∈ Change.ofDefinition d, ch.Covered K := by
  intro ch hch
  unfold Change.ofDefinition at hch
  split at hch
  · rw [mem_singleton.mp hch]
    exact trivial
  · rename_i r hr
    rw [mem_singleton.mp hch]
    exact h.record r hr
  · cases hch

end Definition

end Covers

/-! ## Code bases -/

namespace Codebase

open Visibility

variable {w : Workspace} {K : String → Prop} {cb : Codebase} {c : Context}
variable {d : Definition} {r : RecordDecl} {findings : List Finding}
  {offset : Int} {s : List Char} {tree : FileTree} {path : String} {src : Codebase}

/-- The modules of all types and fields have some property. -/
abbrev RecordsCovered (K : String → Prop) (cb : Codebase) : Prop :=
  cb.RecordsAre (fun _ e => ∀ d, e = .own d → d.Covered K) (fun _ => True) fun _ d => d.Covered K

/-- The modules of all definitions have some property. -/
structure Covered (K : String → Prop) (cb : Codebase) : Prop
    extends FunctionsAre (fun d => K d.moduleName) cb where
  records : cb.RecordsCovered K
  macros : ∀ d ∈ cb.macros.values, K d.moduleName

/-! ## Records -/

theorem covered_mapRecordOf {f : RecordDecl → RecordDecl} {e : TypeEntry}
    (hf : ∀ r, r.Commented (NamesOnly K) → (f r).Commented (NamesOnly K))
    (he : ∀ d, e = .own d → d.Covered K) : ∀ d, mapRecordOf f e = .own d → d.Covered K := by
  intro x hx
  cases e with
  | further canonical => cases hx
  | own d =>
    unfold mapRecordOf at hx
    dsimp only at hx
    split at hx
    · rename_i r hr
      cases hx
      refine ⟨(he d rfl).module, fun q hq => ?_⟩
      cases hq
      exact hf r ((he d rfl).record r hr)
    · exact he x hx

theorem covered_mapVariableOf (f : Variable → Variable) (hd : d.Covered K) :
    (mapVariableOf f d).Covered K := by
  unfold mapVariableOf
  split
  · exact ⟨hd.module, fun q hq => by cases hq⟩
  · exact hd

theorem lasting_covered : Lasting (fun _ e => ∀ d, e = .own d → d.Covered K)
    (fun _ d => d.Covered K) (Change.Covered K) where
  onType := fun _ _ _ he hch => covered_mapRecordOf (fun _ hr => hch.onRecord hr) he
  onField := fun _ _ new hd _ => covered_mapVariableOf new.refresh hd
  absorbType := by
    rintro - - a b ha hb x ⟨⟩
    exact (ha a rfl).absorbed (hb b rfl)
  absorbField := fun _ _ _ _ ha hb => ha.absorbed hb
  ofType := fun _ d hd => (hd d rfl).changes
  ofField := fun _ _ hd => hd.changes

theorem moduleName_verdictOf (hw : w.Covers K) (hc : c.Covered w K) (hr : r.Commented (NamesOnly K))
    (h : cb.RecordsCovered K) : K (verdictOf c cb r).moduleName := by
  have hthing := fun a ha => annotated_of_comments hr.comments (a := a) ha
  rw [verdictOf, hc.1]
  split
  · rename_i parent _
    refine hw.verdict hthing ?_ _ true
    cases hfind : cb.findType? parent with
    | none => exact hw.none
    | some d => exact (h.findType? hfind d rfl).module
  · exact hw.verdict hthing hc.2 _ false

theorem enters_covered (hw : w.Covers K) (hc : c.Covered w K) :
    Enters c (RecordDecl.Commented (NamesOnly K)) (fun _ => True) (Change.Covered K)
      (RecordsCovered K) where
  members := fun _ _ _ _ => trivial
  nested := fun _ hr => hr.nested
  onRecord := fun _ _ hr hch => hch.onRecord hr
  onVariable := fun _ _ _ _ => trivial
  type := by
    intro cb r hcb hr
    have hd : (recordDefinition (verdictOf c cb r) r).Covered K := by
      refine ⟨moduleName_verdictOf hw hc hr hcb, fun q hq => ?_⟩
      cases hq
      exact hr
    obtain ⟨htype, hchanges⟩ := lasting_covered.upsertedType hcb fun _ h => by cases h; exact hd
    exact ⟨htype.restrictType _ _, hchanges⟩
  field := by
    intro cb r member hcb hr _
    refine lasting_covered.upsertedField hcb trivial ⟨?_, fun q hq => by cases hq⟩
    rw [fieldVerdict, hc.1]
    exact hw.verdict (fun a ha => annotated_of_comments hr.comments ha) hc.2 _ true
  typedefs := fun _ _ _ hcb => ⟨hcb.typesAre, hcb.fieldsAre⟩

/-! ## Findings -/

section

variable (hw : w.Covers K) (h : cb.Covered K)

include hw h

theorem Covered.addedFunction {f : FunctionDecl} (hfound : (Finding.function c f).Covered w K) :
    (addedFunction c f cb).Covered K := by
  obtain ⟨hc, hf⟩ := hfound
  have hd : K (functionDefinition c f).moduleName := by
    show K (verdict c.workspace (.function f) _ _ false).moduleName
    rw [hc.1]
    exact hw.verdict (fun a ha => annotated_of_comments hf ha) hc.2 _ false
  refine ⟨h.toFunctionsAre.addedFunction Definition.moduleName_merged_of hd, ?_, ?_⟩
  · unfold Codebase.addedFunction
    split <;> exact ⟨h.records.typesAre, h.records.fieldsAre⟩
  · unfold Codebase.addedFunction
    split <;> exact h.macros

theorem Covered.addedMacro {m : MacroDecl} (hfound : (Finding.macroDef c m).Covered w K) :
    (addedMacro c m cb).Covered K := by
  obtain ⟨hc, hm⟩ := hfound
  have hd : K (macroDefinition c m).moduleName := by
    show K (verdict c.workspace (.macroDef m) _ _ false).moduleName
    rw [hc.1]
    exact hw.verdict (fun a ha => annotated_of_comments hm ha) hc.2 _ false
  exact ⟨⟨h.names, h.staticNames⟩, ⟨h.records.typesAre, h.records.fieldsAre⟩,
    Definition.forall_upserted Definition.moduleName_merged_of hd h.macros⟩

theorem Covered.addedRecord (hfound : (Finding.record c r).Covered w K) :
    (addedRecord c r cb).Covered K := by
  obtain ⟨hc, hr⟩ := hfound
  have hstart : ({ cb with entries := cb.entries + 1 } : Codebase).RecordsCovered K :=
    ⟨h.records.typesAre, h.records.fieldsAre⟩
  have htree := ((enters_covered hw hc).addedTree hstart (hr.renumber fun _ => cb.entries + 1)).1
  obtain ⟨-, -, -, hmacros, -⟩ := outside_addedRecord c r cb
  refine ⟨h.toFunctionsAre.addedRecord c r, htree, ?_⟩
  rw [hmacros]
  exact h.macros

theorem Covered.enterAll (hfindings : ∀ x ∈ findings, x.Covered w K) :
    (cb.enterAll findings).Covered K := by
  refine foldlRecOn (motive := Covered K) findings Codebase.enter h fun cb hcb x hmem => ?_
  have hx := hfindings x hmem
  cases x with
  | typedef name base =>
    exact ⟨⟨hcb.names, hcb.staticNames⟩, ⟨hcb.records.typesAre, hcb.records.fieldsAre⟩, hcb.macros⟩
  | function c f => exact hcb.addedFunction hw hx
  | record c r => exact hcb.addedRecord hw hx
  | macroDef c m => exact hcb.addedMacro hw hx

end

theorem Covered.examineMacros (h : cb.Covered K) : cb.examineMacros.Covered K := by
  refine ⟨⟨h.names, h.staticNames⟩, ⟨h.records.typesAre, h.records.fieldsAre⟩, fun d hd => ?_⟩
  change d ∈ (cb.macros.mapValues _).values at hd
  rw [Table.values_mapValues] at hd
  obtain ⟨d', hd', rfl⟩ := mem_map.mp hd
  split <;> exact h.macros d' hd'

/-! ## Texts and files -/

theorem covered_textFindings {directives : Bool} (hc : c.Covered w K) (hs : NamesOnly K s)
    (h : textFindings c offset directives s = .ok findings) : ∀ x ∈ findings, x.Covered w K := by
  have hpiece := hereditary_namesOnly K
  refine forall_mem_textFindings (R := fun c s => c.Covered w K ∧ NamesOnly K s)
    (fun c s st body hc hst hbody => ?_) (fun name base => trivial)
    (fun c s st directives k found hc hst _ hfound x hx => ?_) ⟨hc, hs⟩ h
  · refine ⟨hc.1, hpiece s _ ?_ hc.2⟩
    exact (Text.interior_isPiece _).trans (Statement.isPiece_of_mem_scan hst body hbody)
  · have hts : ∀ t ∈ st.tokens, NamesOnly K t.chars :=
      fun t ht => hpiece s _ (Statement.isPiece_of_mem_scan hst t ht) hc.2
    rcases cases_of_mem_statementFindings hfound hx with
      ⟨f, -, hf, -, rfl⟩ | ⟨r, r', hr, hmembers, rfl⟩ | ⟨m, hm, rfl⟩
    · exact ⟨hc.1, FunctionDecl.comments_ofTokens hts hf⟩
    · have hunread := RecordDecl.unread_ofTokens hr
      exact ⟨hc.1, RecordDecl.commented_withMembers hpiece hts hunread hmembers⟩
    · exact ⟨hc.1, MacroDecl.comments_ofTokens hts hm⟩

theorem covered_directiveFindings (hc : c.Covered w K) (hs : NamesOnly K s) :
    ∀ x ∈ directiveFindings c offset s, x.Covered w K := by
  intro x hx
  obtain ⟨st, hst, hx⟩ := mem_flatMap.mp hx
  obtain ⟨m, hm, rfl⟩ := mem_map.mp hx
  have hts : ∀ t ∈ st.tokens, NamesOnly K t.chars := fun t ht =>
    hereditary_namesOnly K s _ (Statement.isPiece_of_mem_scanDirectives hst t ht) hs
  exact ⟨hc, MacroDecl.comments_ofTokens hts (Option.mem_toList.mp hm)⟩

theorem covered_enterFile (hw : c.workspace.Covers K) {file : SourceFile} (path : String)
    (h : file.moduleName = c.workspace.moduleOfFile path) :
    (c.enterFile file 0).Covered c.workspace K := by
  refine ⟨rfl, ?_⟩
  show K file.moduleName
  rw [h]
  exact hw.file path

/-- The text of a file with macros expanded. -/
def expandedText (w : Workspace) (tree : FileTree) (macros : Table MacroDecl) (path : String) :
    Option (List Char) :=
  (openFile w tree path).toOption.map fun opened =>
    (Macro.expand macros false (.offset opened.1) opened.2).text

/-- Whatever is looked for in a file as it is, its module and its text are covered. -/
theorem covered_of_opened (hw : c.workspace.Covers K)
    (hs : ∀ s ∈ textsOf tree path, NamesOnly K s)
    {find : SourceFile × List Char → Except Fault (List Finding)}
    (hfind : ∀ opened found, (c.enterFile opened.1 0).Covered c.workspace K →
      NamesOnly K opened.2 → find opened = .ok found → ∀ x ∈ found, x.Covered c.workspace K)
    (h : openFile c.workspace tree path >>= find = .ok findings) :
    ∀ x ∈ findings, x.Covered c.workspace K := by
  obtain ⟨opened, hopen, h⟩ := Fault.exists_of_bind_eq_ok h
  obtain ⟨-, hmodule, htext⟩ := openFile_ok hopen
  exact hfind opened findings (covered_enterFile hw path hmodule) (hs _ htext) h

theorem covered_expandedFindings (hw : c.workspace.Covers K) {macros : Table MacroDecl}
    (hs : ∀ s ∈ expandedText c.workspace tree macros path, NamesOnly K s)
    (h : expandedFindings c tree macros path = .ok findings) :
    ∀ x ∈ findings, x.Covered c.workspace K := by
  obtain ⟨opened, hopen, h⟩ := Fault.exists_of_bind_eq_ok h
  obtain ⟨-, hmodule, -⟩ := openFile_ok hopen
  have htext : expandedText c.workspace tree macros path =
      some (Macro.expand macros false (.offset opened.1) opened.2).text := by
    rw [expandedText, hopen]
    rfl
  refine covered_textFindings (covered_enterFile hw path ?_) (hs _ htext) h
  exact hmodule

/-! ## Tasks -/

theorem Covered.mergedTask (hsrc : src.Covered K) (h : cb.Covered K) :
    (mergedTask src cb).Covered K := by
  obtain ⟨-, -, -, -, hmacros⟩ := mergedTask_aside src cb
  have hstart : (src.renumber (cb.entries + ·)).RecordsCovered K ∧
      (withTypedefs (src.renumber (cb.entries + ·)) cb).RecordsCovered K := by
    refine ⟨RecordsAre.mapFields ?_ fun _ _ hd => covered_mapVariableOf _ hd, ?_⟩
    · exact hsrc.records.mapRecords fun _ _ he => covered_mapRecordOf (fun _ hr => hr.renumber _) he
    · exact ⟨h.records.typesAre, h.records.fieldsAre⟩
  have hrecords := (merged_induction (Q := fun acc => acc.1.RecordsCovered K ∧ acc.2.RecordsCovered K)
    (fun acc key d hd hacc => ?_) (fun acc record hacc => ⟨hacc.1, hacc.2.withRecord trivial⟩)
    (fun acc record name d hd hacc => ?_) hstart).2.2
  rotate_left
  · obtain ⟨hcb, hchanges⟩ := lasting_covered.upsertedType hacc.2 (hacc.1.findType? hd)
    exact ⟨lasting_covered.after hacc.1 hchanges, hcb⟩
  · obtain ⟨hcb, hchanges⟩ := lasting_covered.upsertedField hacc.2 trivial (hacc.1.field hd)
    exact ⟨lasting_covered.after hacc.1 hchanges, hcb⟩
  refine ⟨hsrc.toFunctionsAre.mergedTask Definition.moduleName_merged_of h.toFunctionsAre,
    ⟨hrecords.typesAre, hrecords.fieldsAre⟩, ?_⟩
  rw [hmacros]
  exact h.macros

/-! ## Scans -/

/-- The texts of the second pass in sequence, each expanded with the macros known by then. -/
def textsInTurn (c : Context) (tree : FileTree) : List String → Codebase → List (List Char)
  | [], _ => []
  | path :: paths, cb =>
    (expandedText c.workspace tree cb.macroTable path).toList ++
      ((nextFile c tree cb path).toOption.map (textsInTurn c tree paths)).getD []

/-- The texts that a scan reads: the files, and in two passes the expanded files too. -/
def textsRead (c : Context) (tree : FileTree) (twoPass tasks : Bool) (paths : List String)
    (cb : Codebase) : List (List Char) :=
  paths.filterMap (textsOf tree) ++ if twoPass then
      ((firstPass c tree paths cb).toOption.map fun first =>
        if tasks then paths.filterMap (expandedText c.workspace tree first.macroTable)
        else textsInTurn c tree paths first).getD []
    else []

section Scans

variable {tree : FileTree} {paths : List String} {cb' : Codebase}

variable (hw : c.workspace.Covers K) (h : cb.Covered K)

include hw h

theorem Covered.firstPass (hs : ∀ path ∈ paths, ∀ s ∈ textsOf tree path, NamesOnly K s)
    (hrun : firstPass c tree paths cb = .ok cb') : cb'.Covered K :=
  foldlM_enterAll_preserves (fun path hpath _ hfindings _ hcb =>
    hcb.enterAll hw (covered_of_opened hw (hs path hpath) (fun _ _ hc hs h =>
      Except.ok.inj h ▸ covered_directiveFindings hc hs) hfindings)) h hrun

/-- The texts depend on the code base, so the induction is over the files that are left. -/
theorem Covered.secondPass (hs : ∀ s ∈ textsInTurn c tree paths cb, NamesOnly K s)
    (hrun : paths.foldlM (nextFile c tree) cb = .ok cb') : cb'.Covered K := by
  induction paths generalizing cb with
  | nil =>
    cases hrun
    exact h
  | cons path paths ih =>
    obtain ⟨next, hnext, hrest⟩ := Fault.exists_of_bind_eq_ok hrun
    rw [textsInTurn, hnext] at hs
    have hhere := fun s hmem => hs s (mem_append_left _ (Option.mem_toList.mpr hmem))
    obtain ⟨findings, hfindings, rfl⟩ := Fault.exists_of_map_eq_ok hnext
    have hstep := h.examineMacros.enterAll hw (covered_expandedFindings hw hhere hfindings)
    exact ih hstep (fun s hmem => hs s (mem_append_right _ hmem)) hrest

theorem Covered.tasks {batched : List (String × List Finding)}
    (hs : ∀ path ∈ paths, ∀ s ∈ expandedText c.workspace tree cb.macroTable path, NamesOnly K s)
    (hrun : batch c tree cb.macroTable paths = .ok batched) : (asTasks cb cb batched).Covered K := by
  refine foldlRecOn (motive := Covered K) batched _ h fun merged hmerged t ht => ?_
  obtain ⟨path, hpath, hfindings⟩ := Fault.exists_of_mem_mapM hrun t ht
  obtain ⟨findings, hfound, rfl⟩ := Fault.exists_of_map_eq_ok hfindings
  have htask := h.examineMacros.enterAll hw (covered_expandedFindings hw (hs path hpath) hfound)
  exact htask.mergedTask hmerged

theorem Covered.scanFiles {twoPass tasks : Bool}
    (hs : ∀ s ∈ textsRead c tree twoPass tasks paths cb, NamesOnly K s)
    (hrun : (scanFiles c tree twoPass tasks paths cb).start.1 = .ok cb') : cb'.Covered K := by
  have hplain : ∀ path ∈ paths, ∀ s ∈ textsOf tree path, NamesOnly K s := fun path hpath s hmem =>
    hs s (mem_append_left _ (mem_filterMap.mpr ⟨path, hpath, hmem⟩))
  cases twoPass with
  | false =>
    exact gives_onePass (fun path hpath _ hfindings _ hcb =>
      hcb.enterAll hw (covered_of_opened hw (hplain path hpath)
        (fun _ _ => covered_textFindings) hfindings)) tasks h #[] cb' hrun
  | true =>
    cases hfirst : Codebase.firstPass c tree paths cb with
    | error fault =>
      cases tasks with
      | false => rw [start_scanFiles_sequence, hfirst] at hrun; cases hrun
      | true => rw [start_scanFiles_tasks, hfirst] at hrun; cases hrun
    | ok first =>
      have hcovered := h.firstPass hw hplain hfirst
      have hsecond := fun s hmem => hs s (mem_append_right _ hmem)
      rw [if_pos rfl, hfirst] at hsecond
      cases tasks with
      | false =>
        rw [start_scanFiles_sequence, hfirst] at hrun
        exact hcovered.secondPass hw hsecond hrun
      | true =>
        rw [start_scanFiles_tasks, hfirst] at hrun
        obtain ⟨batched, hbatch, rfl⟩ := Fault.exists_of_map_eq_ok hrun
        refine hcovered.tasks hw (fun path hpath s hmem => ?_) hbatch
        exact hsecond s (mem_filterMap.mpr ⟨path, hpath, hmem⟩)

end Scans

theorem Covered.finalize (h : cb.Covered K) : cb.finalize.Covered K := by
  have hwalk : (cb.typedefs.keys.foldl mergeTypedef cb).Covered K := by
    refine foldlRecOn (motive := Covered K) _ mergeTypedef h fun cb hcb name _ => ?_
    unfold mergeTypedef
    split
    · exact hcb
    · dsimp only
      split
      · exact hcb
      · have htype : RecordsCovered K { cb with
            types := cb.types.insert name (.further (cb.canonicalType (cb.untypedef name))) } :=
          hcb.records.insertType fun d hd => by cases hd
        exact ⟨⟨hcb.names, hcb.staticNames⟩, ⟨htype.typesAre, htype.fieldsAre⟩, hcb.macros⟩
  unfold Codebase.finalize fillTypedefs
  split
  · exact h
  · exact ⟨⟨hwalk.names, hwalk.staticNames⟩, ⟨hwalk.records.typesAre, hwalk.records.fieldsAre⟩,
      hwalk.macros⟩

theorem Covered.definitionsIn (h : cb.Covered K) (table : String) :
    ∀ d ∈ cb.definitionsIn table, K d.moduleName := by
  intro d hd
  unfold Codebase.definitionsIn at hd
  split at hd
  · obtain ⟨e, he, rfl⟩ := mem_map.mp hd
    obtain ⟨key, -, hkey⟩ := mem_filterMap.mp he
    obtain ⟨d, hfind, rfl⟩ := Option.map_eq_some_iff.mp hkey
    exact (h.records.findType? hfind d rfl).module
  · exact h.names d hd
  · exact h.macros d hd
  · obtain ⟨t, ht, hd⟩ := mem_flatMap.mp hd
    exact (h.records.fields t ht d hd).module
  · obtain ⟨t, ht, hd⟩ := mem_flatMap.mp hd
    exact h.staticNames t ht d hd
  · cases hd

/-- With an accepted list of modules, each definition that a scan leaves in any table belongs to no
module, to one of the list, or to one that an annotation names in a text that was read. In
surroundings of a known module, a thing gets an unknown one exactly if its annotation names it. -/
theorem scanFiles_module_known_or_annotated {w : Workspace} {ms : List Module} {c : Context}
    (hlist : w.setModules ms = .ok c.workspace) (tree : FileTree) (twoPass tasks : Bool)
    (paths : List String) {macros : Table Definition}
    (hgiven : ∀ d ∈ macros.values, d.moduleName = "") :
    (∀ (thing : Details) (isPrivate : Option Bool) (moduleName : String) (isNested : Bool),
      Module.Known ms moduleName →
        (Module.Known ms (verdict c.workspace thing isPrivate moduleName isNested).moduleName ↔
          ∀ a, annotationOf? thing = some a → ∀ named, a.moduleName = some named →
            Module.Known ms named)) ∧
    ∀ cb, (scanFiles c tree twoPass tasks paths { macros }).start.1 = .ok cb →
      ∀ table, ∀ d ∈ cb.definitionsIn table ++ cb.finalize.definitionsIn table,
        Module.Known ms d.moduleName ∨
          ∃ text ∈ textsRead c tree twoPass tasks paths { macros }, Names d.moduleName text := by
  obtain ⟨hlists, -⟩ := Workspace.lists_of_setModules hlist
  refine ⟨fun thing isPrivate moduleName isNested h => hlists.known_verdict_iff h isPrivate
    isNested, fun cb hrun table d hd => ?_⟩
  have hstart : ({ macros } : Codebase).Covered (fun name => Module.Known ms name ∨
      ∃ text ∈ textsRead c tree twoPass tasks paths { macros }, Names name text) := by
    exact ⟨⟨forall_mem_nil _, forall_mem_nil _⟩, ⟨forall_mem_nil _, forall_mem_nil _⟩,
      fun d hd => .inl (.inl (hgiven d hd))⟩
  have hcovered := hstart.scanFiles (hlists.covers fun _ h => .inl h)
    (fun text htext name hnames => .inr ⟨text, htext, hnames⟩) hrun
  rcases mem_append.mp hd with hd | hd
  · exact hcovered.definitionsIn table d hd
  · exact hcovered.finalize.definitionsIn table d hd

/-- A list of one module. -/
def lonely : List Module := [.make "m" "" [] []]

/-- The workspace of that module. -/
def lonelyTables : Workspace where
  root := "."
  modules := ⟨lonely.map fun m => (m.name, m)⟩
  dirs := ⟨lonely.map fun m => (m.dirname, m.name)⟩

/-- A function whose annotation names another module. -/
def strayText : String := "/* #public(zz) */ int ff(void) \x7b return 0; \x7d\n"

/-- The tree of that file alone. -/
def strayTree : FileTree := ⟨⟨[(Path.normalize "a.c", strayText)]⟩⟩

theorem plainFindings_stray :
    (plainFindings { workspace := lonelyTables } strayTree "a.c").toOption.map (fun findings =>
      ((({} : Codebase).enterAll findings).definitionsIn "names").map Definition.moduleName) =
        some ["zz"] := by
  rw [plainFindings, openFile, strayTree, find?_single]
  decide +kernel

/-- The function is entered under a module that is not in the list, and the text names it. -/
theorem scanFiles_module_known_or_annotated_stray :
    ({ root := "." } : Workspace).setModules lonely = .ok lonelyTables ∧
      ¬ Module.Known lonely "zz" ∧
      ∃ cb, (scanFiles { workspace := lonelyTables } strayTree false false ["a.c"] {}).start.1 =
          .ok cb ∧
        (∃ d ∈ cb.definitionsIn "names", d.moduleName = "zz") ∧
        ∃ text ∈ textsRead { workspace := lonelyTables } strayTree false false ["a.c"] {},
          Names "zz" text := by
  have haccepted : ({ root := "." } : Workspace).setModules lonely = .ok lonelyTables := rfl
  have hunknown : ¬ Module.Known lonely "zz" := by
    unfold Module.Known
    decide
  refine ⟨haccepted, hunknown, ?_⟩
  obtain ⟨findings, hlisted, hrun⟩ := exists_scanFiles_single plainFindings_stray
  obtain ⟨d, hd, hzz⟩ := mem_map.mp (hlisted ▸ mem_singleton.mpr rfl : "zz" ∈ _)
  have hknown := (scanFiles_module_known_or_annotated haccepted strayTree false false ["a.c"]
    fun _ hd => absurd hd not_mem_nil).2 _ hrun "names" d (mem_append_left _ hd)
  rw [hzz] at hknown
  exact ⟨_, hrun, ⟨d, hd, hzz⟩, hknown.resolve_left hunknown⟩

end Codebase

end CBoundary
