import CBoundary.Proofs.Access.Fields
import CBoundary.Proofs.Access.Global
import CBoundary.Proofs.Macro.Graph
import CBoundary.Proofs.Source.Drift

/-!
# The expansions in a body

A scan in two passes reads each file with its macros expanded, and the file has the expansions on
record.  A look at a function goes through those inside the span of its body, which is counted from
its scope, while the expansions are counted from the start of the file.
-/

namespace CBoundary

open Text List

/-! ## Functions of two passes -/

namespace Codebase

variable {P : Definition → Prop} {cb src first : Codebase} {c : Context} {tree : FileTree}
  {paths : List String}
variable {tasks : Bool} {macros : Table Definition}

theorem Unscanned.functionsAre (h : cb.Unscanned) : cb.FunctionsAre P := by
  rw [h]
  exact ⟨forall_mem_nil _, forall_mem_nil _⟩

theorem FunctionsAre.examineMacros (h : cb.FunctionsAre P) : cb.examineMacros.FunctionsAre P :=
  ⟨h.names, h.staticNames⟩

theorem FunctionsAre.twoPass (hmerged : ∀ a b : Definition, P a → P b → P (a.merged b).1)
    (hfound : ∀ table, ∀ path ∈ paths, ∀ findings,
      expandedFindings c tree table path = .ok findings →
        ∀ c' f, Finding.function c' f ∈ findings → P (functionDefinition c' f))
    (h : (scanFiles c tree true tasks paths { macros }).start.1 = .ok cb) : cb.FunctionsAre P := by
  have hstart : ({ macros } : Codebase).Unscanned := rfl
  exact gives_twoPass (fun _ hcb => hcb.examineMacros)
    (fun table path hpath findings hfindings cb hcb =>
      hcb.enterAll hmerged (hfound table path hpath findings hfindings))
    (fun _ src cb hsrc hcb => hsrc.mergedTask hmerged hcb)
    (fun first hfirst => (hstart.firstPass hfirst).functionsAre) #[] cb h

/-- The function was found in an expanded file: what was expanded is on record, and the body stands
in the expanded text. -/
def FoundExpanded (w : Workspace) (tree : FileTree) (paths : List String) (sc : Scope)
    (body : Token) : Prop :=
  ∃ path ∈ paths, ∃ opened table, openFile w tree path = .ok opened ∧
    let out := Macro.expand table false (.offset opened.1) opened.2
    HasBody (fun _ => some out.text)
      { opened.1.setInserts out.inserts with expandList := out.expansions.toArray } sc body

theorem foundExpanded_of_twoPass
    (h : (scanFiles c tree true tasks paths { macros }).start.1 = .ok cb) :
    cb.FunctionsAre (Definition.BodyIs (FoundExpanded c.workspace tree paths)) := by
  refine FunctionsAre.twoPass (fun a b ha _ => ha.merged b)
    (fun table path hpath findings hfindings c' f hf f' body hf' hbody => ?_) h
  obtain ⟨opened, hopened, hfindings⟩ := Fault.exists_of_bind_eq_ok hfindings
  refine ⟨path, hpath, opened, table, hopened, ?_⟩
  refine hasBody_textFindings ?_ hfindings hf f' body hf' hbody
  exact ⟨cons_ne_nil _ _, _, rfl, standsAt_self _⟩

end Codebase

/-! ## The record of a file -/

theorem Macro.sorted_expansions (macros : Table MacroDecl) (expandConst : Bool)
    (place : Int → Place) (s : List Char) :
    (expand macros expandConst place s).expansions.Pairwise
      fun e e' => e.point.new.start ≤ e'.point.new.start := by
  have hsorted := ((woven_expand macros expandConst place s).inOrder (Int.le_refl 0)).sorted
  have hpoints : (expand macros expandConst place s).expansions.map Expansions.point =
      (expand macros expandConst place s).inserts := by
    unfold expand
    dsimp only
    split
    · rfl
    · exact (recorded_expandFrom _ none 0 0 s #[] [] rfl rfl).points
  rwa [← hpoints, pairwise_map] at hsorted

/-! ## Events -/

/-- The expansion that is used, if the use is that of macros. -/
def Access.expansions : Access → List Expansions
  | .expansion e => [e]
  | _ => []

namespace Checker

open Audit Codebase

/-- The visitor that finds expansions. -/
def expansionFinder : Visitor Expansions := fun e => pure e.access.expansions

theorem gives_scanBody_expansions (k : Checker) (onlyErrors : Bool) (d : Definition)
    (f : FunctionDecl) (body : Token) :
    Gives (scanBody k onlyErrors expansionFinder d f body) fun r =>
      r.2 = bodyExpansions d body := by
  have hnothing {parts : List (List Expansions)} (h : ∀ found ∈ parts, ∀ e ∈ found, False) :
      parts.flatten = [] := by
    refine flatten_eq_nil_iff.mpr fun found hfound => ?_
    exact eq_nil_iff_forall_not_mem.mpr (h found hfound)
  have hnone {a : Access} (ha : a.expansions = []) :
      Gives (expansionFinder ⟨d, a⟩) fun found => ∀ e ∈ found, False :=
    gives_pure (ha ▸ forall_mem_nil _)
  have hexpansions : Gives ((bodyExpansions d body).mapM fun e => do
      let found ← expansionFinder ⟨d, .expansion e⟩
      checkExpansions k.codebase d e
      return found) fun parts => parts.flatten = bodyExpansions d body := by
    refine (answers_mapM_ok (g := fun e => [e]) (fun e => (answers_pure _).bind_ok
      ((answers_checkExpansions _ _ _).bind_pure)) _).gives ?_
    rintro parts ⟨⟩
    exact (flatMap_def ..).symm.trans (flatMap_singleton' _)
  refine hexpansions.bind fun expansions hexp => (gives_any _).bind fun locals _ =>
    .ite ((gives_any _).bind fun _ _ => ?_) ?_
  all_goals
    refine (gives_mapM fun use _ => (gives_any _).bind fun _ _ => hnone rfl).bind
      fun names hnames => ?_
    refine (gives_mapM fun chain _ => gives_checkChain (hnone rfl) fun _ _ _ => hnone rfl).bind
      fun chains hchains => gives_pure ?_
    rw [hexp, hnothing hnames, hnothing hchains, append_nil, append_nil]

theorem gives_scanDefinition_expansions (k : Checker) (onlyErrors : Bool) {d : Definition}
    {f : FunctionDecl} {body : Token} (hkind : d.kind = "function")
    (hf : d.details = some (.function f)) (hbody : f.body = some body) :
    Gives (scanDefinition k onlyErrors expansionFinder d) fun r =>
      r.2 = bodyExpansions d body := by
  refine (gives_any _).bind fun _ _ => (gives_any _).bind fun _ _ => ?_
  rw [hf]
  dsimp only
  rw [hbody]
  dsimp only
  rw [if_pos (beq_iff_eq.mpr hkind)]
  exact gives_scanBody_expansions k onlyErrors d f body

/-! ## Bodies in their scopes -/

theorem filter_startsIn_shift_iff {expansions : List Expansions} {span : Span} {offset : Int}
    (hoffset : 0 ≤ offset) :
    expansions.filter (fun e => e.StartsIn span) =
        expansions.filter (fun e => e.StartsIn (span.shift offset)) ↔
      (∀ e ∈ expansions.filter (fun e => e.StartsIn span),
        (span.shift offset).start ≤ e.point.new.start) ∧
      ∀ e ∈ expansions, e.StartsIn (span.shift offset) → e.point.new.start < span.stop := by
  constructor
  · intro hsame
    refine ⟨fun e he => ?_, fun e he hmoved => ?_⟩
    · rw [hsame] at he
      exact (of_decide_eq_true (mem_filter.mp he).2).1
    · have hmem : e ∈ expansions.filter fun e => e.StartsIn (span.shift offset) :=
        mem_filter.mpr ⟨he, decide_eq_true hmoved⟩
      rw [← hsame] at hmem
      exact (of_decide_eq_true (mem_filter.mp hmem).2).2
  · rintro ⟨hlooked, hmoved⟩
    refine filter_congr fun e he => decide_eq_decide.mpr ⟨fun h => ?_, fun h => ?_⟩
    · have hstart := hlooked e (mem_filter.mpr ⟨he, decide_eq_true h⟩)
      refine ⟨hstart, Int.lt_of_lt_of_le h.2 ?_⟩
      show span.stop ≤ span.stop + offset
      omega
    · refine ⟨Int.le_trans ?_ h.1, hmoved e he h⟩
      show span.start ≤ span.start + offset
      omega

theorem kind_of_twoPass {c : Context} {tree : FileTree} {paths : List String} {tasks : Bool}
    {macros : Table Definition} {cb : Codebase}
    (h : (scanFiles c tree true tasks paths { macros }).start.1 = .ok cb) :
    cb.FunctionsAre fun d => d.kind = "function" := by
  refine Codebase.FunctionsAre.twoPass (fun a b ha _ => ?_) (fun _ _ _ _ _ _ _ _ => rfl) h
  rw [Definition.merged_fst]
  split
  · rw [Definition.absorbed_kind, ha]
  · exact ha

/-- **The expansions that a look at a function goes through.** After two passes, in sequence or as
tasks, the body of a function stands in the expanded text where its span, moved to the scope, says.
A look goes through the expansions that start inside the span as it is, not moved. These are those
in the body exactly if all of them start in the body and none in the body is missed; and so they are
outside of all blocks. -/
theorem scanDefinition_expansions_iff {c : Context} {tree : FileTree} {paths : List String}
    {tasks : Bool} {macros : Table Definition} {cb : Codebase}
    (hscan : (Codebase.scanFiles c tree true tasks paths { macros }).start.1 = .ok cb)
    {d : Definition} (hd : d ∈ functions cb)
    {f : FunctionDecl} {body : Token} (hf : d.details = some (.function f))
    (hbody : f.body = some body) :
    ∃ path ∈ paths, ∃ s table place, Codebase.textsOf tree path = some s ∧
      d.scope.file.name = path ∧
      let out := Macro.expand table false place s
      let moved := body.span.shift d.scope.offset
      d.scope.file.expandList.toList = out.expansions ∧
      slice out.text moved.start (moved.stop + 1) = body.chars ++ ['\x7d'] ∧
      ∃ looked : List Expansions, looked = out.expansions.filter (fun e => e.StartsIn body.span) ∧
        (∀ k onlyErrors, Gives (scanDefinition k onlyErrors expansionFinder d) fun r =>
          r.2 = looked) ∧
        (looked = out.expansions.filter (fun e => e.StartsIn moved) ↔
          (∀ e ∈ looked, moved.start ≤ e.point.new.start) ∧
            ∀ e ∈ out.expansions, e.StartsIn moved → e.point.new.start < body.span.stop) ∧
        (d.scope.offset = 0 → looked = out.expansions.filter fun e => e.StartsIn moved) := by
  obtain ⟨path, hpath, opened, table, hopened, hplace⟩ :=
    (foundExpanded_of_twoPass hscan).of_mem hd f body hf hbody
  have hkind : d.kind = "function" := (kind_of_twoPass hscan).of_mem hd
  obtain ⟨hname, -, htext⟩ := openFile_ok hopened
  generalize hout : Macro.expand table false (.offset opened.1) opened.2 = out at hplace
  have hrecord : d.scope.file.expandList.toList = out.expansions := by
    rw [hplace.file_eq]
  have hlooked : bodyExpansions d body = out.expansions.filter fun e => e.StartsIn body.span := by
    rw [bodyExpansions, SourceFile.expansionsIn_eq_filter, hrecord]
    rw [hrecord, ← hout]
    exact Macro.sorted_expansions _ _ _ _
  refine ⟨path, hpath, opened.2, table, .offset opened.1, htext, ?_, ?_⟩
  · rwa [hplace.file_eq]
  rw [hout]
  refine ⟨hrecord, ?_, bodyExpansions d body, hlooked, fun k onlyErrors =>
    gives_scanDefinition_expansions k onlyErrors hkind hf hbody, ?_, fun hzero => ?_⟩
  · obtain ⟨text, ⟨⟩, hstands⟩ := hplace.shows
    have hslice := hstands.slice_eq
    rw [length_append, length_singleton] at hslice
    rw [← hslice]
    unfold Span.shift
    dsimp only
    rw [hplace.stop_eq]
    congr 1 <;> omega
  · rw [hlooked]
    exact filter_startsIn_shift_iff hplace.offset_nonneg
  · rw [hlooked, hzero, Span.shift_zero]

/-! ## A macro in a block -/

/-- A file with a function in a block, which uses a macro. -/
def blockText : String := "extern \"C\" \x7b int ff() \x7b PP(1); \x7d \x7d"

/-- The tree of that file alone. -/
def blockTree : FileTree := ⟨⟨[(Path.normalize "a.c", blockText)]⟩⟩

/-- The macro stands for its argument. -/
def blockMacros : Table Definition :=
  ⟨[("PP", {
    name := "PP", kind := "macro", scope := .blank, offset := 0, moduleName := ""
    details := some (.macroDef {
      name := ⟨0, ⟨0, 2⟩, "PP", none⟩
      args := some [⟨0, ⟨0, 1⟩, "x", none⟩]
      body := some ⟨0, ⟨0, 1⟩, "x", none⟩ }) })]⟩

/-- The body has expansions, and its span has none. -/
def misses (d : Definition) (body : Token) : Bool :=
  d.scope.file.expandList.toList.any (fun e => e.StartsIn (body.span.shift d.scope.offset)) &&
    (d.scope.file.expandList.toList.filter fun e => e.StartsIn body.span).isEmpty

/-- The expansions of a function are missed. -/
def missesIn (d : Definition) : Bool :=
  match d.details with
  | some (.function f) => f.body.any (misses d)
  | _ => false

theorem macroFindings_block :
    (macroFindings {} blockTree "a.c").toOption.map List.length = some 0 := by
  rw [macroFindings, openFile, blockTree, find?_single]
  decide +kernel

theorem misses_block : (((openFile {} blockTree "a.c").toOption.map fun opened =>
      ((Macro.Machine.run (Macro.Expander.make (macroTable { macros := blockMacros }) false
          (.offset opened.1)) 35 (.start opened.2)).bind Macro.Machine.outcome?).map fun out =>
        (textFindings (Context.enterFile {} { opened.1.setInserts out.inserts with
          expandList := out.expansions.toArray } 0) 0 false out.text).toOption.map fun findings =>
            (enterAll (examineMacros { macros := blockMacros })
              findings).names.values.any missesIn)) = some (some (some true)) := by
  rw [openFile, blockTree, find?_single]
  decide +kernel

theorem scanFiles_block :
    ∃ cb, (scanFiles {} blockTree true false ["a.c"] { macros := blockMacros }).start.1 =
      .ok cb ∧ cb.names.values.any missesIn = true := by
  obtain ⟨opened, hopened, hmisses⟩ := Option.map_eq_some_iff.mp misses_block
  obtain ⟨out, hrun, hmisses⟩ := Option.map_eq_some_iff.mp hmisses
  obtain ⟨findings, hfindings, hmisses⟩ := Option.map_eq_some_iff.mp hmisses
  refine ⟨_, ?_, hmisses⟩
  have hexpanded : expandedFindings {} blockTree
      (macroTable { macros := blockMacros }) "a.c" = .ok findings := by
    rw [expandedFindings, Fault.eq_ok_of_toOption hopened]
    show textFindings (Context.enterFile {} { opened.1.setInserts
      (Macro.expand _ false _ opened.2).inserts with expandList := _ } 0) 0 false _ = _
    rw [Macro.Machine.expand_eq_of_run hrun]
    exact Fault.eq_ok_of_toOption hfindings
  exact start_scanFiles_of_firstPass (firstPass_of_length macroFindings_block _) hexpanded

/-- A look at a function in a block misses the expansion in its body. -/
theorem scanDefinition_expansions_iff_block :
    ∃ cb d f body, (Codebase.scanFiles {} blockTree true false ["a.c"]
        { macros := blockMacros }).start.1 = .ok cb ∧
      d ∈ functions cb ∧
      d.details = some (.function f) ∧ f.body = some body ∧
      (∃ e ∈ d.scope.file.expandList.toList, e.StartsIn (body.span.shift d.scope.offset)) ∧
      ∀ k onlyErrors, Gives (scanDefinition k onlyErrors expansionFinder d) fun r => r.2 = [] := by
  obtain ⟨cb, hscan, hmisses⟩ := scanFiles_block
  obtain ⟨d, hd, hmisses⟩ := any_eq_true.mp hmisses
  replace hd := mem_append_left (staticDefinitions cb).flatten hd
  unfold missesIn at hmisses
  split at hmisses
  · rename_i f hf
    cases hbody : f.body with
    | none =>
      rw [hbody] at hmisses
      cases hmisses
    | some body =>
      rw [hbody] at hmisses
      obtain ⟨hinside, hnone⟩ := Bool.and_eq_true_iff.mp hmisses
      obtain ⟨e, he, hstarts⟩ := any_eq_true.mp hinside
      refine ⟨cb, d, f, body, hscan, hd, hf, hbody, ⟨e, he, of_decide_eq_true hstarts⟩, ?_⟩
      obtain ⟨path, -, s, table, place, -, -, hrecord, -, looked, hlooked, hgives, -⟩ :=
        scanDefinition_expansions_iff hscan hd hf hbody
      rw [← hrecord, List.isEmpty_iff.mp hnone] at hlooked
      rwa [hlooked] at hgives
  · cases hmisses

end Checker

end CBoundary
