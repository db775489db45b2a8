import CBoundary.Proofs.Code.Entering
import CBoundary.Proofs.Statement.Directives

/-!
# The macros of a text of notes

The macros of a text are collected together with all that it defines, or by themselves.  Both
ways find the same ones in a text of notes, but not always with the same comments.
-/

namespace CBoundary

open Audit List Definition

/-! ## Statements of a text of notes -/

/-- White space, a comment or a directive. -/
def Token.IsMark (t : Token) : Prop := Statement.Blank t ∨ t.kind = .directive

theorem kind_of_mem_findings {s : List Char} (h : OnlyNotes s) {start : Nat} {l : Lex.Lexeme}
    (hl : l ∈ Lex.findings Lex.code.tokenLength start s) : l.token.IsMark := by
  have hmark : ∀ {l : Lex.Lexeme} {k : Kind}, Kind.ofText (String.ofList l.chars) = k →
      k = .space ∨ k = .comment ∨ k = .directive → l.token.IsMark := by
    rintro l k rfl (hk | hk | hk)
    · exact .inl (.inl hk)
    · exact .inl (.inr hk)
    · exact .inr hk
  induction h using OnlyNotes.run_induction generalizing start with
  | nil =>
    rw [Lex.findings] at hl
    cases hl
  | @space c cs hc h ih =>
    obtain ⟨run, rest, hsplit, hne, hrun, hfound⟩ := Lex.exists_space_findings hc cs
    obtain ⟨-, ih⟩ := ih run rest hsplit hne hrun
    rcases hfound start with hpassed | ⟨hkind, htaken⟩
    · rw [hpassed] at hl
      exact ih hl
    · rw [htaken] at hl
      rcases mem_cons.mp hl with rfl | hl
      · exact hmark hkind (.inl rfl)
      · exact ih hl
  | @note piece rest hnote hrest ih =>
    rw [Lex.findings_append hnote.ne_nil (Lex.tokenLength_append hnote rest)] at hl
    rcases mem_cons.mp hl with rfl | hl
    · refine hmark (Kind.ofText_note hnote) ?_
      split
      · exact .inr (.inr rfl)
      · exact .inr (.inl rfl)
    · exact ih hl

namespace Statement

theorem isMark_of_mem_scan {s : List Char} (h : OnlyNotes s) {st : Statement}
    (hst : st ∈ scan s 0) : ∀ t ∈ st.tokens, t.IsMark := by
  refine forall_mem_group (fun t ht => by cases ht) (fun t ht => ?_) st hst
  have hmem : t.settled.unnumbered ∈ ((Token.scan s 0).map Token.settled).map Token.unnumbered :=
    mem_map_of_mem (mem_map_of_mem ht)
  rw [map_unnumbered_scan] at hmem
  obtain ⟨l, hl, heq⟩ := mem_map.mp hmem
  have hmark := kind_of_mem_findings h hl
  rwa [heq] at hmark

end Statement

theorem StatementKind.ofLead_of_isMark {ts : List Token} (h : ∀ t ∈ ts, t.IsMark)
    (k : StatementKind) (hk : k.isDirective = false) :
    ∃ isComment preComment isDirective,
      ofLead k ts = ({ k with isComment, preComment, isDirective }, false) ∧
        (isDirective = true ↔ ∃ t ∈ ts, t.kind = .directive) := by
  induction ts generalizing k with
  | nil => exact ⟨k.isComment, k.preComment, k.isDirective, rfl, by simp [hk]⟩
  | cons t ts ih =>
    obtain ⟨ht, hts⟩ := forall_mem_cons.mp h
    rcases ht with (ht | ht) | ht
    · obtain ⟨isComment, preComment, isDirective, heq, hiff⟩ := ih hts k hk
      refine ⟨isComment, preComment, isDirective, ?_, by simp [hiff, ht]⟩
      rwa [ofLead, ht]
    · obtain ⟨isComment, preComment, isDirective, heq, hiff⟩ :=
        ih hts { k with isComment := true, preComment := some t } hk
      refine ⟨isComment, preComment, isDirective, ?_, by simp [hiff, ht]⟩
      rwa [ofLead, ht]
    · refine ⟨k.isComment, k.preComment, true, ?_, by simp [ht]⟩
      rw [ofLead, ht]

namespace Codebase

theorem statementFindings_of_isMark {st : Statement} (h : ∀ t ∈ st.tokens, t.IsMark)
    (hkind : st.kind? = none) (c : Context) :
    ∃ k, st.kind = .ok k ∧ isTypedefLike none k = false ∧ externBody? true st k = none ∧
      statementFindings c true st k =
        .ok ((MacroDecl.ofTokens st.tokens).toList.map (.macroDef c)) := by
  obtain ⟨isComment, preComment, isDirective, hlead, hdirective⟩ :=
    StatementKind.ofLead_of_isMark h {} rfl
  refine ⟨{ isComment, preComment, isDirective }, ?_, rfl, rfl, ?_⟩
  · rw [Statement.kind, hkind]
    rw [StatementKind.ofTokens, hlead]
    rfl
  · cases isDirective with
    | true => rfl
    | false =>
      have hblank : ∀ t ∈ st.tokens, Statement.Blank t := by
        intro t ht
        refine (h t ht).resolve_right fun hd => ?_
        exact Bool.false_ne_true (hdirective.mpr ⟨t, ht, hd⟩)
      rw [MacroDecl.ofTokens_of_blank hblank]
      rfl

theorem foldlM_append {α β γ : Type}
    {f : List β × Option γ → α → Except Fault (List β × Option γ)} {g : α → List β} {l : List α}
    (h : ∀ a ∈ l, ∀ found, f (found, none) a = .ok (found ++ g a, none)) (found : List β) :
    l.foldlM f (found, none) = .ok (found ++ l.flatMap g, none) := by
  induction l generalizing found with
  | nil =>
    rw [flatMap_nil, append_nil]
    rfl
  | cons a l ih =>
    obtain ⟨ha, hl⟩ := forall_mem_cons.mp h
    rw [foldlM_cons, ha, flatMap_cons, ← append_assoc]
    exact ih hl _

theorem textFindings_of_onlyNotes {s : List Char} (h : OnlyNotes s) (c : Context) (offset : Int) :
    textFindings c offset true s = .ok ((Statement.scan s 0).flatMap fun st =>
        (MacroDecl.ofTokens st.tokens).toList.map (.macroDef (c.enterPiece offset))) := by
  rw [textFindings, foldlM_append (g := fun st =>
    (MacroDecl.ofTokens st.tokens).toList.map (.macroDef (c.enterPiece offset)))]
  · rfl
  · intro st hst found
    obtain ⟨k, hk, htypedef, hextern, hfound⟩ :=
      statementFindings_of_isMark (Statement.isMark_of_mem_scan h hst)
        (Statement.kind?_of_mem_group _ _ st hst) (c.enterPiece offset)
    rw [hk]
    simp only [bind, Except.bind, htypedef, hextern, hfound]
    rfl

end Codebase

/-! ## Comments without numbers -/

/-- Details in which the comment of a macro has no number. -/
def Details.unnumbered : Details → Details
  | .macroDef m => .macroDef m.unnumbered
  | details => details

/-- The definition without comment numbers. -/
def Definition.unnumbered (d : Definition) : Definition := d.mapDetails Details.unnumbered

/-- The code base without comment numbers. -/
def Codebase.unnumbered (cb : Codebase) : Codebase :=
  { cb with macros := cb.macros.mapValues Definition.unnumbered }

theorem Details.neutral_unnumbered : Neutral Details.unnumbered where
  absorb := by
    intro a b
    cases a <;> cases b
    case macroDef.macroDef m m' =>
      show some (Details.macroDef (m.unnumbered.absorb m'.unnumbered).1) =
        some (.macroDef (m.absorb m').1.unnumbered)
      unfold MacroDecl.absorb MacroDecl.unnumbered
      cases m.preComment <;> rfl
    all_goals rfl
  hasBody := by
    intro d
    unfold hasBody mapDetails
    cases d.details with
    | none => rfl
    | some details => cases details <;> rfl

namespace Codebase

variable {ms ms' : List MacroDecl} {t : Table Definition} {ds : List Definition}

section

variable (c : Context) (sts : List Statement) (cb : Codebase) (t : Table Definition)

theorem macroDefinition_unnumbered (m : MacroDecl) :
    macroDefinition c m.unnumbered = (macroDefinition c m).unnumbered := by
  have hmark : Visibility.annotationOf? (.macroDef m.unnumbered) =
      Visibility.annotationOf? (.macroDef m) := by
    rcases m with ⟨name, args, body, preComment⟩
    cases preComment <;> rfl
  rw [macroDefinition, Visibility.verdict, hmark]
  rfl

theorem unnumbered_enterAll (ms : List MacroDecl) (cb : Codebase) :
    (cb.enterAll (ms.map (.macroDef c))).unnumbered =
      cb.unnumbered.enterAll ((ms.map MacroDecl.unnumbered).map (.macroDef c)) := by
  induction ms generalizing cb with
  | nil => rfl
  | cons m ms ih =>
    have hfirst : cb.unnumbered.enter (.macroDef c m.unnumbered) =
        (cb.enter (.macroDef c m)).unnumbered := by
      show addedMacro c m.unnumbered cb.unnumbered = (addedMacro c m cb).unnumbered
      rw [addedMacro, unnumbered, macroDefinition_unnumbered]
      exact congrArg (fun t => { cb with macros := t })
        (Details.neutral_unnumbered.upserted cb.macros (macroDefinition c m))
    show ((cb.enter (.macroDef c m)).enterAll (ms.map (.macroDef c))).unnumbered =
      (cb.unnumbered.enter (.macroDef c m.unnumbered)).enterAll _
    rw [ih, hfirst]

/-- The code base with the macros of some statements. -/
def withMacros (c : Context) (sts : List Statement) (cb : Codebase) : Codebase :=
  cb.enterAll (sts.flatMap fun st => (MacroDecl.ofTokens st.tokens).toList.map (.macroDef c))

theorem unnumbered_withMacros : (cb.withMacros c sts).unnumbered =
      cb.unnumbered.enterAll ((Statement.macros sts).map (.macroDef c)) := by
  have hlist : (sts.flatMap fun st =>
      (MacroDecl.ofTokens st.tokens).toList.map (Finding.macroDef c)) =
      (sts.filterMap fun st => MacroDecl.ofTokens st.tokens).map (.macroDef c) := by
    induction sts with
    | nil => rfl
    | cons st sts ih =>
      rw [flatMap_cons, ih, filterMap_cons]
      cases MacroDecl.ofTokens st.tokens <;> rfl
  rw [withMacros, hlist, unnumbered_enterAll, map_filterMap, Statement.macros]

/-! ## What does not depend on comments -/

/-- The macros of a table as expansion sees them, with one more unless its name is
there. -/
def withBare (t : Table (Option MacroDecl)) (d : Definition) : Table (Option MacroDecl) :=
  match t.find? d.name with
  | none => t.insert d.name d.bareMacro?
  | some _ => t

theorem mapValues_bareMacro?_upserted (d : Definition) :
    (upserted t d).1.mapValues bareMacro? =
      withBare (t.mapValues bareMacro?) d := by
  rw [upserted, withBare, Table.find?_mapValues]
  cases hfind : t.find? d.name with
  | none => exact Table.mapValues_insert _ t d.name d
  | some old =>
    dsimp only [Option.map_some]
    rw [merged_snd_name]
    exact Table.mapValues_insert_of_find? hfind (bareMacro?_merged old d)

theorem mapValues_bareMacro?_enteredAll (ds : List Definition) :
    (enteredAll t ds).mapValues bareMacro? =
      ds.foldl withBare (t.mapValues bareMacro?) := by
  induction ds generalizing t with
  | nil => rfl
  | cons d ds ih =>
    show (enteredAll (upserted t d).1 ds).mapValues _ = _
    rw [ih, mapValues_bareMacro?_upserted]
    rfl

theorem macros_enterAll_macroDef (ms : List MacroDecl) (cb : Codebase) :
    (cb.enterAll (ms.map (.macroDef c))).macros =
      enteredAll cb.macros (ms.map (macroDefinition c)) := by
  rw [macros_enterAll, flatMap_map]
  congr 1
  exact flatMap_pure_eq_map (macroDefinition c) ms

theorem withBare_macroDefinition {m m' : MacroDecl} (h : m.uncommented = m'.uncommented)
    (t : Table (Option MacroDecl)) :
    withBare t (macroDefinition c m) = withBare t (macroDefinition c m') := by
  have hname : m.uncommented.name = m'.uncommented.name := by rw [h]
  have hbare : m.uncommented.bare = m'.uncommented.bare := by rw [h]
  have hview : ∀ m : MacroDecl, withBare t (macroDefinition c m) =
      match t.find? m.uncommented.name.value with
      | none => t.insert m.uncommented.name.value (some m.uncommented.bare)
      | some _ => t := fun _ => rfl
  rw [hview, hview, hname, hbare]

theorem foldl_withBare (h : ms.map MacroDecl.uncommented = ms'.map MacroDecl.uncommented)
    (t : Table (Option MacroDecl)) :
    (ms.map (macroDefinition c)).foldl withBare t =
      (ms'.map (macroDefinition c)).foldl withBare t := by
  induction ms generalizing ms' t with
  | nil =>
    rw [map_eq_nil_iff.mp h.symm]
  | cons m ms ih =>
    obtain ⟨m', ms', rfl, hm, hms⟩ := map_eq_cons_iff.mp h.symm
    rw [map_cons, map_cons, foldl_cons, foldl_cons,
      withBare_macroDefinition c hm.symm]
    exact ih hms.symm _

theorem mapValues_bareMacro?_unnumbered : cb.unnumbered.macros.mapValues bareMacro? =
      cb.macros.mapValues bareMacro? := by
  show (cb.macros.mapValues Definition.unnumbered).mapValues bareMacro? = _
  rw [Table.mapValues_mapValues]
  congr 1
  funext d
  show (d.unnumbered).bareMacro? = d.bareMacro?
  unfold bareMacro? Definition.unnumbered mapDetails
  cases d.details with
  | none => rfl
  | some details => cases details <;> rfl

theorem mapValues_bareMacro?_withMacros :
    (cb.withMacros c sts).macros.mapValues bareMacro? =
      ((Statement.macros sts).map (macroDefinition c)).foldl withBare
        (cb.macros.mapValues bareMacro?) := by
  rw [← mapValues_bareMacro?_unnumbered, unnumbered_withMacros, macros_enterAll_macroDef,
    mapValues_bareMacro?_enteredAll, mapValues_bareMacro?_unnumbered]

end

/-! ## New macros -/

theorem find?_enteredAll_of_not_mem {key : String} (h : key ∉ ds.map name) :
    (enteredAll t ds).find? key = t.find? key := by
  induction ds generalizing t with
  | nil => rfl
  | cons d ds ih =>
    rw [map_cons, mem_cons, not_or] at h
    show (enteredAll (upserted t d).1 ds).find? key = _
    rw [ih h.2, find?_upserted, if_neg h.1]

theorem find?_enteredAll_of_new (hnodup : (ds.map name).Nodup)
    (hnew : ∀ d ∈ ds, t.find? d.name = none) {d : Definition} (hd : d ∈ ds) :
    (enteredAll t ds).find? d.name = some d := by
  induction ds generalizing t with
  | nil => cases hd
  | cons x ds ih =>
    rw [map_cons, nodup_cons] at hnodup
    obtain ⟨hx, hds⟩ := forall_mem_cons.mp hnew
    show (enteredAll (upserted t x).1 ds).find? d.name = _
    rcases mem_cons.mp hd with rfl | hd
    · rw [find?_enteredAll_of_not_mem hnodup.1, find?_upserted, if_pos rfl, hx]
    · refine ih hnodup.2 (fun y hy => ?_) hd
      rw [find?_upserted, if_neg, hds y hy]
      intro hname
      exact hnodup.1 (hname ▸ mem_map_of_mem hy)

/-- The macros have different names, none of which the code base knows. -/
def NewMacros (cb : Codebase) (ms : List MacroDecl) : Prop :=
  (ms.map fun m => m.name.value).Nodup ∧ ∀ m ∈ ms, cb.macros.find? m.name.value = none

theorem NewMacros.eq_of_enterAll_eq {cb : Codebase} (c : Context) (hnew : cb.NewMacros ms)
    (hnames : ms.map (fun m => m.name.value) = ms'.map fun m => m.name.value)
    (h : cb.enterAll (ms.map (.macroDef c)) = cb.enterAll (ms'.map (.macroDef c))) : ms = ms' := by
  have hfound : ∀ {ms : List MacroDecl}, cb.NewMacros ms → ∀ m ∈ ms,
      (cb.enterAll (ms.map (.macroDef c))).macros.find? m.name.value =
        some (macroDefinition c m) := by
    intro ms hnew m hm
    rw [macros_enterAll_macroDef]
    refine find?_enteredAll_of_new ?_ ?_ (mem_map_of_mem hm)
    · rw [map_map]
      exact hnew.1
    · intro d hd
      obtain ⟨x, hx, rfl⟩ := mem_map.mp hd
      exact hnew.2 x hx
  have hnew' : cb.NewMacros ms' := by
    refine ⟨hnames ▸ hnew.1, fun m hm => ?_⟩
    have hmem : m.name.value ∈ ms.map fun m => m.name.value := by
      rw [hnames]
      exact mem_map_of_mem hm
    obtain ⟨x, hx, hname⟩ := mem_map.mp hmem
    rw [← hname]
    exact hnew.2 x hx
  have hlength : ms.length = ms'.length := by simpa using congrArg List.length hnames
  refine ext_getElem hlength fun i hi hi' => ?_
  have hname : ms[i].name.value = ms'[i].name.value := by
    have hget := congrArg (fun l => l[i]?) hnames
    simpa [hi, hi'] using hget
  have hdef : macroDefinition c ms[i] = macroDefinition c ms'[i] := by
    have hone := hfound hnew ms[i] (getElem_mem hi)
    rw [h, hname, hfound hnew' ms'[i] (getElem_mem hi')] at hone
    exact (Option.some.inj hone).symm
  have hdetails : some (Details.macroDef ms[i]) = some (Details.macroDef ms'[i]) :=
    congrArg details hdef
  exact Details.macroDef.inj (Option.some.inj hdetails)

/-- The macros of a text of notes, collected with all that it defines or by themselves, are the same
exactly if the text is spaced. Both ways always come back, and expansion sees the same macros. In a
spaced text only the numbers of comments differ, and only there if all macros are new. -/
theorem macro_passes_agree_iff (s : List Char) (h : OnlyNotes s) :
    (Statement.macros (Statement.scan s 0) = Statement.macros (Statement.scanDirectives s) ↔
      Spaced s) ∧
    ∀ (c : Context) (offset : Int) (cb : Codebase), ∃ one two : Codebase,
      Answers (addText c offset true s cb) (.ok one) ∧
      Answers (addMacros c offset s cb) (.ok two) ∧
      one.macros.mapValues Definition.bareMacro? = two.macros.mapValues Definition.bareMacro? ∧
      (Spaced s → one.unnumbered = two.unnumbered) ∧
      (cb.NewMacros (Statement.macros (Statement.scan s 0)) → one.unnumbered = two.unnumbered →
        Spaced s) := by
  refine ⟨macros_eq_iff_spaced h, fun c offset cb => ?_⟩
  refine ⟨cb.withMacros (c.enterPiece offset) (Statement.scan s 0),
    cb.withMacros (c.enterPiece offset) (Statement.scanDirectives s), ?_, ?_, ?_, ?_, ?_⟩
  · have hanswer := answers_addText c offset true s cb
    rwa [textFindings_of_onlyNotes h] at hanswer
  · exact answers_addMacros c offset s cb
  · rw [mapValues_bareMacro?_withMacros, mapValues_bareMacro?_withMacros]
    exact foldl_withBare _ (map_macros_eq h) _
  · intro hspaced
    rw [unnumbered_withMacros, unnumbered_withMacros, (macros_eq_iff_spaced h).mpr hspaced]
  · intro hnew hsame
    rw [unnumbered_withMacros, unnumbered_withMacros] at hsame
    refine (macros_eq_iff_spaced h).mp (NewMacros.eq_of_enterAll_eq _ ?_ ?_ hsame)
    · refine ⟨hnew.1, fun m hm => ?_⟩
      show (cb.macros.mapValues Definition.unnumbered).find? m.name.value = none
      rw [Table.find?_mapValues, hnew.2 m hm]
      rfl
    · have hnames := congrArg (List.map fun m => m.name.value) (map_macros_eq h)
      rwa [map_map, map_map] at hnames

/-- A macro behind a mark for privacy. -/
def markedMacro : List Char := "// #private\n#define AA 1\n".toList

theorem onlyNotes_markedMacro : OnlyNotes markedMacro := by
  have hcomment : Lex.Escaped '\n' " #private".toList :=
    Lex.escaped_take_escapedRun '\n' " #private".toList
  have hdefine : Lex.Escaped '\n' "define AA 1".toList :=
    Lex.escaped_take_escapedRun '\n' "define AA 1".toList
  exact .note (.lineComment hcomment) (.note (.directive hdefine) .nil)

/-- Its comment is lost if macros are collected by themselves. -/
theorem macro_passes_agree_iff_marked : OnlyNotes markedMacro ∧ ¬ Spaced markedMacro ∧
      Statement.macros (Statement.scan markedMacro 0) ≠
        Statement.macros (Statement.scanDirectives markedMacro) ∧
      ∃ one two : Codebase, Answers (addText {} 0 true markedMacro empty) (.ok one) ∧
        Answers (addMacros {} 0 markedMacro empty) (.ok two) ∧
        one.unnumbered ≠ two.unnumbered := by
  have hspaced : ¬ Spaced markedMacro := by decide +kernel
  have hnew : empty.NewMacros (Statement.macros (Statement.scan markedMacro 0)) := by
    unfold NewMacros
    decide +kernel
  obtain ⟨hiff, hpasses⟩ := macro_passes_agree_iff markedMacro onlyNotes_markedMacro
  obtain ⟨one, two, hone, htwo, -, -, honly⟩ := hpasses {} 0 empty
  exact ⟨onlyNotes_markedMacro, hspaced, mt hiff.mp hspaced, one, two, hone, htwo,
    fun hsame => hspaced (honly hnew hsame)⟩

end Codebase

end CBoundary
