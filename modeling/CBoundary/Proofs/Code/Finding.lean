import CBoundary.Proofs.Code.Change

/-!
# What a text defines

A text is read into a list of findings: type definitions, functions, records with their members,
and macros, each with the surroundings in which it was found.  Scanning a text into a code base
is entering its list.
-/

namespace CBoundary

open Audit

/-- Something that a text defines, with the context in which it stands. -/
inductive Finding where
  | typedef (name base : String)
  | function (c : Context) (f : FunctionDecl)
  | record (c : Context) (r : RecordDecl)
  | macroDef (c : Context) (m : MacroDecl)

namespace Codebase

variable {c : Context} {directives : Bool} {findings : List Finding}

/-- The code base with one more finding. -/
def enter (cb : Codebase) : Finding → Codebase
  | .typedef name base => { cb with typedefs := cb.typedefs.insert name base }
  | .function c f => addedFunction c f cb
  | .record c r => addedRecord c r cb
  | .macroDef c m => addedMacro c m cb

/-- The code base with some more findings. -/
def enterAll (cb : Codebase) (findings : List Finding) : Codebase := findings.foldl enter cb

section

variable (c : Context) (st : Statement) (cb : Codebase)

@[simp] theorem enterAll_nil : cb.enterAll [] = cb := rfl

theorem enterAll_append (is js : List Finding) :
    cb.enterAll (is ++ js) = (cb.enterAll is).enterAll js := List.foldl_append

/-! ## Statements -/

/-- What a type definition defines. -/
def typedefFindings (c : Context) (st : Statement) (inherited : Option (List Token)) :
    List Finding × Option (List Token) :=
  match Variable.ofDefinition c.scope st.tokens with
  | none => ([], inherited)
  | some v =>
    let v := v.inherit inherited
    if v.hasType then
      ([.typedef v.name.value (Declaration.baseType (v.type.getD []))], v.handsOn)
    else ([], inherited)

theorem answers_addTypedef (inherited : Option (List Token)) (cb : Codebase) :
    Answers (addTypedef c st inherited cb)
      (.ok (cb.enterAll (typedefFindings c st inherited).1,
        (typedefFindings c st inherited).2)) := by
  unfold addTypedef typedefFindings
  cases Variable.ofDefinition c.scope st.tokens with
  | none => exact answers_pure _
  | some v =>
    dsimp only
    split
    · exact (answers_trace _ _ _).bind_pure
    · exact (answers_report _ _ _).bind_pure

/-- What a statement other than a type definition defines. -/
def statementFindings (c : Context) (directives : Bool) (st : Statement) (k : StatementKind) :
    Except Fault (List Finding) :=
  if k.isFunctionDef then
    (FunctionDecl.ofStatement c.scope st.tokens).map fun f? =>
      match f? with
      | some f => if f.body.isSome then [.function c f] else []
      | none => []
  else if k.isRecord then
    RecordDecl.ofTokens c st.tokens none >>= fun r? =>
      match r? with
      | some r => (r.withMembers c).map fun r => [.record c r]
      | none => .ok []
  else if k.isFunctionDecl then
    (FunctionDecl.ofStatement c.scope st.tokens).map fun _ => []
  else if k.isDecl then .ok []
  else if directives && k.isDirective then
    .ok ((MacroDecl.ofTokens st.tokens).toList.map (.macroDef c))
  else .ok []

theorem answers_addRecord (isGlobal : Bool) (r : RecordDecl) (cb : Codebase) :
    Answers (do let (cb, _) ← addRecord c isGlobal r cb; return cb)
      ((r.withMembers c).map fun r => cb.enter (.record c r)) := by
  unfold addRecord
  cases r.withMembers c with
  | error fault => exact fun _ => rfl
  | ok r =>
    rw [bind_assoc]
    refine (answers_liftM (.ok r)).bind_ok ?_
    rw [bind_assoc]
    exact (answers_addTree c isGlobal _ _).bind_pure

theorem answers_addMacroOf : Answers (addMacroOf c st cb)
      (.ok (cb.enterAll ((MacroDecl.ofTokens st.tokens).toList.map (.macroDef c)))) := by
  unfold addMacroOf
  cases MacroDecl.ofTokens st.tokens with
  | none => exact answers_pure _
  | some m => exact answers_addMacro c m cb

end

theorem cases_of_mem_statementFindings {st : Statement} {k : StatementKind} {x : Finding}
    (h : statementFindings c directives st k = .ok findings) (hx : x ∈ findings) :
    (∃ f, k.isFunctionDef = true ∧ FunctionDecl.ofTokens c.scope st.tokens = some f ∧
        f.body.isSome = true ∧ x = .function c f) ∨
      (∃ r r', RecordDecl.ofTokens c st.tokens none = .ok (some r) ∧ r.withMembers c = .ok r' ∧
        x = .record c r') ∨
      ∃ m, MacroDecl.ofTokens st.tokens = some m ∧ x = .macroDef c m := by
  unfold statementFindings at h
  split at h
  · rename_i hdef
    obtain ⟨f?, hf, rfl⟩ := Fault.exists_of_map_eq_ok h
    cases f? with
    | none => cases hx
    | some f =>
      dsimp only at hx
      split at hx
      · rename_i hbody
        unfold FunctionDecl.ofStatement at hf
        split at hf
        · cases hf
        · exact .inl ⟨f, hdef, Except.ok.inj hf, hbody, List.mem_singleton.mp hx⟩
      · cases hx
  split at h
  · obtain ⟨r?, hr, h⟩ := Fault.exists_of_bind_eq_ok h
    cases r? with
    | none =>
      cases h
      cases hx
    | some r =>
      obtain ⟨r', hmembers, rfl⟩ := Fault.exists_of_map_eq_ok h
      exact .inr (.inl ⟨r, r', hr, hmembers, List.mem_singleton.mp hx⟩)
  split at h
  · obtain ⟨f?, -, rfl⟩ := Fault.exists_of_map_eq_ok h
    cases hx
  split at h
  · cases h
    cases hx
  split at h
  · cases h
    obtain ⟨m, hm, rfl⟩ := List.mem_map.mp hx
    exact .inr (.inr ⟨m, Option.mem_toList.mp hm, rfl⟩)
  · cases h
    cases hx

theorem answers_addStatement (c : Context) (directives : Bool) (st : Statement)
    (k : StatementKind) (cb : Codebase) :
    Answers (addStatement c directives st k cb)
      ((statementFindings c directives st k).map cb.enterAll) := by
  unfold addStatement statementFindings
  split
  · cases FunctionDecl.ofStatement c.scope st.tokens with
    | error fault => exact fun _ => rfl
    | ok f? =>
      refine (answers_liftM (.ok f?)).bind_ok ?_
      cases f? with
      | none => exact answers_pure _
      | some f =>
        show Answers (if f.body.isSome = true then _ else _)
          (.ok (cb.enterAll (if f.body.isSome = true then _ else _)))
        split
        · exact answers_addFunction c f cb
        · exact answers_pure _
  split
  · cases RecordDecl.ofTokens c st.tokens none with
    | error fault => exact fun _ => rfl
    | ok r? =>
      refine (answers_liftM (.ok r?)).bind_ok ?_
      cases r? with
      | none => exact answers_pure _
      | some r =>
        show Answers _ (Except.map cb.enterAll ((r.withMembers c).map fun r => [.record c r]))
        have hrecord := answers_addRecord c true r cb
        cases hmembers : r.withMembers c with
        | error fault | ok r => rw [hmembers] at hrecord; exact hrecord
  split
  · cases FunctionDecl.ofStatement c.scope st.tokens with
    | error fault => exact fun _ => rfl
    | ok f? =>
      refine (answers_liftM (.ok f?)).bind_ok ?_
      exact (answers_report _ _ _).bind_pure
  split
  · exact (answers_report _ _ _).bind_pure
  split
  · exact answers_addMacroOf c st cb
  · exact answers_pure _

/-! ## Texts -/

/-- Does a statement inherit a type, or define one that is neither a record nor a function? -/
def isTypedefLike (inherited : Option (List Token)) (k : StatementKind) : Bool :=
  (inherited.any fun ts => !ts.isEmpty) || (k.isTypedef && !k.isRecord && !k.isFunctionDef)

/-- The block of an `extern "C"` statement. -/
def externBody? (directives : Bool) (st : Statement) (k : StatementKind) : Option Token :=
  let isBlock := k.isExternC && !k.isFunctionDef && !k.isRecord && !k.isFunctionDecl &&
    !k.isDecl && !(directives && k.isDirective)
  if isBlock then st.tokens.find? fun t => t.startsWith '\x7b' else none

/-- What a text at an offset defines. -/
def textFindings (c : Context) (offset : Int) (directives : Bool) (s : List Char) :
    Except Fault (List Finding) := do
  let c := c.enterPiece offset
  let (findings, _) ← (Statement.scan s 0).foldlM
    (fun (acc : List Finding × Option (List Token)) st => do
      let k ← st.kind
      if isTypedefLike acc.2 k then
        return (acc.1 ++ (typedefFindings c st acc.2).1, (typedefFindings c st acc.2).2)
      else
        match externBody? directives st k with
        | some body =>
          if _h : (Text.interior body.chars).length < s.length then
            return (acc.1 ++ (← textFindings c (body.span.start + 1) true
              (Text.interior body.chars)), none)
          else return (acc.1, none)
        | none => return (acc.1 ++ (← statementFindings c directives st k), none)) ([], none)
  return findings
termination_by s.length

/-- A walk over statements, seen from the code base at its start and the findings so far. -/
def walked (cb : Codebase) (acc : List Finding × Option (List Token)) :
    Codebase × Option (List Token) :=
  (cb.enterAll acc.1, acc.2)

theorem answers_walked {part : Audit Codebase} {more : Except Fault (List Finding)}
    {cb : Codebase} {found : List Finding}
    (h : Answers part (more.map (cb.enterAll found).enterAll)) :
    Answers (do return (← part, none))
      (Except.map cb.walked (do return (found ++ (← more), none))) := by
  cases more with
  | error fault => exact h.bind_error
  | ok more =>
    refine h.bind_ok ?_
    show Answers _ (.ok (cb.enterAll (found ++ more), none))
    rw [enterAll_append]
    exact answers_pure _

theorem answers_addText (c : Context) (offset : Int) (directives : Bool) (s : List Char)
    (cb : Codebase) :
    Answers (addText c offset directives s cb)
      ((textFindings c offset directives s).map cb.enterAll) := by
  fun_induction addText c offset directives s cb with
  | case1 c offset directives s cb ih =>
    rw [textFindings]
    refine (answers_trace _ _ _).bind_ok ?_
    show Answers _ (cb.enterAll <$> (_ >>= _))
    rw [map_bind]
    refine Answers.bind_map (answers_foldlM_map cb.walked (fun acc st => ?_) _ ([], none))
      fun acc => answers_pure _
    rcases acc with ⟨found, inherited⟩
    cases st.kind with
    | error fault => exact fun _ => rfl
    | ok k =>
      refine (answers_liftM (.ok k)).bind_ok ?_
      show Answers (if isTypedefLike inherited k = true then
          addTypedef _ st inherited (cb.enterAll found)
        else match externBody? directives st k with | some body => _ | none => _)
        (Except.map cb.walked (if isTypedefLike inherited k = true then _ else
          match externBody? directives st k with | some body => _ | none => _))
      split
      · have htypedef := answers_addTypedef (c.enterPiece offset) st inherited (cb.enterAll found)
        rwa [← enterAll_append] at htypedef
      · cases externBody? directives st k with
        | none => exact answers_walked (answers_addStatement _ directives st k _)
        | some body =>
          refine (answers_trace _ _ _).bind_ok ?_
          dsimp only
          split
          · rename_i hsmaller
            exact answers_walked (ih _ body hsmaller)
          · exact answers_pure _

/-- What holds of all that statements define holds of all that a text defines. The induction is on
the length of the text, since the inside of an `extern "C"` block is a text. -/
theorem forall_mem_textFindings {R : Context → List Char → Prop} {Q : Finding → Prop}
    (hpiece : ∀ c s st body, R c s → st ∈ Statement.scan s 0 → body ∈ st.tokens →
      R (c.enterPiece (body.span.start + 1)) (Text.interior body.chars))
    (htypedef : ∀ name base, Q (.typedef name base))
    (hstatement : ∀ c s st directives k findings, R c s → st ∈ Statement.scan s 0 →
      st.kind = .ok k → statementFindings c directives st k = .ok findings →
      ∀ x ∈ findings, Q x) {offset : Int} {s : List Char}
    (hc : R (c.enterPiece offset) s) (h : textFindings c offset directives s = .ok findings) :
    ∀ x ∈ findings, Q x := by
  induction hsize : s.length using Nat.strongRecOn
    generalizing c offset directives s findings with
  | ind size ih =>
    subst hsize
    rw [textFindings] at h
    obtain ⟨acc, hwalk, hfindings⟩ := Fault.exists_of_bind_eq_ok h
    cases hfindings
    refine Fault.foldlM_preserves
      (I := fun (acc : List Finding × Option (List Token)) => ∀ x ∈ acc.1, Q x)
      (fun acc acc' st hst hacc hstep => ?_) (fun x hx => absurd hx List.not_mem_nil) hwalk
    -- what is found in a further part is added to what was found before
    have happend : ∀ more : List Finding, (∀ x ∈ more, Q x) → ∀ x ∈ acc.1 ++ more, Q x := by
      intro more hmore x hx
      rcases List.mem_append.mp hx with hx | hx
      · exact hacc x hx
      · exact hmore x hx
    obtain ⟨k, hkind, hstep⟩ := Fault.exists_of_bind_eq_ok hstep
    split at hstep
    · cases hstep
      refine happend _ fun x hx => ?_
      unfold typedefFindings at hx
      split at hx
      · cases hx
      · dsimp only at hx
        split at hx
        · rw [List.mem_singleton.mp hx]
          exact htypedef _ _
        · cases hx
    · cases hbody : externBody? directives st k with
      | none =>
        rw [hbody] at hstep
        obtain ⟨more, hmore, hstep⟩ := Fault.exists_of_bind_eq_ok hstep
        cases hstep
        exact happend more (hstatement _ s st directives k more hc hst hkind hmore)
      | some body =>
        rw [hbody] at hstep
        dsimp only at hstep
        split at hstep
        · rename_i hsmaller
          obtain ⟨more, hmore, hstep⟩ := Fault.exists_of_bind_eq_ok hstep
          cases hstep
          have hmem : body ∈ st.tokens := by
            unfold externBody? at hbody
            dsimp only at hbody
            split at hbody
            · exact List.mem_of_find?_eq_some hbody
            · cases hbody
          exact happend more (ih _ hsmaller (hpiece _ s st body hc hst hmem) hmore rfl)
        · cases hstep
          exact hacc

/-- What the directives of a text define. -/
def directiveFindings (c : Context) (offset : Int) (s : List Char) : List Finding :=
  (Statement.scanDirectives s).flatMap fun st =>
    (MacroDecl.ofTokens st.tokens).toList.map (.macroDef (c.enterPiece offset))

section

variable (c : Context) (tree : FileTree) (path : String) (cb : Codebase)

theorem answers_addMacros (offset : Int) (s : List Char) (cb : Codebase) :
    Answers (addMacros c offset s cb) (.ok (cb.enterAll (directiveFindings c offset s))) := by
  unfold addMacros directiveFindings
  have hwalk := answers_foldlM_ok
    (fun cb st => answers_addMacroOf (c.enterPiece offset) st cb) (Statement.scanDirectives s) cb
  rwa [enterAll, List.foldl_flatMap]

/-! ## Files -/

/-- A file and its text. -/
def openFile (w : Workspace) (tree : FileTree) (path : String) :
    Except Fault (SourceFile × List Char) :=
  match tree.find? path with
  | none => .error (.missingFile path)
  | some text =>
    let s := Text.unifyLineBreaks text.toList
    .ok ((SourceFile.ofName w path).fillLines s, s)

theorem answers_readFile (w : Workspace) (tree : FileTree) (path : String) :
    Answers (readFile w tree path) (openFile w tree path) := by
  unfold readFile openFile
  cases tree.find? path with
  | none => exact answers_throw _
  | some text => exact answers_pure _

/-- What a file defines as it stands. -/
def plainFindings (c : Context) (tree : FileTree) (path : String) :
    Except Fault (List Finding) := do
  let opened ← openFile c.workspace tree path
  textFindings (c.enterFile opened.1 0) 0 true opened.2

/-- What a file defines with its macros expanded. -/
def expandedFindings (c : Context) (tree : FileTree) (macros : Table MacroDecl)
    (path : String) : Except Fault (List Finding) := do
  let opened ← openFile c.workspace tree path
  let out := Macro.expand macros false (.offset opened.1) opened.2
  let file := { opened.1.setInserts out.inserts with expandList := out.expansions.toArray }
  textFindings (c.enterFile file 0) 0 false out.text

/-- The macros that a file defines. -/
def macroFindings (c : Context) (tree : FileTree) (path : String) :
    Except Fault (List Finding) := do
  let opened ← openFile c.workspace tree path
  return directiveFindings (c.enterFile opened.1 0) 0 opened.2

theorem answers_addMacroFile :
    Answers (addMacroFile c tree path cb) ((macroFindings c tree path).map cb.enterAll) := by
  have hread := answers_readFile c.workspace tree path
  exact hread.bind_then_map fun _ => answers_addMacros _ 0 _ cb

theorem answers_addExpandedFile : Answers (addExpandedFile c tree path cb)
      ((expandedFindings c tree cb.macroTable path).map cb.examineMacros.enterAll) := by
  have hread := answers_readFile c.workspace tree path
  refine hread.bind_then_map fun opened => ?_
  exact (answers_array_forM answers_note _).bind_ok (answers_addText _ 0 false _ _)

theorem answers_addFile :
    Answers (addFile c tree false path cb) ((plainFindings c tree path).map cb.enterAll) := by
  have hread := answers_readFile c.workspace tree path
  refine (answers_trace _ _ _).bind_ok ?_
  exact hread.bind_then_map fun _ => answers_addText _ 0 true _ cb

end

variable {c : Context} {tree : FileTree} {path : String}

theorem start_scanFiles_single (h : plainFindings c tree path = .ok findings) :
    (scanFiles c tree false false [path] {}).start.1 = .ok (({} : Codebase).enterAll findings) := by
  refine (Audit.answers_foldlM (fun cb path => answers_addFile c tree path cb)
    [path] {}).start_fst.trans ?_
  rw [List.foldlM_cons, h]
  rfl

theorem exists_scanFiles_single {β : Type} {f : List Finding → β} {b : β}
    (h : (plainFindings c tree path).toOption.map f = some b) :
    ∃ findings, f findings = b ∧
      (scanFiles c tree false false [path] {}).start.1 = .ok (({} : Codebase).enterAll findings) := by
  obtain ⟨findings, hfound, hf⟩ := Option.map_eq_some_iff.mp h
  exact ⟨findings, hf, start_scanFiles_single (Fault.eq_ok_of_toOption hfound)⟩

theorem find?_single (path text : String) :
    FileTree.find? ⟨⟨[(Path.normalize path, text)]⟩⟩ path = some text := by
  simp [FileTree.find?, Table.find?]

end Codebase

end CBoundary
