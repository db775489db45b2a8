import CBoundary.Proofs.Access.Events
import CBoundary.Proofs.Access.Uses
import CBoundary.Proofs.Code.Bodies

/-!
# Reported uses of global names

A function is looked at either for the private names of other modules alone, all of which are
reported, or for all names, of which those are reported that belong to another module, private
or not.
-/

namespace CBoundary

open Audit

/-- Place and name of a reported global name. -/
def Entry.globalUse? : Entry → Option (Place × String)
  | .logged ⟨_, some .accessGlobal, place, .privateName _ name _⟩ => some (place, name)
  | _ => none

theorem overlooks_globalUse? : Overlooks Entry.globalUse? .accessGlobal := by
  rintro ⟨level, category, place, message⟩ h
  unfold Entry.globalUse?
  split
  · rename_i heq
    cases heq
    exact absurd rfl h
  · rfl

namespace Checker

open Access

variable {α : Type}
variable {cb : Codebase} {onlyErrors : Bool} {d : Definition} {moduleName name : String}

/-! ## Names -/

/-- The module to which a name belongs; the empty one if it belongs to none. -/
def ownerOf (cb : Codebase) (name : String) : String :=
  ((cb.names.find? name).map Definition.moduleName).getD ""

/-- Does the name belong to a module, and to another one than the given? -/
def isForeign (cb : Codebase) (moduleName name : String) : Bool :=
  !(ownerOf cb name).isEmpty && ownerOf cb name != moduleName

/-- What is reported of the use of a name. -/
def reportedUse (x : Subject) (onlyErrors : Bool) (use : Nat × List Char) :
    List (Place × String) :=
  if onlyErrors || isForeign x.codebase x.definition.moduleName (String.ofList use.2) then
    [(x.place use.1, String.ofList use.2)]
  else []

theorem leaves_checkName (x : Subject) (onlyErrors : Bool) (use : Nat × List Char) :
    Leaves Entry.globalUse? (checkName x onlyErrors use.1 (String.ofList use.2))
      (reportedUse x onlyErrors use) := by
  cases onlyErrors with
  | true => exact leaves_record _
  | false =>
    refine Silent.bind_ok (overlooks_globalUse?.silent_trace _ _ _) (answers_trace _ _ _) ?_
    change Leaves _ (if isForeign x.codebase x.definition.moduleName (String.ofList use.2) = true
      then _ else _) (if isForeign x.codebase x.definition.moduleName (String.ofList use.2) = true
      then _ else _)
    split
    · exact leaves_record _
    · exact leaves_pure _

theorem answers_checkExpansions (cb : Codebase) (d : Definition) (e : Expansions) :
    Answers (checkExpansions cb d e) (.ok ()) := by
  refine answers_forM (fun callerName => answers_forM (fun calleeName => ?_) _) _
  split
  · exact answers_pure _
  · refine .ite ?_ (answers_pure _)
    unfold reportMacro
    split
    · exact answers_report _ _ _
    · exact (answers_report _ _ _).bind_ok ((answers_report _ _ _).bind_ok (answers_report _ _ _))

theorem answers_localTypes (x : Subject) (f : FunctionDecl) (cleaned : List Char) :
    ∃ types : List Variable → Table (List Token), Answers (localTypes x f cleaned)
      ((f.localsOfTypes x.definition.scope x.codebase.allTypes (some cleaned)).map types) := by
  let add (t : Table (List Token)) (v : Variable) : Table (List Token) :=
    if v.hasType then t.insert v.name.value (v.type.getD []) else t
  have hadd (t : Table (List Token)) (v : Variable) :
      Answers (if v.hasType then return t.insert v.name.value (v.type.getD [])
        else do
          report .parseLocalvar (x.place v.name.span.start) (.untypedLocal v.name.value)
          return t) (.ok (add t v)) := by
    show Answers _ (.ok (if v.hasType = true then _ else _))
    split
    · exact answers_pure _
    · exact (answers_report _ _ _).bind_pure
  refine ⟨fun locals => locals.foldl add ((f.arguments x.definition.scope).foldl add {}), ?_⟩
  refine (answers_foldlM_ok hadd _ _).bind_ok ?_
  cases f.localsOfTypes x.definition.scope x.codebase.allTypes (some cleaned) with
  | error fault => exact Answers.bind_error (answers_liftM (.error fault))
  | ok locals => exact (answers_liftM (.ok locals)).bind_ok (answers_foldlM_ok hadd _ _)

section

variable {γ : Type} {view : Entry → Option γ} {visit : Visitor α} {v : Access → List α}
  {es : Nat × List Char → List γ}

/-- The look at a use of a name. -/
def lookAtUse (x : Subject) (onlyErrors : Bool) (visit : Visitor α) (use : Nat × List Char) :
    Audit (List α) := do
  checkName x onlyErrors use.1 (String.ofList use.2)
  visit ⟨x.definition, .name ⟨use.1, use.1 + (String.ofList use.2).length⟩ (String.ofList use.2)⟩

theorem leaves_scanBody (hview : Overlooks view .accessGlobal) {k : Checker} {onlyErrors : Bool}
    {d : Definition} {body : Token} (hquiet : Discreet view visit d)
    (hvisit : ∀ a, Answers (visit ⟨d, a⟩) (.ok (v a)))
    (hnames : ∀ locals use, Leaves view (lookAtUse
      { codebase := k.codebase, definition := d, body, locals } onlyErrors visit use) (es use))
    (f : FunctionDecl) :
    Leaves view (scanBody k onlyErrors visit d f body)
      (match f.localsOfTypes d.scope k.codebase.allTypes
          (some (Text.blankNotesAndLiterals body.chars)) with
        | .error _ => []
        | .ok _ =>
          (((k.namePattern onlyErrors d.moduleName).2.map fun p =>
            p.uses 0 [] (Text.blankNotesAndLiterals body.chars)).getD []).flatMap es) := by
  refine Silent.bind_ok
    (adds_mapM (fun e => (hquiet.expansion _).bind fun _ =>
      (hview.silent (adds_checkExpansions _ _ _)).bind_pure) _)
    (answers_mapM_ok (g := fun e => v (.expansion e))
      (fun e => (hvisit _).bind_ok ((answers_checkExpansions _ _ _).bind_ok
        (f := fun _ => pure (v (.expansion e))) (answers_pure _))) _) ?_
  let x : Subject := { codebase := k.codebase, definition := d, body }
  have hsilent := hview.silent (adds_localTypes x f (Text.blankNotesAndLiterals body.chars))
  obtain ⟨types, htypes⟩ := answers_localTypes x f (Text.blankNotesAndLiterals body.chars)
  cases hlocals : f.localsOfTypes d.scope k.codebase.allTypes
      (some (Text.blankNotesAndLiterals body.chars)) with
  | error fault =>
    rw [hlocals] at htypes
    exact hsilent.leaves.bind_error htypes
  | ok locals =>
    rw [hlocals] at htypes
    refine Silent.bind_ok hsilent htypes ?_
    refine .ite (Silent.bind_ok (hview.silent_trace _ _ _) (answers_trace _ _ _) ?_) ?_
    all_goals
      refine Leaves.bind_silent (leaves_mapM
        (v := fun use => v (.name ⟨use.1, use.1 + (String.ofList use.2).length⟩
          (String.ofList use.2))) (hnames _) (fun use => ?_) _) fun names => ?_
      · exact (answers_checkName _ onlyErrors _ _).bind_ok (hvisit _)
      · exact (adds_mapM (silent_checkChain hview hquiet) _).bind_pure

end

/-! ## Definitions -/

/-- The body that is looked at for names: none if its local variables cannot be read. -/
def searchedBody? (cb : Codebase) (d : Definition) : Option Token :=
  match d.details with
  | some (.function f) =>
    match f.body with
    | some body =>
      if d.kind == "function" then
        match f.localsOfTypes d.scope cb.finalize.allTypes
            (some (Text.blankNotesAndLiterals body.chars)) with
        | .ok _ => some body
        | .error _ => none
      else none
    | none => none
  | _ => none

theorem leaves_scanDefinition {γ : Type} {view : Entry → Option γ} {visit : Visitor α}
    {v : Access → List α} {es : Token → Nat × List Char → List γ}
    (hview : Overlooks view .accessGlobal) {k : Checker}
    (hk : k.codebase = cb.finalize)
    (hquiet : Discreet view visit d) (hvisit : ∀ a, Answers (visit ⟨d, a⟩) (.ok (v a)))
    (hnames : ∀ body locals use, Leaves view (lookAtUse
      { codebase := cb.finalize, definition := d, body, locals } onlyErrors visit use)
      (es body use)) :
    Leaves view (scanDefinition k onlyErrors visit d)
      (match searchedBody? cb d with
        | none => []
        | some body =>
          (((k.namePattern onlyErrors d.moduleName).2.map fun p =>
            p.uses 0 [] (Text.blankNotesAndLiterals body.chars)).getD []).flatMap (es body)) := by
  refine Silent.bind_ok (hview.silent_trace _ _ _) (answers_trace _ _ _) ?_
  refine Silent.bind_ok (hview.silent_trace _ _ _) (answers_trace _ _ _) ?_
  unfold searchedBody?
  rcases d.details with _ | (f | r | m | v)
  case some.function =>
    dsimp only
    cases f.body with
    | none => exact leaves_pure _
    | some body =>
      dsimp only
      by_cases hkind : (d.kind == "function") = true
      · rw [if_pos hkind, if_pos hkind]
        have hleaves := leaves_scanBody (k := k) hview hquiet hvisit
          (fun locals use => by rw [hk]; exact hnames body locals use) f
        rw [hk] at hleaves
        cases hlocals : f.localsOfTypes d.scope cb.finalize.allTypes
            (some (Text.blankNotesAndLiterals body.chars)) with
        | error fault => rw [hlocals] at hleaves; exact hleaves
        | ok locals => rw [hlocals] at hleaves; exact hleaves
      · rw [if_neg hkind, if_neg hkind]
        exact leaves_pure _
  all_goals exact leaves_pure _

/-- The reported uses of global names in a definition, if it is looked at first. -/
def reports (cb : Codebase) (onlyErrors : Bool) (g : AccessEvent → List α) (d : Definition) :
    List (Place × String) :=
  ((ofCodebase cb).scanDefinition onlyErrors (fun e => pure (g e)) d).start.2.seen Entry.globalUse?

/-- The names that are looked for. -/
def searchedNames (cb : Codebase) (onlyErrors : Bool) (moduleName : String) : List String :=
  if onlyErrors then foreignNames cb moduleName else cb.names.keys

theorem namePattern_ofCodebase (cb : Codebase) (onlyErrors : Bool) (moduleName : String) :
    ((ofCodebase cb).namePattern onlyErrors moduleName).2 =
      NamePattern.ofNames? (searchedNames cb onlyErrors moduleName) := by
  obtain ⟨hnames, hrestricted, -⟩ := cb.names_finalize
  cases onlyErrors with
  | true =>
    show NamePattern.ofNames? (foreignNames cb.finalize moduleName) = _
    rw [foreignNames, hnames, hrestricted]
    rfl
  | false =>
    show NamePattern.ofNames? cb.finalize.names.keys = _
    rw [hnames]
    rfl

theorem reports_eq (cb : Codebase) (onlyErrors : Bool) (g : AccessEvent → List α)
    (d : Definition) :
    reports cb onlyErrors g d = match searchedBody? cb d with
      | none => []
      | some body =>
        (((NamePattern.ofNames? (searchedNames cb onlyErrors d.moduleName)).map fun p =>
          p.uses 0 [] (Text.blankNotesAndLiterals body.chars)).getD []).flatMap
            (reportedUse { codebase := cb.finalize, definition := d, body } onlyErrors) := by
  rw [← namePattern_ofCodebase]
  refine (leaves_scanDefinition overlooks_globalUse? rfl (.of_silent (fun e => adds_pure _) d)
    (fun a => answers_pure (g ⟨d, a⟩)) fun body locals use => ?_).start_snd
  exact (leaves_checkName _ onlyErrors use).bind_silent fun _ => adds_pure _

/-! ## What is reported -/

/-- One of some names is used at a place of a body, comments and literals apart. -/
def UsedIn (body : Token) (names : List String) (i : Nat) (name : String) : Prop :=
  Used (names.map String.toList) (Text.blankNotesAndLiterals body.chars) i name.toList

instance (body : Token) (names : List String) (i : Nat) (name : String) :
    Decidable (UsedIn body names i name) := inferInstanceAs (Decidable (Used _ _ _ _))

/-- The place of a use in a body. -/
def usePlace (d : Definition) (body : Token) (i : Nat) : Place :=
  .inside d.scope.file (d.scope.offset + body.span.start + i) d.moduleName d.name

theorem usePlace_injective {body : Token} {i j : Nat} (h : usePlace d body i = usePlace d body j) :
    i = j := by
  have hoffset : d.scope.offset + body.span.start + (i : Int) =
      d.scope.offset + body.span.start + (j : Int) := by
    injection h
  omega

theorem mem_foreignNames : name ∈ foreignNames cb moduleName ↔
      name ∈ cb.restrictedNames ∧ ownerOf cb name ≠ moduleName := by
  rw [foreignNames, List.mem_filter, bne_iff_ne]
  rfl

theorem mem_keys_of_mem_foreignNames (hcb : cb.WordNames) (h : name ∈ foreignNames cb moduleName) :
    name ∈ cb.names.keys :=
  Table.mem_keys_iff.mpr (hcb.restricted name (mem_foreignNames.mp h).1)

theorem mem_keys_of_mem_searchedNames (hcb : cb.WordNames)
    (h : name ∈ searchedNames cb onlyErrors moduleName) : name ∈ cb.names.keys := by
  cases onlyErrors with
  | true => exact mem_keys_of_mem_foreignNames hcb h
  | false => exact h

theorem words_searchedNames (hcb : cb.WordNames) :
    ∀ name ∈ searchedNames cb onlyErrors moduleName, ∀ c ∈ name.toList, Text.isWordChar c = true :=
  fun name h => hcb.words name (Table.mem_keys_iff.mp (mem_keys_of_mem_searchedNames hcb h))

theorem mem_reports_iff (hcb : cb.WordNames) {g : AccessEvent → List α} {place : Place} :
    (place, name) ∈ reports cb onlyErrors g d ↔
      ∃ body i, searchedBody? cb d = some body ∧ place = usePlace d body i ∧
        UsedIn body (searchedNames cb onlyErrors d.moduleName) i name ∧
        (onlyErrors || isForeign cb d.moduleName name) = true := by
  have hforeign (name : String) :
      isForeign cb.finalize d.moduleName name = isForeign cb d.moduleName name := by
    unfold isForeign ownerOf
    rw [(cb.names_finalize).1]
  rw [reports_eq]
  cases searchedBody? cb d with
  | none => simp
  | some body =>
    rw [List.mem_flatMap]
    constructor
    · rintro ⟨⟨i, n⟩, hmem, huse⟩
      have hused := (NamePattern.mem_uses_ofNames? (words_searchedNames hcb)).mp hmem
      unfold reportedUse at huse
      split at huse
      · rename_i hreport
        obtain ⟨rfl, rfl⟩ := Prod.mk.inj (List.mem_singleton.mp huse)
        rw [hforeign] at hreport
        refine ⟨body, i, rfl, rfl, ?_, hreport⟩
        rw [UsedIn, String.toList_ofList]
        exact hused
      · cases huse
    · rintro ⟨body', i, hbody, rfl, hused, hreport⟩
      cases hbody
      refine ⟨(i, name.toList), (NamePattern.mem_uses_ofNames? (words_searchedNames hcb)).mpr hused, ?_⟩
      rw [reportedUse, String.ofList_toList, hforeign, if_pos hreport]
      exact List.mem_singleton.mpr rfl

/-! ## When both ways agree -/

/-- Names of other modules that are used are private, and no other used name takes up a place where
a private name of another module fits. -/
def NamesLineUp (cb : Codebase) (d : Definition) : Prop :=
  ∀ body, searchedBody? cb d = some body → ∀ i name, UsedIn body cb.names.keys i name →
    if isForeign cb d.moduleName name then name ∈ cb.restrictedNames
    else ∀ j, ∀ other ∈ foreignNames cb d.moduleName,
      Fits (Text.blankNotesAndLiterals body.chars) j other.toList → ¬ Covers i name.toList j

theorem mem_foreignNames_of_isForeign (h : isForeign cb moduleName name = true) :
    name ∈ foreignNames cb moduleName ↔ name ∈ cb.restrictedNames := by
  have howner : ownerOf cb name ≠ moduleName := bne_iff_ne.mp (Bool.and_eq_true_iff.mp h).2
  rw [mem_foreignNames]
  exact and_iff_left howner

theorem namesLineUp_iff (hcb : cb.WordNames) :
    NamesLineUp cb d ↔ ∀ body, searchedBody? cb d = some body → ∀ i name,
      UsedIn body (foreignNames cb d.moduleName) i name ↔
        UsedIn body cb.names.keys i name ∧ isForeign cb d.moduleName name = true := by
  have hchars : Function.Surjective String.toList := fun n =>
    ⟨String.ofList n, String.toList_ofList⟩
  have hmem (l : List String) (name : String) : name.toList ∈ l.map String.toList ↔ name ∈ l :=
    List.mem_map_of_injective fun _ _ h => String.toList_injective h
  refine forall_congr' fun body => imp_congr_right fun _ => ?_
  have hagree := used_agree_iff (s := Text.blankNotesAndLiterals body.chars)
    (R := fun n => isForeign cb d.moduleName (String.ofList n) = true)
    (fun m (hm : m ∈ (foreignNames cb d.moduleName).map String.toList) => ?_)
    (fun n (hn : n ∈ cb.names.keys.map String.toList) => ?_)
  · simp only [hchars.forall, String.ofList_toList, hmem] at hagree
    refine Iff.trans ?_ hagree.symm
    refine forall_congr' fun i => forall_congr' fun name => imp_congr_right fun _ => ?_
    by_cases hforeign : isForeign cb d.moduleName name = true
    · rw [if_pos hforeign, ← mem_foreignNames_of_isForeign hforeign]
      exact ⟨fun h => ⟨fun _ => h, fun hnot => absurd hforeign hnot⟩, fun h => h.1 hforeign⟩
    · rw [if_neg hforeign]
      exact ⟨fun h => ⟨fun hf => absurd hf hforeign, fun _ => h⟩, fun h => h.2 hforeign⟩
  · obtain ⟨name, hname, rfl⟩ := List.mem_map.mp hm
    exact (hmem _ _).mpr (mem_keys_of_mem_foreignNames hcb hname)
  · obtain ⟨name, hname, rfl⟩ := List.mem_map.mp hn
    exact hcb.words name (Table.mem_keys_iff.mp hname)

/-- Looking for errors only reports the uses of private names of other modules, those of none among
them; else the uses of all names of another module, as found among all names. Both are the same
exactly if the names of the body line up. -/
theorem reports_agree_iff {α : Type} (c : Context) (tree : FileTree) (twoPass : Bool)
    (paths : List String) (macros : Table Definition) (cb : Codebase)
    (hscan : (Codebase.scanFiles c tree twoPass false paths { macros }).start.1 = .ok cb)
    (g : AccessEvent → List α) (d : Definition) :
    (∀ place name, (place, name) ∈ reports cb true g d ↔
      ∃ body i, searchedBody? cb d = some body ∧ place = usePlace d body i ∧
        UsedIn body (foreignNames cb d.moduleName) i name) ∧
    (∀ place name, (place, name) ∈ reports cb false g d ↔
      ∃ body i, searchedBody? cb d = some body ∧ place = usePlace d body i ∧
        UsedIn body cb.names.keys i name ∧ isForeign cb d.moduleName name = true) ∧
    ((∀ use, use ∈ reports cb true g d ↔ use ∈ reports cb false g d) ↔ NamesLineUp cb d) ∧
    (NamesLineUp cb d → ∀ place name, (place, name) ∈ reports cb true g d ↔
      ∃ body i, searchedBody? cb d = some body ∧ place = usePlace d body i ∧
        UsedIn body cb.names.keys i name ∧ name ∈ cb.restrictedNames ∧
        isForeign cb d.moduleName name = true) := by
  have hcb : cb.WordNames := (Codebase.wordNames_start macros).scanFiles hscan
  have hfast : ∀ place name, (place, name) ∈ reports cb true g d ↔
      ∃ body i, searchedBody? cb d = some body ∧ place = usePlace d body i ∧
        UsedIn body (foreignNames cb d.moduleName) i name := by
    intro place name
    rw [mem_reports_iff hcb]
    simp [searchedNames]
  have hslow : ∀ place name, (place, name) ∈ reports cb false g d ↔
      ∃ body i, searchedBody? cb d = some body ∧ place = usePlace d body i ∧
        UsedIn body cb.names.keys i name ∧ isForeign cb d.moduleName name = true := by
    intro place name
    rw [mem_reports_iff hcb]
    simp [searchedNames]
  have hagree : (∀ use, use ∈ reports cb true g d ↔ use ∈ reports cb false g d) ↔
      NamesLineUp cb d := by
    rw [namesLineUp_iff hcb, Prod.forall]
    constructor
    · intro h body hbody i name
      have huse := h (usePlace d body i) name
      rw [hfast, hslow] at huse
      -- a place tells where in the body it is
      constructor
      · intro hused
        obtain ⟨body', i', hbody', hplace, hall⟩ := huse.mp ⟨body, i, hbody, rfl, hused⟩
        cases hbody.symm.trans hbody'
        rwa [usePlace_injective hplace]
      · intro hall
        obtain ⟨body', i', hbody', hplace, hused⟩ := huse.mpr ⟨body, i, hbody, rfl, hall⟩
        cases hbody.symm.trans hbody'
        rwa [usePlace_injective hplace]
    · intro h place name
      rw [hfast, hslow]
      refine exists_congr fun body => exists_congr fun i => and_congr_right fun hbody => ?_
      rw [h body hbody i name]
  refine ⟨hfast, hslow, hagree, fun hline place name => ?_⟩
  rw [hagree.mpr hline, hslow]
  refine exists_congr fun body => exists_congr fun i => and_congr_right fun hbody =>
    and_congr_right fun _ => and_congr_right fun hused => ?_
  have hprivate := hline body hbody i name hused
  refine ⟨fun hforeign => ⟨?_, hforeign⟩, fun h => h.2⟩
  rwa [if_pos hforeign] at hprivate

/-! ## A public function of another module -/

/-- A file with two public functions of different modules, one of which calls the other. -/
def callText : String :=
  "/* #public(mm) */ int ff(void) \x7b return 0; \x7d\n" ++
  "/* #public(nn) */ int gg(void) \x7b return ff(); \x7d\n"

/-- The tree of that file alone. -/
def callTree : FileTree := ⟨⟨[(Path.normalize "a.c", callText)]⟩⟩

theorem plainFindings_call :
    ((Codebase.plainFindings {} callTree "a.c").toOption.map fun findings =>
      let cb := ({} : Codebase).enterAll findings
      (cb.restrictedNames, (cb.names.find? "gg").map fun d => (searchedBody? cb d).map fun body =>
        decide (UsedIn body cb.names.keys 8 "ff") && isForeign cb d.moduleName "ff")) =
      some ([], some (some true)) := by
  rw [Codebase.plainFindings, Codebase.openFile, callTree, Codebase.find?_single]
  decide +kernel

/-- The call is reported unless only errors are looked for. -/
theorem reports_agree_iff_call :
    ∃ cb d, (Codebase.scanFiles {} callTree false false ["a.c"] {}).start.1 = .ok cb ∧
      cb.names.find? "gg" = some d ∧ ¬ NamesLineUp cb d ∧
      ¬ ∀ use, use ∈ reports cb true (fun _ => ([] : List Unit)) d ↔
        use ∈ reports cb false (fun _ => ([] : List Unit)) d := by
  obtain ⟨findings, hcall, hscan⟩ := Codebase.exists_scanFiles_single plainFindings_call
  obtain ⟨hrestricted, hcall⟩ := Prod.mk.inj hcall
  obtain ⟨d, hd, hcall⟩ := Option.map_eq_some_iff.mp hcall
  obtain ⟨body, hbody, hcall⟩ := Option.map_eq_some_iff.mp hcall
  obtain ⟨hused, hforeign⟩ := Bool.and_eq_true_iff.mp hcall
  have hline : ¬ NamesLineUp (({} : Codebase).enterAll findings) d := by
    intro h
    have hprivate := h body hbody 8 "ff" (of_decide_eq_true hused)
    rw [if_pos hforeign, hrestricted] at hprivate
    cases hprivate
  refine ⟨_, d, hscan, hd, hline, fun hagree => hline ?_⟩
  exact (reports_agree_iff {} callTree false ["a.c"] {} _ hscan _ d).2.2.1.mp hagree

end Checker

end CBoundary
