import CBoundary.Proofs.Code.TwoPass
import CBoundary.Proofs.Code.Place
import CBoundary.Proofs.Declaration.Enclosed
import CBoundary.Program.Command

/-!
# Names and bodies of functions

Whatever files are scanned, the global names of the code base are words, or empty, and the private
names are among them.  The body of a function is the inside of a block of its statement, and is kept
when definitions are brought together.
-/

namespace CBoundary

open Text

/-! ## Names -/

/-- The name of a function is a word. -/
def Finding.HasWordName : Finding → Prop
  | .function _ f => ∀ c ∈ f.name.chars, isWordChar c = true
  | _ => True

namespace Codebase

variable {c : Context} {s : List Char} {directives : Bool} {findings : List Finding}

theorem hasWordName_statementFindings {st : Statement} {k : StatementKind}
    (hst : st ∈ Statement.scan s 0) (hk : st.kind = .ok k)
    (h : statementFindings c directives st k = .ok findings) :
    ∀ found ∈ findings, found.HasWordName := by
  have htokens := Statement.standsIn_of_mem_scan hst
  rw [Statement.kind, Statement.kind?_of_mem_group _ _ st hst] at hk
  intro found hfound
  rcases cases_of_mem_statementFindings h hfound with
    ⟨f, hdef, hf, -, rfl⟩ | ⟨r, r', -, -, rfl⟩ | ⟨m, -, rfl⟩
  · exact FunctionDecl.all_isWordChar_name htokens hk hdef hf
  · exact trivial
  · exact trivial

theorem hasWordName_textFindings {offset : Int}
    (h : textFindings c offset directives s = .ok findings) :
    ∀ found ∈ findings, found.HasWordName :=
  forall_mem_textFindings (R := fun _ _ => True) (fun _ _ _ _ _ _ _ => trivial)
    (fun _ _ => trivial)
    (fun _ _ _ _ _ _ _ hst hk hfound => hasWordName_statementFindings hst hk hfound) trivial h

/-! ## Code bases -/

/-- The global names are words, and the private names are among them. -/
structure WordNames (cb : Codebase) : Prop where
  words : ∀ key, cb.names.find? key ≠ none → ∀ c ∈ key.toList, isWordChar c = true
  restricted : ∀ name ∈ cb.restrictedNames, cb.names.find? name ≠ none

namespace WordNames

variable {cb cb' : Codebase}

theorem congr (h : cb.WordNames) (hnames : cb'.names = cb.names)
    (hrestricted : cb'.restrictedNames = cb.restrictedNames) : cb'.WordNames where
  words := by rw [hnames]; exact h.words
  restricted := by rw [hnames, hrestricted]; exact h.restricted

theorem addedName {d : Definition} (h : cb.WordNames)
    (hd : ∀ c ∈ d.name.toList, isWordChar c = true) : (cb.addedName d).WordNames where
  words := by
    intro key hkey
    change (Definition.upserted cb.names d).1.find? key ≠ none at hkey
    rw [Definition.find?_upserted] at hkey
    split at hkey
    · rename_i heq
      rwa [heq]
    · exact h.words key hkey
  restricted := by
    intro name hname
    change (Definition.upserted cb.names d).1.find? name ≠ none
    rw [Definition.find?_upserted]
    split
    · exact Option.some_ne_none _
    · rename_i hne
      change name ∈ (if d.hidden = true then _ else _) at hname
      apply h.restricted
      split at hname
      · unfold addName at hname
        split at hname
        · exact hname
        · rcases List.mem_append.mp hname with hname | hname
          · exact hname
          · exact absurd (List.mem_singleton.mp hname) hne
      · exact hname

theorem enter {found : Finding} (h : cb.WordNames) (hfound : found.HasWordName) :
    (cb.enter found).WordNames := by
  cases found with
  | typedef name base => exact h.congr rfl rfl
  | record c r => exact h.congr (outside_addedRecord c r cb).1 (outside_addedRecord c r cb).2.1
  | macroDef c m => exact h.congr rfl rfl
  | function c f =>
    show (addedFunction c f cb).WordNames
    unfold addedFunction
    split
    · exact h.congr rfl rfl
    · exact h.addedName hfound

theorem enterAll {findings : List Finding} (h : cb.WordNames)
    (hfindings : ∀ found ∈ findings, found.HasWordName) : (cb.enterAll findings).WordNames :=
  List.foldlRecOn (motive := WordNames) findings Codebase.enter h
    fun _ hcb found hmem => hcb.enter (hfindings found hmem)

end WordNames

/-! ## Scans -/

theorem hasWordName_directiveFindings (c : Context) (offset : Int) (s : List Char) :
    ∀ found ∈ directiveFindings c offset s, found.HasWordName := by
  intro found hfound
  obtain ⟨st, -, hfound⟩ := List.mem_flatMap.mp hfound
  obtain ⟨m, -, rfl⟩ := List.mem_map.mp hfound
  exact trivial

/-- A scan enters words only. -/
theorem WordNames.scanFiles {tree : FileTree} {twoPass : Bool} {paths : List String}
    {cb cb' : Codebase} (h : cb.WordNames)
    (hrun : (scanFiles c tree twoPass false paths cb).start.1 = .ok cb') : cb'.WordNames := by
  cases twoPass with
  | true =>
    refine gives_twoPass (fun cb hcb => hcb.congr rfl rfl)
      (fun table path _ findings hfound cb hcb => ?_) (absurd · Bool.false_ne_true)
      (fun first => foldlM_enterAll_preserves (fun path _ findings hfound cb hcb => ?_) h) #[] cb' hrun
    · obtain ⟨opened, -, hfound⟩ := Fault.exists_of_bind_eq_ok hfound
      exact hcb.enterAll (hasWordName_textFindings hfound)
    · obtain ⟨opened, -, ⟨⟩⟩ := Fault.exists_of_bind_eq_ok hfound
      exact hcb.enterAll (hasWordName_directiveFindings _ _ _)
  | false =>
    refine gives_onePass (fun path _ findings hfound cb hcb => ?_) false h #[] cb' hrun
    obtain ⟨opened, -, hfound⟩ := Fault.exists_of_bind_eq_ok hfound
    exact hcb.enterAll (hasWordName_textFindings hfound)

theorem wordNames_start (macros : Table Definition) : ({ macros } : Codebase).WordNames where
  words := fun _ h => absurd rfl h
  restricted := List.forall_mem_nil _

theorem names_finalize (cb : Codebase) :
    cb.finalize.names = cb.names ∧ cb.finalize.restrictedNames = cb.restrictedNames ∧
      cb.finalize.staticNames = cb.staticNames := by
  have hmerge (cb : Codebase) (name : String) : (cb.mergeTypedef name).names = cb.names ∧
      (cb.mergeTypedef name).restrictedNames = cb.restrictedNames ∧
      (cb.mergeTypedef name).staticNames = cb.staticNames := by
    unfold mergeTypedef
    split
    · exact ⟨rfl, rfl, rfl⟩
    · dsimp only
      split <;> exact ⟨rfl, rfl, rfl⟩
  have hfold (keys : List String) : (keys.foldl mergeTypedef cb).names = cb.names ∧
      (keys.foldl mergeTypedef cb).restrictedNames = cb.restrictedNames ∧
      (keys.foldl mergeTypedef cb).staticNames = cb.staticNames := by
    refine List.foldlRecOn (motive := fun cb' : Codebase => cb'.names = cb.names ∧
      cb'.restrictedNames = cb.restrictedNames ∧ cb'.staticNames = cb.staticNames) keys _
      ⟨rfl, rfl, rfl⟩ fun cb' h name _ => ?_
    obtain ⟨hnames, hrestricted, hstatic⟩ := hmerge cb' name
    exact ⟨hnames.trans h.1, hrestricted.trans h.2.1, hstatic.trans h.2.2⟩
  unfold finalize fillTypedefs
  split
  · exact ⟨rfl, rfl, rfl⟩
  · exact hfold _

end Codebase

open List

variable {st : Statement}

/-! ## Definitions -/

variable {texts : Texts} {paths : List String}

namespace Definition

variable {a : Definition}

/-- A condition holds of the body, if there is one. -/
def BodyIs (P : Scope → Token → Prop) (d : Definition) : Prop :=
  ∀ f body, d.details = some (.function f) → f.body = some body → P d.scope body

/-- A function with a body is from one of some files, and the body stands there with its closing
brace. -/
def BodyInPlace (texts : Texts) (paths : List String) (d : Definition) : Prop :=
  ∀ f body, d.details = some (.function f) → f.body = some body →
    d.scope.file.name ∈ paths ∧ d.scope.Shows texts body.span.start (body.chars ++ ['\x7d'])

theorem details_absorbed_function {b : Definition} {f : FunctionDecl}
    (h : (a.absorbed b).details = some (.function f)) :
    ∃ g, a.details = some (.function g) ∧ g.body = f.body := by
  rw [absorbed_details] at h
  unfold jointDetails? at h
  cases hx : a.details with
  | none => rw [hx] at h; cases h
  | some x =>
    rw [hx] at h
    cases hy : b.details with
    | none =>
      rw [hy] at h
      exact ⟨f, h, rfl⟩
    | some y =>
      rw [hy] at h
      cases x <;> cases y <;> cases h
      all_goals exact ⟨_, rfl, rfl⟩

theorem BodyIs.merged {P : Scope → Token → Prop} (h : a.BodyIs P) (b : Definition) :
    (a.merged b).1.BodyIs P := by
  intro f body hf hbody
  rw [merged_fst] at hf
  rw [merged_fst_scope]
  split at hf
  · obtain ⟨g, hg, hsame⟩ := details_absorbed_function hf
    exact h g body hg (hsame.trans hbody)
  · exact h f body hf hbody

theorem BodyInPlace.merged (h : a.BodyInPlace texts paths) (b : Definition) :
    (a.merged b).1.BodyInPlace texts paths :=
  BodyIs.merged (P := fun sc body => sc.file.name ∈ paths ∧
    sc.Shows texts body.span.start (body.chars ++ ['\x7d'])) h b

end Definition

/-! ## Code bases -/

namespace Codebase

variable {cb : Codebase} {findings : List Finding} {c c' : Context} {f : FunctionDecl}
  {tree : FileTree}

variable {P : Definition → Prop}

theorem FunctionsAre.of_mem (h : cb.FunctionsAre P) {d : Definition}
    (hd : d ∈ Checker.functions cb) : P d := by
  rcases mem_append.mp hd with hd | hd
  · exact h.names d hd
  · obtain ⟨ds, hds, hd⟩ := mem_flatten.mp hd
    obtain ⟨t, ht, rfl⟩ := mem_map.mp hds
    exact h.staticNames t ht d hd

theorem FunctionsAre.enter (hmerged : ∀ a b : Definition, P a → P b → P (a.merged b).1)
    {found : Finding} (h : cb.FunctionsAre P)
    (hfound : ∀ c f, found = .function c f → P (functionDefinition c f)) :
    (cb.enter found).FunctionsAre P := by
  cases found with
  | typedef name base => exact ⟨h.names, h.staticNames⟩
  | macroDef c m => exact ⟨h.names, h.staticNames⟩
  | record c r => exact h.addedRecord c r
  | function c f => exact h.addedFunction hmerged (hfound c f rfl)

theorem FunctionsAre.enterAll (hmerged : ∀ a b : Definition, P a → P b → P (a.merged b).1)
    (h : cb.FunctionsAre P)
    (hfound : ∀ c f, Finding.function c f ∈ findings → P (functionDefinition c f)) :
    (cb.enterAll findings).FunctionsAre P :=
  foldlRecOn (motive := FunctionsAre P) findings Codebase.enter h fun _ hcb _ hmem =>
    hcb.enter hmerged fun c f hf => hfound c f (hf ▸ hmem)

/-- The body stands in the file's text with the brace that closes it, just as long as its span. -/
structure HasBody (texts : Texts) (file : SourceFile) (sc : Scope) (body : Token) : Prop where
  file_eq : sc.file = file
  offset_nonneg : 0 ≤ sc.offset
  shows : sc.Shows texts body.span.start (body.chars ++ ['\x7d'])
  stop_eq : body.span.stop = body.span.start + body.chars.length

/-- Every function of a text has a body in it. -/
theorem hasBody_textFindings {offset : Int} {directives : Bool} {s : List Char}
    (hc : (c.enterPiece offset).Reads texts s)
    (h : textFindings c offset directives s = .ok findings)
    (hfound : Finding.function c' f ∈ findings) :
    (functionDefinition c' f).BodyIs (HasBody texts c.file) := by
  refine forall_mem_textFindings
    (R := fun c' s => c'.Reads texts s ∧ c'.file = c.file)
    (Q := fun found => ∀ c' f, found = .function c' f →
      (functionDefinition c' f).BodyIs (HasBody texts c.file))
    (fun c s st body hc hst hbody => ?_) (fun name base c f => nofun)
    (fun c s st directives k found hc hst _ hfound x hx c' f hf => ?_) ⟨hc, rfl⟩ h _ hfound c' f rfl
  · have hinside := (Statement.standsIn_of_mem_scan hst body hbody).inside
    rw [Int.sub_zero] at hinside
    exact ⟨hc.1.enterPiece hinside, hc.2⟩
  · rcases cases_of_mem_statementFindings hfound hx with
      ⟨g, -, hg, -, rfl⟩ | ⟨r, r', -, -, rfl⟩ | ⟨m, -, rfl⟩
    · cases hf
      intro f' body hf' hbody
      cases hf'
      obtain ⟨hscope, t, ht, hkind, rfl⟩ := FunctionDecl.isInside_of_body hg hbody
      show HasBody _ _ f.scope _
      rw [hscope]
      obtain ⟨u, hu, rfl⟩ := Tokens.mem_code ht
      obtain ⟨hplace, hstop⟩ := (Statement.closed_of_mem_scan hst u hu).of_kind
        (o := '\x7b') (d := '\x7d') (by decide) hkind rfl
      refine ⟨hc.2, ?_, ?_, hstop⟩
      · obtain ⟨-, text, -, front, -, -, hfront⟩ := hc.1
        omega
      · refine hc.1.shows ?_
        have hinside := hplace.trans ⟨['\x7b'], [], (append_nil _).symm, rfl⟩
        rwa [length_singleton, Int.natCast_one, Int.sub_zero, Int.sub_add_cancel] at hinside
    · cases hf
    · cases hf

theorem bodyInPlace_plainFindings {path : String} (h : plainFindings c tree path = .ok findings)
    (hpath : path ∈ paths) (hfound : Finding.function c' f ∈ findings) :
    (functionDefinition c' f).BodyInPlace (textsOf tree) paths := by
  obtain ⟨opened, hopen, h⟩ := Fault.exists_of_bind_eq_ok h
  intro f' body hf' hbody
  have hplace := hasBody_textFindings (reads_openFile hopen) h hfound f' body hf' hbody
  refine ⟨?_, hplace.shows⟩
  rw [hplace.file_eq]
  exact (openFile_ok hopen).1 ▸ hpath

theorem bodyInPlace_scanFiles {tasks : Bool} {macros : Table Definition}
    (h : (scanFiles c tree false tasks paths { macros }).start.1 = .ok cb) :
    cb.FunctionsAre (Definition.BodyInPlace (textsOf tree) paths) := by
  have hstart : ({ macros } : Codebase).FunctionsAre
      (Definition.BodyInPlace (textsOf tree) paths) :=
    ⟨forall_mem_nil _, forall_mem_nil _⟩
  refine gives_onePass (fun path hpath findings hfindings cb hcb => ?_) tasks hstart #[] cb h
  exact hcb.enterAll (fun a b ha _ => ha.merged b) fun c' f hfound =>
    bodyInPlace_plainFindings hfindings hpath hfound

theorem FunctionsAre.withTypedMacros (h : cb.FunctionsAre (Definition.BodyInPlace texts paths)) :
    cb.withTypedMacros.FunctionsAre (Definition.BodyInPlace texts paths) := by
  refine foldlRecOn (motive := FunctionsAre (Definition.BodyInPlace texts paths)) _ _
    ⟨h.names, h.staticNames⟩ fun cb hcb d _ => ?_
  split
  · rename_i m hm
    split
    · refine ⟨fun x hx => ?_, hcb.staticNames⟩
      rcases Table.mem_values_insert hx with rfl | hx
      · intro f body hf
        rw [hm] at hf
        cases hf
      · exact hcb.names x hx
    · exact hcb
  · exact hcb

theorem FunctionsAre.finalize (h : cb.FunctionsAre P) : cb.finalize.FunctionsAre P := by
  obtain ⟨hnames, -, hstatic⟩ := cb.names_finalize
  refine ⟨?_, ?_⟩
  · rw [hnames]
    exact h.names
  · rw [hstatic]
    exact h.staticNames

end Codebase

end CBoundary
