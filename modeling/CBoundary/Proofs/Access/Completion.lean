import CBoundary.Proofs.Access.Conditionals
import CBoundary.Proofs.Access.Search
import CBoundary.Proofs.Access.Whole
import CBoundary.Proofs.Declaration.Found

/-!
# Looks at functions that come to their end

A look at a function fails in two places only: where its local variables are read, and where the
types of the operands of its chains are deduced.
-/

namespace CBoundary

/-! ## Audits that come back -/

namespace Audit

variable {α β : Type}
variable {a b : Audit α} {f : α → Audit β} {p P : Prop}

/-- The audit comes back with a value, whatever stands in the transcript. -/
def Completes (a : Audit α) : Prop := ∃ x, Answers a (.ok x)

/-- The audit answers, with a value under a condition only. -/
def CompletesIff (P : Prop) (a : Audit α) : Prop := ∃ r, Answers a r ∧ ((∃ x, r = .ok x) ↔ P)

theorem completes_pure (x : α) : Completes (pure x) := ⟨x, answers_pure x⟩

theorem Completes.bind (ha : Completes a) (hf : ∀ x, Completes (f x)) : Completes (a >>= f) := by
  obtain ⟨x, hx⟩ := ha
  obtain ⟨y, hy⟩ := hf x
  exact ⟨y, hx.bind_ok hy⟩

theorem Completes.ite [Decidable p] (ha : Completes a) (hb : Completes b) :
    Completes (if p then a else b) := by
  split
  · exact ha
  · exact hb

theorem completes_mapM (h : ∀ x, Completes (f x)) (l : List α) : Completes (l.mapM f) := by
  choose g hg using h
  exact ⟨_, answers_mapM_ok hg l⟩

theorem CompletesIff.completes_iff (h : CompletesIff P a) : Completes a ↔ P := by
  obtain ⟨r, hr, hP⟩ := h
  rw [← hP]
  exact ⟨fun ⟨x, hx⟩ => ⟨x, hr.unique hx⟩, fun ⟨x, hx⟩ => ⟨x, hx ▸ hr⟩⟩

theorem Answers.completesIff_bind {r : Except Fault α} {P : α → Prop} (ha : Answers a r)
    (hf : ∀ x, CompletesIff (P x) (f x)) : CompletesIff (∃ x, r = .ok x ∧ P x) (a >>= f) := by
  cases r with
  | error fault => exact ⟨_, ha.bind_error, ⟨nofun, nofun⟩⟩
  | ok x =>
    obtain ⟨s, hs, hP⟩ := hf x
    refine ⟨s, ha.bind_ok hs, hP.trans ⟨fun h => ⟨x, rfl, h⟩, ?_⟩⟩
    rintro ⟨y, hy, h⟩
    cases hy
    exact h

theorem Completes.completesIff_bind (ha : Completes a) (hf : ∀ x, CompletesIff P (f x)) :
    CompletesIff P (a >>= f) := by
  obtain ⟨x, hx⟩ := ha
  obtain ⟨s, hs, hP⟩ := hf x
  exact ⟨s, hx.bind_ok hs, hP⟩

theorem CompletesIff.bind (ha : CompletesIff P a) (hf : ∀ x, Completes (f x)) :
    CompletesIff P (a >>= f) := by
  obtain ⟨r, hr, hP⟩ := ha
  cases r with
  | error fault => exact ⟨_, hr.bind_error, ⟨nofun, fun h => by cases (hP.mpr h).choose_spec⟩⟩
  | ok x =>
    obtain ⟨y, hy⟩ := hf x
    exact ⟨_, hr.bind_ok hy, iff_of_true ⟨y, rfl⟩ (hP.mp ⟨x, rfl⟩)⟩

theorem CompletesIff.ite [Decidable p] (ha : CompletesIff P a) (hb : CompletesIff P b) :
    CompletesIff P (if p then a else b) := by
  split
  · exact ha
  · exact hb

theorem completesIff_mapM {P : α → Prop} (h : ∀ x, CompletesIff (P x) (f x)) (l : List α) :
    CompletesIff (∀ x ∈ l, P x) (l.mapM f) := by
  induction l with
  | nil => exact ⟨_, answers_pure [], iff_of_true ⟨[], rfl⟩ fun x hx => absurd hx List.not_mem_nil⟩
  | cons c l ih =>
    rw [List.mapM_cons]
    obtain ⟨r, hr, hP⟩ := h c
    have hrest := hr.completesIff_bind fun x => ih.bind fun xs => completes_pure (x :: xs)
    obtain ⟨s, hs, hiff⟩ := hrest
    refine ⟨s, hs, hiff.trans ?_⟩
    rw [List.forall_mem_cons, ← hP, exists_and_right]

end Audit

/-! ## Looks at functions -/

namespace Checker

open Audit Access Subject

variable {α : Type}
variable {x : Subject} {visit : Visitor α} {ts : List Token}

/-- The tokens of the operand of a chain. -/
def operandTokens (chain : AccessChain) : List Token := Tokens.code (Token.scan chain.name.toList 0)

/-- The deduction of the type of an operand comes upon no broken expression. -/
def Deducible (x : Subject) (chain : AccessChain) : Prop :=
  ∀ us, Relation.ReflTransGen (Asks x) (operandTokens chain) us → ¬ Broken x us

section

variable (x : Subject) (offset : Int) (type : String)

theorem completes_checkMember (d : Definition) (shown : String) :
    Completes (checkMember x offset d shown) :=
  .ite ⟨_, answers_report _ _ _⟩ (completes_pure _)

theorem completes_checkType : Completes (checkType x offset type) := by
  refine .ite ?_ (completes_pure _)
  split
  · exact completes_checkMember _ _ _ _
  · exact completes_pure _

theorem completes_checkField (field : String) : Completes (checkField x offset type field) := by
  unfold checkField
  split
  · exact completes_checkMember _ _ _ _
  · exact completes_pure _

end

theorem completes_checkMembers (hvisit : ∀ a, Completes (visit ⟨x.definition, a⟩))
    (chain : AccessChain) (type : String) (members : List (String × Span)) :
    Completes (checkMembers x visit chain type members) := by
  induction members generalizing type with
  | nil => exact completes_pure _
  | cons member rest ih =>
    refine (hvisit _).bind fun found => Completes.bind ⟨_, answers_trace _ _ _⟩ fun _ =>
      (completes_checkField _ _ _ _).bind fun _ => .ite ?_ ?_
    · exact Completes.bind ⟨_, answers_report _ _ _⟩ fun _ => completes_pure _
    · exact (ih _).bind fun _ => completes_pure _

theorem completesIff_checkChain (hvisit : ∀ a, Completes (visit ⟨x.definition, a⟩))
    (chain : AccessChain) : CompletesIff (Deducible x chain) (checkChain x visit chain) := by
  have hdeduced : CompletesIff (Deducible x chain)
      (x.typeOfTokens chain.span.start (operandTokens chain)) :=
    ⟨_, x.answers_typeOfTokens _ _, exists_deduced_iff (texted_code _ _)⟩
  refine Completes.completesIff_bind ⟨_, answers_trace _ _ _⟩ fun _ =>
    (hvisit _).completesIff_bind fun found => ?_
  refine (hdeduced.bind fun _ => completes_pure _).bind fun type => .ite ?_ ?_
  · exact Completes.bind ⟨_, answers_report _ _ _⟩ fun _ => completes_pure _
  · exact Completes.bind ⟨_, answers_trace _ _ _⟩ fun _ =>
      (completes_checkType _ _ _).bind fun _ => Completes.bind ⟨_, answers_trace _ _ _⟩ fun _ =>
        (completes_checkMembers hvisit _ _ _).bind fun _ => completes_pure _

/-- The body of a function, with the types of some local variables, as a checker looks at it. -/
def subject (k : Checker) (d : Definition) (body : Token) (locals : Table (List Token)) : Subject :=
  { codebase := k.codebase, definition := d, body, locals }

/-- The local variables can be read, and then the type of every operand can be deduced. -/
def Readable (k : Checker) (d : Definition) (f : FunctionDecl) (body : Token) : Prop :=
  ∃ locals, Answers (localTypes (k.subject d body {}) f (bodyText body)) (.ok locals) ∧
    ∀ chain ∈ AccessChain.scanBack 0 (bodyText body), Deducible (k.subject d body locals) chain

/-- The look at a body. -/
theorem completesIff_scanBody (k : Checker) (onlyErrors : Bool) {d : Definition}
    (hvisit : ∀ a, Completes (visit ⟨d, a⟩)) (f : FunctionDecl) (body : Token) :
    CompletesIff (Readable k d f body) (scanBody k onlyErrors visit d f body) := by
  have hlocals := (adds_localTypes (k.subject d body {}) f (bodyText body)).answers
  have hwhole : CompletesIff (∃ locals,
      (localTypes (k.subject d body {}) f (bodyText body)).start.1 = .ok locals ∧
        ∀ chain ∈ AccessChain.scanBack 0 (bodyText body),
          Deducible (k.subject d body locals) chain) (scanBody k onlyErrors visit d f body) := by
    refine (completes_mapM (fun e => ?_) _).completesIff_bind fun expansions => ?_
    · exact (hvisit _).bind fun _ => Completes.bind ⟨_, answers_checkExpansions _ _ _⟩ fun _ =>
        completes_pure _
    · refine hlocals.completesIff_bind fun locals => .ite
        (Completes.completesIff_bind ⟨_, answers_trace _ _ _⟩ fun _ => ?_) ?_
      all_goals
        refine (completes_mapM (fun use => ?_) _).completesIff_bind fun names => ?_
        · exact Completes.bind ⟨_, answers_checkName _ _ _ _⟩ fun _ => hvisit _
        · exact (completesIff_mapM (completesIff_checkChain hvisit) _).bind fun _ =>
            completes_pure _
  obtain ⟨r, hr, hiff⟩ := hwhole
  refine ⟨r, hr, hiff.trans (exists_congr fun locals => and_congr_left fun _ => ?_)⟩
  exact ⟨fun h => h ▸ hlocals, fun h => h.start_fst⟩

/-- **When the look at a function comes to its end.** For every checker, for errors or for all
names, and every visitor that comes to its end, it does so exactly if the local variables can be
read and no expression that is asked for its type is broken. With types that all have names the
local variables can be read, and then a body without a question mark is enough. -/
theorem scanDefinition_completes_iff (k : Checker) (onlyErrors : Bool) {visit : Visitor α}
    {d : Definition} (hvisit : ∀ a, Completes (visit ⟨d, a⟩)) (hkind : d.kind = "function")
    {f : FunctionDecl} {body : Token} (hf : d.details = some (.function f))
    (hbody : f.body = some body) :
    (Completes (scanDefinition k onlyErrors visit d) ↔
      ∃ locals, Answers (localTypes (k.subject d body {}) f (bodyText body)) (.ok locals) ∧
        ∀ chain ∈ AccessChain.scanBack 0 (bodyText body),
          ∀ us, Relation.ReflTransGen (Asks (k.subject d body locals)) (operandTokens chain) us →
            ¬ Broken (k.subject d body locals) us) ∧
    (k.codebase.allTypes ≠ [] → "" ∉ k.codebase.allTypes →
      (∃ locals, Answers (localTypes (k.subject d body {}) f (bodyText body)) (.ok locals)) ∧
        ('?' ∉ bodyText body → Completes (scanDefinition k onlyErrors visit d))) := by
  have hiff : Completes (scanDefinition k onlyErrors visit d) ↔ Readable k d f body := by
    refine CompletesIff.completes_iff ?_
    refine Completes.completesIff_bind ⟨_, answers_trace _ _ _⟩ fun _ =>
      Completes.completesIff_bind ⟨_, answers_trace _ _ _⟩ fun _ => ?_
    rw [hf]
    dsimp only
    rw [hbody]
    dsimp only
    rw [if_pos (beq_iff_eq.mpr hkind)]
    exact completesIff_scanBody k onlyErrors hvisit f body
  refine ⟨hiff, fun hnames hnamed => ?_⟩
  have hlocals : ∃ locals, Answers (localTypes (k.subject d body {}) f (bodyText body))
      (.ok locals) := by
    obtain ⟨types, htypes⟩ := answers_localTypes (k.subject d body {}) f (bodyText body)
    obtain ⟨vars, hvars⟩ := f.localsOfTypes_ok hnames hnamed d.scope (some (bodyText body))
    change Answers _ ((f.localsOfTypes d.scope k.codebase.allTypes _).map types) at htypes
    rw [hvars] at htypes
    exact ⟨_, htypes⟩
  refine ⟨hlocals, fun hmark => hiff.mpr ?_⟩
  obtain ⟨locals, hlocals⟩ := hlocals
  refine ⟨locals, hlocals, fun chain hchain us hus => ?_⟩
  -- the name of a chain is a piece of the text
  obtain ⟨front, rear, htext, -⟩ :=
    (AccessChain.Area.placedIn_of_mem_chains (a := ⟨0, bodyText body⟩) hchain).name
  refine (unmarked_code (fun hmem => hmark ?_) 0).not_broken_of_asked hus
  rw [show bodyText body = _ from htext]
  exact List.mem_append_right _ (List.mem_append_left _ hmem)

/-! ## A conditional expression inside another one -/

/-- What is asked for first. -/
def firstAsked? (ts : List Token) : Option (List Token) :=
  match Form.of ts with
  | .conditional _ second _ => some second
  | .operand first rest =>
    if first.kind == .paren && !makesCast rest then
      some (Tokens.code (Token.scan (Text.interior first.chars) 0))
    else none
  | _ => none

/-- Does the expression end behind its question mark? -/
def isCutShort (ts : List Token) : Bool :=
  match Form.of ts with
  | .dangling => true
  | .conditional _ [] [] => true
  | _ => false

theorem asks_of_firstAsked? {us : List Token} (h : firstAsked? ts = some us) : Asks x ts us := by
  unfold firstAsked? at h
  split at h
  · rename_i hform
    cases h
    exact .second hform
  · rename_i hform
    split at h
    · rename_i hinside
      cases h
      obtain ⟨hparen, hcast⟩ := Bool.and_eq_true_iff.mp hinside
      exact .inside hform (eq_of_beq hparen) (Bool.not_eq_true' _ ▸ hcast)
    · cases h
  · cases h

theorem broken_of_isCutShort (h : isCutShort ts = true) : Broken x ts := by
  unfold isCutShort at h
  split at h
  · rename_i hform
    exact .inl hform
  · rename_i question hform
    exact .inr ⟨question, [], hform, deduced_nothing rfl⟩
  · cases h

/-- The body of a function with a conditional expression in the second operand of another one. -/
def nestedBody : Token := ⟨0, ⟨0, 27⟩, "i = (p ? q ? q : r : r)->x;", none⟩

/-- The function of that body. -/
def nestedFunction : FunctionDecl where
  type := []
  name := .empty
  args := .empty
  body := some nestedBody

/-- The definition of that function. -/
def nestedDefinition : Definition where
  name := "ff"
  kind := "function"
  scope := .blank
  offset := 0
  moduleName := ""
  details := some (.function nestedFunction)

theorem nested_isCutShort : (AccessChain.scanBack 0 (bodyText nestedBody)).map (fun chain =>
      ((firstAsked? (operandTokens chain)).bind firstAsked?).map isCutShort) = [some true] := by
  decide +kernel

/-- The look at the function does not come to its end, although its local variables can be read. -/
theorem scanDefinition_completes_iff_nested :
    let k : Checker := { codebase := { allTypes := ["Ss"] } }
    (∃ locals, Answers (localTypes (k.subject nestedDefinition nestedBody {}) nestedFunction
      (bodyText nestedBody)) (.ok locals)) ∧
      ¬ Completes (scanDefinition k true collect nestedDefinition) := by
  intro k
  have hvisit (a : Access) : Completes (collect ⟨nestedDefinition, a⟩) := completes_pure _
  obtain ⟨hiff, hlocals⟩ := scanDefinition_completes_iff k true hvisit rfl rfl rfl
  refine ⟨(hlocals (List.cons_ne_nil _ _) (by decide)).1, fun hcompletes => ?_⟩
  obtain ⟨locals, -, hchains⟩ := hiff.mp hcompletes
  obtain ⟨chain, hchain, hcut⟩ := List.mem_map.mp (nested_isCutShort ▸ List.mem_singleton_self _)
  obtain ⟨second, hsecond, hcut⟩ := Option.map_eq_some_iff.mp hcut
  obtain ⟨inside, hinside, hsecond⟩ := Option.bind_eq_some_iff.mp hsecond
  exact hchains chain hchain second
    (.head (asks_of_firstAsked? hinside) (.single (asks_of_firstAsked? hsecond)))
    (broken_of_isCutShort hcut)

end Checker

end CBoundary
