import CBoundary.Proofs.Access.Events
import CBoundary.Proofs.Access.Members

/-!
# The fields that functions access

A visitor that answers at fields only finds what can be read off the events of each function.
Every field that a function accesses is a whole word of its body, which stands there behind an
arrow or a dot.
-/

namespace CBoundary

open List

namespace Audit

variable {α β : Type} {a b : Audit α} {f : α → Audit β} {p : Prop}

theorem Gives.ite {P : α → Prop} [Decidable p] (ha : Gives a P) (hb : Gives b P) :
    Gives (if p then a else b) P := by
  split
  · exact ha
  · exact hb

theorem gives_mapM {P : β → Prop} {l : List α} (h : ∀ x ∈ l, Gives (f x) P) :
    Gives (l.mapM f) fun bs => ∀ b ∈ bs, P b := by
  induction l with
  | nil => exact gives_pure fun b hb => absurd hb not_mem_nil
  | cons c l ih =>
    rw [mapM_cons]
    refine (h c mem_cons_self).bind fun b hb => ?_
    refine (ih fun x hx => h x (mem_cons_of_mem c hx)).bind fun bs hbs => gives_pure ?_
    exact forall_mem_cons.mpr ⟨hb, hbs⟩

end Audit

namespace Checker

open Audit Access

variable {α : Type} {visit : Visitor α} {v : AccessEvent → List α} {d : Definition}
variable {k : Checker}

/-- In a function with a body, only fields are read. -/
def ReadsBody (visit : Visitor α) (v : AccessEvent → List α) (d : Definition) : Prop :=
  ∀ f body, d.details = some (.function f) → f.body = some body → Reads visit v d ∧ FieldsOnly v d

/-- The events that a fresh checker finds in a function. -/
def eventsIn (k : Checker) (d : Definition) : List AccessEvent :=
  ((k.scanDefinition false collect d).start.1.toOption.map Prod.snd).getD []

/-- The analysis of a function comes to its end. -/
def Analyzes (k : Checker) (d : Definition) : Prop :=
  (k.scanDefinition false collect d).start.1.isOk = true

/-- A look comes to its end exactly if the analysis of each function does, and then it finds what is
read off the events. -/
structure FindsIn (v : AccessEvent → List α) (k : Checker) (ds : List Definition)
    (found : List α) (r : Except Fault (Checker × List α)) : Prop where
  ends : r.isOk = true ↔ ∀ d ∈ ds, k.Analyzes d
  finds : ∀ x, r = .ok x → x.1.codebase = k.codebase ∧
    x.2 = found ++ ds.flatMap fun d => readOff v (k.eventsIn d)

/-- What a visitor finds in some functions is read off the events of each. -/
theorem answers_scanDefinitions {ds : List Definition} (h : ∀ d ∈ ds, ReadsBody visit v d)
    (k : Checker) : ∃ r, Answers (scanDefinitions k false visit ds) r ∧ FindsIn v k ds [] r := by
  have hwalk {step : Checker × List α → Definition → Audit (Checker × List α)}
      (hstep : ∀ acc d, step acc d = scanDefinition acc.1 false visit d >>= fun r =>
        pure (r.1, acc.2 ++ r.2))
      {ds : List Definition} (h : ∀ d ∈ ds, ReadsBody visit v d) {k' : Checker}
      (hk : k'.codebase = k.codebase) (found : List α) :
      ∃ r, Answers (ds.foldlM step (k', found)) r ∧ FindsIn v k ds found r := by
    induction ds generalizing k' found with
    | nil =>
      refine ⟨_, answers_pure _, ⟨fun _ d hd => absurd hd not_mem_nil, fun _ => rfl⟩,
        fun x hx => ?_⟩
      cases hx
      exact ⟨hk, (append_nil found).symm⟩
    | cons d ds ih =>
      obtain ⟨r, r', hcollect, hvisit, hrelated⟩ :=
        agree_scanDefinition (fun f body hf hbody =>
          (h d mem_cons_self f body hf hbody).imp_right .inr) hk false
      rw [foldlM_cons, hstep]
      cases hrelated with
      | error fault =>
        refine ⟨.error fault, Answers.bind_error hvisit.bind_error, ⟨nofun, fun hall => ?_⟩, nofun⟩
        have hends : (k.scanDefinition false collect d).start.1.isOk = true := hall d mem_cons_self
        rw [hcollect.start_fst] at hends
        cases hends
      | @ok x y hsees =>
        obtain ⟨hk', -, hfound⟩ := hsees
        have hevents : k.eventsIn d = x.2 := by
          rw [eventsIn, hcollect.start_fst]
          rfl
        have hanalyzes : k.Analyzes d := by
          rw [Analyzes, hcollect.start_fst]
          rfl
        obtain ⟨r, hrest, hends, hfinds⟩ :=
          ih (fun d hd => h d (mem_cons_of_mem _ hd)) hk' (found ++ y.2)
        refine ⟨r, Answers.bind_ok (hvisit.bind_pure) hrest, ?_, fun z hz => ?_⟩
        · rw [hends, forall_mem_cons, and_iff_right hanalyzes]
        · obtain ⟨hcodebase, hall⟩ := hfinds z hz
          rw [flatMap_cons, hevents, ← hfound, ← append_assoc]
          exact ⟨hcodebase, hall⟩
  exact hwalk (fun _ _ => rfl) h (show k.codebase = k.codebase from rfl) []

/-! ## Where fields stand -/

section

variable {P : α → Prop} {x : Subject} {chain : AccessChain}

theorem gives_checkMembers {members : List (String × Span)} (h : ∀ type, ∀ m ∈ members,
      Gives (visit ⟨x.definition, .field chain type m.1 m.2⟩) fun found => ∀ a ∈ found, P a)
    (type : String) :
    Gives (checkMembers x visit chain type members) fun found => ∀ a ∈ found, P a := by
  induction members generalizing type with
  | nil => exact gives_pure (forall_mem_nil _)
  | cons member rest ih =>
    refine (h type member mem_cons_self).bind fun found hfound =>
      (gives_any _).bind fun _ _ => (gives_any _).bind fun _ _ => .ite ?_ ?_
    · exact (gives_any _).bind fun _ _ => gives_pure hfound
    · refine (ih (fun type m hm => h type m (mem_cons_of_mem _ hm)) _).bind
        fun more hmore => gives_pure ?_
      exact forall_mem_append.mpr ⟨hfound, hmore⟩

theorem gives_checkChain
    (hchain : Gives (visit ⟨x.definition, .chain chain⟩) fun found => ∀ a ∈ found, P a)
    (hfield : ∀ type, ∀ m ∈ chain.members,
      Gives (visit ⟨x.definition, .field chain type m.1 m.2⟩) fun found => ∀ a ∈ found, P a) :
    Gives (checkChain x visit chain) fun found => ∀ a ∈ found, P a := by
  refine (gives_any _).bind fun _ _ => hchain.bind fun found hfound =>
    (gives_any _).bind fun type _ => .ite ?_ ?_
  · exact (gives_any _).bind fun _ _ => gives_pure hfound
  · refine (gives_any _).bind fun _ _ => (gives_any _).bind fun _ _ =>
      (gives_any _).bind fun _ _ => ?_
    refine (gives_checkMembers hfield type).bind fun more hmore => gives_pure ?_
    exact forall_mem_append.mpr ⟨hfound, hmore⟩

end

/-- The event is one of the definition, and a field that it accesses stands in the body at its span.
-/
def InBody (d : Definition) (body : Token) (e : AccessEvent) : Prop :=
  e.source = d ∧ ∀ chain type field span, e.access = .field chain type field span →
    AccessChain.Named body.chars 0 (field, span)

theorem named_of_mem_scanBack_clean {s : List Char} {chain : AccessChain}
    (hchain : chain ∈ AccessChain.scanBack 0 (Text.blankNotesAndLiterals s))
    {m : String × Span} (hm : m ∈ chain.members) : AccessChain.Named s 0 m := by
  obtain ⟨hmember, hstop⟩ := AccessChain.named_of_mem_scanBack hchain hm
  exact ⟨hmember.of_cleaned (Text.cleaned_blankNotesAndLiterals s), hstop⟩

theorem gives_scanBody (k : Checker) (onlyErrors : Bool) (d : Definition) (f : FunctionDecl)
    (body : Token) : Gives (scanBody k onlyErrors collect d f body) fun r =>
      ∀ e ∈ r.2, InBody d body e := by
  have hcollect (a : Access) (ha : ∀ chain type field span, a = .field chain type field span →
      AccessChain.Named body.chars 0 (field, span)) :
      Gives (collect ⟨d, a⟩) fun es => ∀ e ∈ es, InBody d body e := by
    refine gives_pure fun e he => ?_
    rw [mem_singleton.mp he]
    exact ⟨rfl, ha⟩
  have hflatten {parts : List (List AccessEvent)} (h : ∀ es ∈ parts, ∀ e ∈ es, InBody d body e)
      {e : AccessEvent} (he : e ∈ parts.flatten) : InBody d body e := by
    obtain ⟨es, hes, he⟩ := mem_flatten.mp he
    exact h es hes e he
  refine (gives_mapM fun e _ => (hcollect _ (by nofun)).bind fun found hfound =>
    (gives_any _).bind fun _ _ => gives_pure hfound).bind fun expansions hexpansions => ?_
  refine (gives_any _).bind fun locals _ => .ite ((gives_any _).bind fun _ _ => ?_) ?_
  all_goals
    refine (gives_mapM fun use _ => (gives_any _).bind fun _ _ => hcollect _ (by nofun)).bind
      fun names hnames => ?_
    refine (gives_mapM fun chain hchain => gives_checkChain (hcollect _ (by nofun))
      fun type m hm => hcollect _ ?_).bind fun chains hchains => gives_pure fun e he => ?_
    · rintro _ _ _ _ ⟨⟩
      exact named_of_mem_scanBack_clean hchain hm
    rcases mem_append.mp he with he | he
    · rcases mem_append.mp he with he | he
      · exact hflatten hexpansions he
      · exact hflatten hnames he
    · exact hflatten hchains he

theorem inBody_of_mem_eventsIn {e : AccessEvent} (h : e ∈ k.eventsIn d) :
    ∃ f body, d.details = some (.function f) ∧ f.body = some body ∧ InBody d body e := by
  have hgives : Gives (k.scanDefinition false collect d) fun r => ∀ e ∈ r.2,
      ∃ f body, d.details = some (.function f) ∧ f.body = some body ∧ InBody d body e := by
    have hnothing : Gives (pure (k, []) : Audit (Checker × List AccessEvent)) fun r => ∀ e ∈ r.2,
        ∃ f body, d.details = some (.function f) ∧ f.body = some body ∧ InBody d body e :=
      gives_pure fun e he => absurd he not_mem_nil
    refine (gives_any _).bind fun _ _ => (gives_any _).bind fun _ _ => ?_
    split
    · rename_i f hf
      split
      · rename_i body hbody
        refine .ite (fun t r hr e he => ?_) hnothing
        exact ⟨f, body, hf, hbody, gives_scanBody k false d f body t r hr e he⟩
      · exact hnothing
    · exact hnothing
  unfold eventsIn at h
  cases hrun : (k.scanDefinition false collect d).start.1 with
  | error fault =>
    rw [hrun] at h
    cases h
  | ok r =>
    rw [hrun] at h
    exact hgives #[] r hrun e h

end Checker

end CBoundary
