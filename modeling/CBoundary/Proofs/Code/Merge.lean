import CBoundary.Proofs.Audit
import CBoundary.Code.Scan

/-!
# Bringing definitions together

The table keeps the definition that came first.  It takes over from a later one only if that one
has no higher priority, and a body counts more than all else.  The privacy and the module that
are known at the end follow in closed form.
-/

namespace CBoundary.RecordDecl

/-! ## Records that take over from each other -/

/-- Does the first record take the body? -/
def takesBody (a b : RecordDecl) : Bool := !a.bodiesDiffer b && b.body.isSome

theorem absorb_fst (a b : RecordDecl) : (a.absorb b).1 = { a with
        body := if a.takesBody b then b.body else a.body
        members := if a.takesBody b then b.members else a.members
        typedefs := if a.takesBody b then b.typedefs else a.typedefs
        vardefs := if a.takesBody b then b.vardefs else a.vardefs
        nested := if a.takesBody b then b.nested else a.nested
        preComment := a.preComment <|> b.preComment
        postComment := a.postComment <|> b.postComment } := by
  unfold absorb takesBody
  dsimp only
  split <;> rfl

end CBoundary.RecordDecl

namespace CBoundary.Definition

open Audit List

variable {a b d : Definition} {ds : List Definition}

/-! ## The effect of bringing two definitions together -/

/-- The definition after it took over from another one. -/
def absorbed (a b : Definition) : Definition :=
  match (a.joinStanding b).jointDetails? b with
  | some (details, _) => { a.joinStanding b with details := some details }
  | none => a.joinStanding b

section

variable (a b d : Definition)

theorem answers_reportKinds : Answers (a.reportKinds b) (.ok ()) := by
  refine .ite ?_ (answers_pure _)
  exact (answers_report _ _ _).bind_ok ((answers_report _ _ _).bind_ok (answers_trace _ _ _))

theorem answers_reportModules : Answers (a.reportModules b) (.ok ()) := by
  refine .ite ?_ (answers_pure _)
  exact (answers_report _ _ _).bind_ok ((answers_report _ _ _).bind_ok (answers_trace _ _ _))

theorem answers_reportErrors (errors : List String) :
    Answers (a.reportErrors b errors) (.ok ()) := by
  refine .ite ?_ (answers_pure _)
  refine (answers_report _ _ _).bind_ok ((answers_report _ _ _).bind_ok ?_)
  exact answers_forM (fun _ => answers_report _ _ _) errors

theorem answers_absorb : Answers (a.absorb b) (.ok (a.absorbed b)) := by
  refine (answers_reportKinds a b).bind_ok ((answers_reportModules a b).bind_ok ?_)
  unfold absorbDetails absorbed
  cases hjoint : (a.joinStanding b).jointDetails? b with
  | some p =>
    exact (answers_reportErrors _ _ _).bind_pure
  | none =>
    refine .ite (.bind_ok (x := ()) ?_ (answers_pure _)) (answers_pure _)
    exact (answers_report _ _ _).bind_ok ((answers_report _ _ _).bind_ok (answers_trace _ _ _))

/-- Two definitions of a name after they were brought together. -/
def merged (a b : Definition) : Definition × Definition :=
  if a.priority < b.priority then (a, b.absorbed a) else (a.absorbed b, b)

theorem answers_merge : Answers (a.merge b) (.ok (a.merged b)) := by
  unfold merge merged
  split
  · exact (answers_absorb b a).bind_pure
  · exact (answers_absorb a b).bind_pure

/-- A table after entering, and the definition. -/
def upserted (t : Table Definition) (d : Definition) : Table Definition × Definition :=
  match t.find? d.name with
  | none => (t.insert d.name d, d)
  | some old => (t.insert (old.merged d).2.name (old.merged d).1, (old.merged d).2)

theorem answers_upsert (t : Table Definition) (d : Definition) :
    Answers (upsert t d) (.ok (upserted t d)) := by
  unfold upsert upserted
  cases t.find? d.name with
  | none => exact answers_pure _
  | some old => exact (answers_merge old d).bind_pure

/-! ## What taking over leaves alone -/

@[simp] theorem absorbed_name : (a.absorbed b).name = a.name := by
  unfold absorbed
  split <;> rfl

@[simp] theorem absorbed_kind : (a.absorbed b).kind = a.kind := by
  unfold absorbed
  split <;> rfl

@[simp] theorem absorbed_scope : (a.absorbed b).scope = a.scope := by
  unfold absorbed
  split <;> rfl

@[simp] theorem absorbed_offset : (a.absorbed b).offset = a.offset := by
  unfold absorbed
  split <;> rfl

@[simp] theorem absorbed_moduleName :
    (a.absorbed b).moduleName = if a.moduleName.isEmpty then b.moduleName else a.moduleName := by
  unfold absorbed
  split <;> rfl

@[simp] theorem absorbed_isPrivate :
    (a.absorbed b).isPrivate = if b.hidden then some true else a.isPrivate <|> b.isPrivate := by
  unfold absorbed
  split <;> rfl

theorem absorbed_details :
    (a.absorbed b).details = ((a.jointDetails? b).map Prod.fst).or a.details := by
  unfold absorbed
  have hjoint : (a.joinStanding b).jointDetails? b = a.jointDetails? b := rfl
  rw [hjoint]
  cases a.jointDetails? b <;> rfl

theorem hidden_iff : d.hidden = true ↔ d.isPrivate = some true := by
  simp [hidden]

theorem absorbed_hidden : (a.absorbed b).hidden = (a.hidden || b.hidden) := by
  cases hb : b.hidden with
  | true =>
    rw [hidden, absorbed_isPrivate, hb]
    simp
  | false =>
    have hpriv : b.isPrivate ≠ some true := fun h => by simp [hidden, h] at hb
    unfold hidden
    rw [absorbed_isPrivate, hb]
    cases a.isPrivate with
    | none => simpa using hpriv
    | some p => simp

@[simp] theorem merged_fst_name : (a.merged b).1.name = a.name := by
  unfold merged
  split <;> simp

@[simp] theorem merged_snd_name : (a.merged b).2.name = b.name := by
  unfold merged
  split <;> simp

@[simp] theorem merged_fst_scope : (a.merged b).1.scope = a.scope := by
  unfold merged
  split <;> simp

@[simp] theorem merged_fst_offset : (a.merged b).1.offset = a.offset := by
  unfold merged
  split <;> simp

/-! ## Bodies and priorities -/

/-- Does the definition have a body? -/
def hasBody (d : Definition) : Bool :=
  match d.details with
  | some (.function f) => f.body.isSome
  | some (.record r) => r.body.isSome
  | _ => false

theorem priority_eq : d.priority = (if d.hasBody then 100 else 0) + (if d.hidden then 10 else 0) +
      FileKind.priority d.scope.file.name := rfl

end

theorem filePriority_le (name : String) : FileKind.priority name ≤ 4 := by
  unfold FileKind.priority
  split
  · exact Nat.le_refl 4
  · omega
  · omega
  · split <;> omega

theorem hasBody_of_priority_le (h : b.priority ≤ a.priority) (hb : b.hasBody = true) :
    a.hasBody = true := by
  cases ha : a.hasBody with
  | true => rfl
  | false =>
    have hfile := filePriority_le a.scope.file.name
    have hlow : a.priority ≤ 14 := by
      rw [priority_eq, ha, if_neg Bool.false_ne_true, Nat.zero_add]
      split <;> omega
    have hhigh : 100 ≤ b.priority := by
      rw [priority_eq, hb, if_pos rfl, Nat.add_assoc]
      exact Nat.le_add_right _ _
    omega

theorem hasBody_jointDetails {details : Details} {errors : List String}
    (hjoint : a.jointDetails? b = some (details, errors))
    (hb : b.hasBody = true → a.hasBody = true) :
    { a with details := some details }.hasBody = a.hasBody := by
  simp only [jointDetails?, Option.bind_eq_bind, Option.bind_eq_some_iff] at hjoint
  obtain ⟨x, hx, y, hy, hxy⟩ := hjoint
  unfold hasBody at hb ⊢
  rw [hx, hy] at hb
  rw [hx]
  cases x <;> cases y <;> simp only [Details.absorb?, reduceCtorEq, Option.some.injEq] at hxy
  case record r q =>
    have hdetails : details = .record (r.absorb q).1 := (congrArg Prod.fst hxy).symm
    subst hdetails
    show (r.absorb q).1.body.isSome = r.body.isSome
    rw [RecordDecl.absorb_fst]
    split
    · rename_i htakes
      have hq : q.body.isSome = true := (Bool.and_eq_true_iff.mp htakes).2
      have hr : r.body.isSome = true := hb hq
      rw [hq, hr]
    · rfl
  all_goals
    have hdetails := (congrArg Prod.fst hxy).symm
    subst hdetails
    rfl

theorem hasBody_absorbed (h : b.priority ≤ a.priority) : (a.absorbed b).hasBody = a.hasBody := by
  have hb : b.hasBody = true → a.hasBody = true := hasBody_of_priority_le h
  unfold absorbed
  split
  · rename_i details errors hjoint
    exact hasBody_jointDetails hjoint hb
  · rfl

/-! ## A run of definitions of one name

The table keeps the first definition, as it is after all the others.  Since its
body and its file stay, its priority changes only with its privacy. -/

/-- The first of some definitions of a name, after the others were brought to it one
by one. -/
def kept (d : Definition) (ds : List Definition) : Definition :=
  ds.foldl (fun d e => (d.merged e).1) d

@[simp] theorem kept_nil (d : Definition) : d.kept [] = d := rfl

@[simp] theorem kept_cons (d e : Definition) (ds : List Definition) :
    d.kept (e :: ds) = (d.merged e).1.kept ds := rfl

theorem find?_upsertAll {t : Table Definition} (ds : List Definition)
    (hfind : t.find? d.name = some d) (hnames : ∀ e ∈ ds, e.name = d.name) :
    ∃ t', Answers (Codebase.upsertAll t ds) (.ok t') ∧ t'.find? d.name = some (d.kept ds) := by
  induction ds generalizing t d with
  | nil => exact ⟨t, answers_pure t, hfind⟩
  | cons e ds ih =>
    have he : e.name = d.name := hnames e mem_cons_self
    have hstep : upserted t e = (t.insert d.name (d.merged e).1, (d.merged e).2) := by
      rw [upserted, he, hfind]
      simp [he]
    have hname : (d.merged e).1.name = d.name := merged_fst_name d e
    obtain ⟨t', hanswers, hkept⟩ := ih (t := t.insert d.name (d.merged e).1)
      (d := (d.merged e).1) (by rw [hname, Table.find?_insert_self])
      (fun x hx => (hnames x (mem_cons_of_mem e hx)).trans hname.symm)
    refine ⟨t', ?_, by rw [← hname]; exact hkept⟩
    refine ((answers_upsert t e).bind_ok (answers_pure (upserted t e).1)).bind_ok ?_
    rwa [hstep]

/-- Is the first definition known to be private after the others? It is if it was from the start, or
if one without a body hands privacy on to one with a body. -/
def PrivateAfter (d : Definition) (ds : List Definition) : Prop :=
  d.hidden = true ∨ d.hasBody = true ∧ ∃ e ∈ ds, e.hidden = true ∧ e.hasBody = false

instance (d : Definition) (ds : List Definition) : Decidable (PrivateAfter d ds) :=
  inferInstanceAs (Decidable (_ ∨ _ ∧ _))

/-- The priority of the first definition by then. -/
def priorityAfter (d : Definition) (ds : List Definition) : Nat :=
  (if d.hasBody then 100 else 0) + (if d.PrivateAfter ds then 10 else 0) +
    FileKind.priority d.scope.file.name

/-- Has the first definition a module after the others? It takes one from a definition of no higher
priority than it has by then. -/
def ModuleAfter (d : Definition) (ds : List Definition) : Prop :=
  d.moduleName ≠ "" ∨ ∃ before e after, ds = before ++ e :: after ∧ e.moduleName ≠ "" ∧
      e.priority ≤ d.priorityAfter before

/-- A private definition is taken over by another one exactly if it lacks the body which that has.
-/
theorem priority_le_of_hidden {e : Definition} (hd : d.hidden = false) (he : e.hidden = true) :
    e.priority ≤ d.priority ↔ d.hasBody = true ∧ e.hasBody = false := by
  have hfileD := filePriority_le d.scope.file.name
  have hfileE := filePriority_le e.scope.file.name
  rw [priority_eq, priority_eq, hd, he]
  cases d.hasBody <;> cases e.hasBody <;> simp <;> omega

section

variable (d e : Definition) (ds : List Definition)

theorem merged_fst : (d.merged e).1 = if e.priority ≤ d.priority then d.absorbed e else d := by
  unfold merged
  by_cases h : d.priority < e.priority
  · rw [if_pos h, if_neg (by omega)]
  · rw [if_neg h, if_pos (by omega)]

theorem hasBody_merged_fst : (d.merged e).1.hasBody = d.hasBody := by
  rw [merged_fst]
  split
  · rename_i h
    exact hasBody_absorbed h
  · rfl

theorem hidden_merged_fst : (d.merged e).1.hidden = true ↔
      d.hidden = true ∨ d.hasBody = true ∧ e.hidden = true ∧ e.hasBody = false := by
  rw [merged_fst]
  cases hd : d.hidden with
  | true =>
    split
    · simp [absorbed_hidden, hd]
    · simp [hd]
  | false =>
    cases he : e.hidden with
    | false =>
      split
      · simp [absorbed_hidden, hd, he]
      · simp [hd]
    | true =>
      have hle := priority_le_of_hidden hd he
      by_cases h : e.priority ≤ d.priority
      · simp [h, absorbed_hidden, he, hle.mp h]
      · rw [if_neg h, hd]
        rw [hle] at h
        simpa using h

theorem privateAfter_cons : d.PrivateAfter (e :: ds) ↔ (d.merged e).1.PrivateAfter ds := by
  unfold PrivateAfter
  rw [hidden_merged_fst, hasBody_merged_fst]
  simp only [mem_cons, exists_eq_or_imp]
  rw [or_assoc, ← and_or_left]

theorem hidden_kept : (d.kept ds).hidden = true ↔ d.PrivateAfter ds := by
  induction ds generalizing d with
  | nil => simp [PrivateAfter]
  | cons e ds ih => rw [kept_cons, ih, privateAfter_cons]

theorem priorityAfter_nil : d.priorityAfter [] = d.priority := by
  rw [priorityAfter, priority_eq]
  simp [PrivateAfter]

theorem priorityAfter_cons : d.priorityAfter (e :: ds) = (d.merged e).1.priorityAfter ds := by
  unfold priorityAfter
  rw [hasBody_merged_fst, merged_fst_scope]
  simp only [privateAfter_cons]

theorem moduleName_merged_fst : (d.merged e).1.moduleName ≠ "" ↔
      d.moduleName ≠ "" ∨ e.moduleName ≠ "" ∧ e.priority ≤ d.priority := by
  rw [merged_fst]
  by_cases hd : d.moduleName = ""
  · split
    · rename_i h
      simp [hd, h]
    · rename_i h
      simp [hd, h]
  · split <;> simp [hd]

theorem moduleAfter_cons : d.ModuleAfter (e :: ds) ↔ (d.merged e).1.ModuleAfter ds := by
  unfold ModuleAfter
  rw [moduleName_merged_fst]
  constructor
  · rintro (hd | ⟨before, x, after, hsplit, hx, hle⟩)
    · exact .inl (.inl hd)
    · cases before with
      | nil =>
        obtain ⟨rfl, rfl⟩ := List.cons.inj hsplit
        rw [priorityAfter_nil] at hle
        exact .inl (.inr ⟨hx, hle⟩)
      | cons y before =>
        obtain ⟨rfl, hrest⟩ := List.cons.inj hsplit
        rw [priorityAfter_cons] at hle
        exact .inr ⟨before, x, after, hrest, hx, hle⟩
  · rintro ((hd | ⟨he, hle⟩) | ⟨before, x, after, hsplit, hx, hle⟩)
    · exact .inl hd
    · exact .inr ⟨[], e, ds, rfl, he, by rw [priorityAfter_nil]; exact hle⟩
    · refine .inr ⟨e :: before, x, after, by rw [hsplit]; rfl, hx, ?_⟩
      rwa [priorityAfter_cons]

theorem moduleName_kept : (d.kept ds).moduleName ≠ "" ↔ d.ModuleAfter ds := by
  induction ds generalizing d with
  | nil => simp [ModuleAfter]
  | cons e ds ih => rw [kept_cons, ih, moduleAfter_cons]

end

theorem PrivateAfter.exists_hidden (h : d.PrivateAfter ds) :
    ∃ e ∈ d :: ds, e.isPrivate = some true := by
  rcases h with hd | ⟨-, e, he, hidden, -⟩
  · exact ⟨d, mem_cons_self, d.hidden_iff.mp hd⟩
  · exact ⟨e, mem_cons_of_mem d he, e.hidden_iff.mp hidden⟩

theorem ModuleAfter.exists_module (h : d.ModuleAfter ds) : ∃ e ∈ d :: ds, e.moduleName ≠ "" := by
  rcases h with hd | ⟨before, e, after, hsplit, he, -⟩
  · exact ⟨d, mem_cons_self, hd⟩
  · refine ⟨e, mem_cons_of_mem d ?_, he⟩
    rw [hsplit]
    exact mem_append_right before mem_cons_self

/-- **What a table knows after any run of definitions of one name.** The definition that it keeps is
private as in `PrivateAfter`, and has a module as in `ModuleAfter`. So "private if some definition
is, with a module if some has one" holds exactly for the runs in which later definitions are such
cases. -/
theorem upsertAll_standing {t : Table Definition} (d : Definition) (ds : List Definition)
    (habsent : t.find? d.name = none) (hnames : ∀ e ∈ ds, e.name = d.name) :
    ∃ t' st, (Codebase.upsertAll t (d :: ds)).start.1 = .ok t' ∧ t'.find? d.name = some st ∧
      (st.isPrivate = some true ↔ d.PrivateAfter ds) ∧
      (st.moduleName ≠ "" ↔ d.ModuleAfter ds) ∧
      ((st.isPrivate = some true ↔ ∃ e ∈ d :: ds, e.isPrivate = some true) ∧
          (st.moduleName ≠ "" ↔ ∃ e ∈ d :: ds, e.moduleName ≠ "") ↔
        ((∃ e ∈ ds, e.isPrivate = some true) → d.PrivateAfter ds) ∧
          ((∃ e ∈ ds, e.moduleName ≠ "") → d.ModuleAfter ds)) := by
  have hfirst : upserted t d = (t.insert d.name d, d) := by
    rw [upserted, habsent]
  obtain ⟨t', hanswers, hkept⟩ := find?_upsertAll (t := t.insert d.name d) ds
    (Table.find?_insert_self t d.name d) hnames
  have hrun : Answers (Codebase.upsertAll t (d :: ds)) (.ok t') := by
    refine ((answers_upsert t d).bind_ok (answers_pure (upserted t d).1)).bind_ok ?_
    rwa [hfirst]
  have hprivate : (d.kept ds).isPrivate = some true ↔ d.PrivateAfter ds := by
    rw [← hidden_iff, hidden_kept]
  have hmodule : (d.kept ds).moduleName ≠ "" ↔ d.ModuleAfter ds := moduleName_kept d ds
  refine ⟨t', d.kept ds, hrun.start_fst, hkept, hprivate, hmodule, ?_⟩
  rw [hprivate, hmodule]
  constructor
  · rintro ⟨hall, hallModules⟩
    refine ⟨fun ⟨e, he, hpriv⟩ => hall.mpr ⟨e, mem_cons_of_mem d he, hpriv⟩, ?_⟩
    exact fun ⟨e, he, hname⟩ => hallModules.mpr ⟨e, mem_cons_of_mem d he, hname⟩
  · rintro ⟨hlate, hlateModule⟩
    refine ⟨⟨PrivateAfter.exists_hidden, ?_⟩, ⟨ModuleAfter.exists_module, ?_⟩⟩
    · rintro ⟨e, he, hpriv⟩
      rcases mem_cons.mp he with rfl | he
      · exact .inl (e.hidden_iff.mpr hpriv)
      · exact hlate ⟨e, he, hpriv⟩
    · rintro ⟨e, he, hname⟩
      rcases mem_cons.mp he with rfl | he
      · exact .inl hname
      · exact hlateModule ⟨e, he, hname⟩

/-- A function in a header, and then as private to a module in a source file: the table keeps the
former, which takes over neither. -/
theorem upsertAll_standing_header :
    let d : Definition := ⟨"f", "function", ⟨{ name := "a.h" }, 0⟩, 0, "", none, none⟩
    let e : Definition := ⟨"f", "function", ⟨{ name := "b.c" }, 0⟩, 0, "m", some true, none⟩
    (Table.empty.find? d.name : Option Definition) = none ∧ (∀ x ∈ [e], x.name = d.name) ∧
      ∃ t' st, (Codebase.upsertAll Table.empty [d, e]).start.1 = .ok t' ∧
        t'.find? "f" = some st ∧ st.isPrivate ≠ some true := by
  intro d e
  have hnames : ∀ x ∈ [e], x.name = d.name := by
    intro x hx
    rw [mem_singleton.mp hx]
  obtain ⟨t', st, hrun, hfind, hprivate, -⟩ := upsertAll_standing (t := Table.empty) d [e] rfl hnames
  exact ⟨rfl, hnames, t', st, hrun, hfind, fun h => absurd (hprivate.mp h) (by decide)⟩

end CBoundary.Definition
