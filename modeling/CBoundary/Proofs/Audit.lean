import CBoundary.Audit

/-!
# The answers and the transcripts of audits

No analysis reads its own transcript, so that an audit has one answer, a value or a fault, and adds
the same entries whatever was noted before.  Of these often only certain ones matter, and a part
that adds none of them is silent.
-/

namespace CBoundary

open List

/-! ## Analyses without a transcript -/

namespace Fault

variable {α β : Type}
variable {r : Except Fault α} {f : α → Except Fault β} {l : List α}

theorem exists_of_bind_eq_ok {y : β} (h : r >>= f = .ok y) : ∃ x, r = .ok x ∧ f x = .ok y := by
  cases r with
  | error fault => cases h
  | ok x => exact ⟨x, rfl, h⟩

theorem exists_of_map_eq_ok {f : α → β} {y : β} (h : r.map f = .ok y) :
    ∃ x, r = .ok x ∧ f x = y := by
  cases r with
  | error fault => cases h
  | ok x => exact ⟨x, rfl, Except.ok.inj h⟩

theorem eq_ok_of_toOption {x : α} (h : r.toOption = some x) : r = .ok x := by
  cases r with
  | error fault => cases h
  | ok y => exact congrArg _ (Option.some.inj h)

/-- A step that keeps an invariant keeps it throughout. -/
theorem foldlM_preserves {f : β → α → Except Fault β} {I : β → Prop} {b b' : β}
    (hstep : ∀ b b', ∀ a ∈ l, I b → f b a = .ok b' → I b') (hb : I b) (h : l.foldlM f b = .ok b') :
    I b' := by
  induction l generalizing b with
  | nil => cases h; exact hb
  | cons a l ih =>
    obtain ⟨b₁, hfirst, hrest⟩ := exists_of_bind_eq_ok h
    exact ih (fun b b' x hx => hstep b b' x (mem_cons_of_mem a hx))
      (hstep b b₁ a mem_cons_self hb hfirst) hrest

theorem foldlM_congr {f g : β → α → Except Fault β} (h : ∀ b, ∀ a ∈ l, f b a = g b a) (b : β) :
    l.foldlM f b = l.foldlM g b := by
  induction l generalizing b with
  | nil => rfl
  | cons a l ih =>
    rw [foldlM_cons, foldlM_cons, h b a mem_cons_self]
    exact bind_congr fun b' => ih (fun b x hx => h b x (mem_cons_of_mem a hx)) b'

theorem exists_of_mem_mapM {bs : List β} (h : l.mapM f = .ok bs) :
    ∀ b ∈ bs, ∃ a ∈ l, f a = .ok b := by
  induction l generalizing bs with
  | nil => cases h; simp
  | cons a l ih =>
    rw [mapM_cons] at h
    obtain ⟨b, hb, h⟩ := exists_of_bind_eq_ok h
    obtain ⟨bs, hbs, h⟩ := exists_of_bind_eq_ok h
    cases h
    intro x hx
    rcases mem_cons.mp hx with rfl | hx
    · exact ⟨a, mem_cons_self, hb⟩
    · obtain ⟨a', ha', hx⟩ := ih hbs x hx
      exact ⟨a', mem_cons_of_mem a ha', hx⟩

end Fault

/-! ## Audits -/

namespace Audit

variable {α β γ : Type}
variable {a : Audit α} {r : Except Fault α} {x : α} {f : α → Audit β} {g : α → Except Fault γ}
  {view : γ → β} {P : α → Prop}

theorem run_bind_ok {t : Transcript} (h : (StateT.run (ExceptT.run a) t).1 = .ok x) :
    StateT.run (ExceptT.run (a >>= f)) t =
      StateT.run (ExceptT.run (f x)) (StateT.run (ExceptT.run a) t).2 := by
  rw [ExceptT.run_bind, StateT.run_bind]
  rcases hrun : StateT.run (ExceptT.run a) t with ⟨r, t'⟩
  rw [hrun] at h
  cases h
  rfl

theorem run_bind_error {t : Transcript} {fault : Fault}
    (h : (StateT.run (ExceptT.run a) t).1 = .error fault) :
    StateT.run (ExceptT.run (a >>= f)) t = (.error fault, (StateT.run (ExceptT.run a) t).2) := by
  rw [ExceptT.run_bind, StateT.run_bind]
  rcases hrun : StateT.run (ExceptT.run a) t with ⟨r, t'⟩
  rw [hrun] at h
  cases h
  rfl

/-- The audit has the given answer, whatever stands in the transcript. -/
def Answers (a : Audit α) (r : Except Fault α) : Prop :=
  ∀ t : Transcript, (StateT.run (ExceptT.run a) t).1 = r

theorem Answers.start_fst (h : Answers a r) : a.start.1 = r := h #[]

theorem Answers.unique {r' : Except Fault α} (h : Answers a r) (h' : Answers a r') :
    r = r' := (h #[]).symm.trans (h' #[])

theorem Answers.task_eq (h : Answers a r) : a.task = r.map fun x => (x, a.start.2) := by
  have hfst : a.start.1 = r := h.start_fst
  unfold task
  rcases hstart : a.start with ⟨r', log⟩
  rw [hstart] at hfst
  have hr : r' = r := hfst
  subst hr
  cases r' <;> rfl

theorem start_of_task_eq_ok {log : Transcript} (h : a.task = .ok (x, log)) :
    a.start = (.ok x, log) := by
  unfold task at h
  rcases hstart : a.start with ⟨r, log'⟩
  rw [hstart] at h
  cases r <;> cases h
  rfl

theorem answers_pure (x : α) : Answers (pure x) (.ok x) := fun _ => rfl

theorem answers_throw (f : Fault) : Answers (throw f : Audit α) (.error f) := fun _ => rfl

theorem answers_liftM (r : Except Fault α) : Answers (liftM r : Audit α) r := fun _ => rfl

theorem answers_record (e : Entry) : Answers (record e) (.ok ()) := fun _ => rfl

theorem answers_note (d : Diagnostic) : Answers (note d) (.ok ()) := answers_record _

theorem answers_report (category : Category) (place : Place) (message : Message) :
    Answers (report category place message) (.ok ()) := answers_note _

theorem answers_trace (level : Level) (place : Place) (message : Message) :
    Answers (trace level place message) (.ok ()) := answers_note _

theorem answers_relay (log : Transcript) : Answers (relay log) (.ok ()) := fun _ => rfl

theorem Answers.bind_error {fault : Fault} (ha : Answers a (.error fault)) :
    Answers (a >>= f) (.error fault) := fun t => by rw [run_bind_error (ha t)]

theorem Answers.bind_ok {r : Except Fault β} (ha : Answers a (.ok x)) (hf : Answers (f x) r) :
    Answers (a >>= f) r := fun t => by
  rw [run_bind_ok (ha t)]
  exact hf _

theorem Answers.bind_pure {g : α → β} (ha : Answers a (.ok x)) :
    Answers (a >>= fun y => pure (g y)) (.ok (g x)) := ha.bind_ok (answers_pure _)

/-- Answers in sequence. -/
theorem Answers.bind {g : α → Except Fault β} (ha : Answers a r) (hf : ∀ x, Answers (f x) (g x)) :
    Answers (a >>= f) (r >>= g) := by
  cases r with
  | ok x => exact ha.bind_ok (hf x)
  | error fault => exact ha.bind_error

theorem Answers.bind_map {a : Audit β} {r : Except Fault γ} {f : β → Audit α}
    {g : γ → Except Fault α} (ha : Answers a (r.map view)) (hf : ∀ c, Answers (f (view c)) (g c)) :
    Answers (a >>= f) (r >>= g) := by
  cases r with
  | ok c => exact Answers.bind_ok ha (hf c)
  | error fault => exact Answers.bind_error ha

theorem Answers.bind_then_map (ha : Answers a r) (hf : ∀ x, Answers (f x) ((g x).map view)) :
    Answers (a >>= f) ((r >>= g).map view) := by
  cases r with
  | ok x => exact ha.bind_ok (hf x)
  | error fault => exact ha.bind_error

theorem Answers.ite {p : Prop} [Decidable p] {b : Audit α} (ha : Answers a r) (hb : Answers b r) :
    Answers (if p then a else b) r := by
  split
  · exact ha
  · exact hb

theorem answers_foldlM {f : β → α → Audit β} {g : β → α → Except Fault β}
    (h : ∀ b a, Answers (f b a) (g b a)) (l : List α) (b : β) :
    Answers (l.foldlM f b) (l.foldlM g b) := by
  induction l generalizing b with
  | nil => exact answers_pure b
  | cons a l ih =>
    exact (h b a).bind fun b' => ih b'

/-- A walk answers what a walk over views does. -/
theorem answers_foldlM_map (view : γ → β) {f : β → α → Audit β} {g : γ → α → Except Fault γ}
    (h : ∀ c a, Answers (f (view c) a) ((g c a).map view)) (l : List α) (c : γ) :
    Answers (l.foldlM f (view c)) ((l.foldlM g c).map view) := by
  induction l generalizing c with
  | nil => exact answers_pure (view c)
  | cons a l ih =>
    rw [foldlM_cons, foldlM_cons]
    have hstep := h c a
    cases hg : g c a with
    | error fault =>
      rw [hg] at hstep
      exact hstep.bind_error
    | ok c' =>
      rw [hg] at hstep
      exact hstep.bind_ok (ih c')

/-- The answers of a list are those of its elements. -/
theorem answers_mapM (view : γ → β) (h : ∀ a, Answers (f a) ((g a).map view)) (l : List α) :
    Answers (l.mapM f) ((l.mapM g).map (List.map view)) := by
  induction l with
  | nil => exact answers_pure []
  | cons a l ih =>
    rw [mapM_cons, mapM_cons]
    have hfirst := h a
    cases hg : g a with
    | error fault =>
      rw [hg] at hfirst
      exact hfirst.bind_error
    | ok c =>
      rw [hg] at hfirst
      refine hfirst.bind_ok ?_
      cases hrest : l.mapM g with
      | error fault =>
        rw [hrest] at ih
        exact ih.bind_error
      | ok cs =>
        rw [hrest] at ih
        exact ih.bind_pure

theorem answers_mapM_ok {g : α → β} (h : ∀ a, Answers (f a) (.ok (g a))) (l : List α) :
    Answers (l.mapM f) (.ok (l.map g)) := by
  induction l with
  | nil => exact answers_pure []
  | cons a l ih =>
    rw [mapM_cons]
    exact (h a).bind_ok (ih.bind_pure)

theorem answers_foldlM_ok {f : β → α → Audit β} {g : β → α → β}
    (h : ∀ b a, Answers (f b a) (.ok (g b a))) (l : List α) (b : β) :
    Answers (l.foldlM f b) (.ok (l.foldl g b)) := by
  induction l generalizing b with
  | nil => exact answers_pure b
  | cons a l ih =>
    exact (h b a).bind_ok (ih _)

theorem answers_forM {f : α → Audit PUnit} (h : ∀ a, Answers (f a) (.ok ())) (l : List α) :
    Answers (l.forM f) (.ok ()) := by
  induction l with
  | nil => exact answers_pure _
  | cons a l ih => exact (h a).bind_ok ih

theorem answers_array_forM {f : α → Audit PUnit} (h : ∀ a, Answers (f a) (.ok ()))
    (l : Array α) : Answers (l.forM f) (.ok ()) := by
  rw [Array.forM, ← Array.foldlM_toList]
  exact answers_foldlM_ok (fun _ a => h a) l.toList ()

/-! ## Results -/

/-- Whatever the audit comes back with fulfils a condition. -/
def Gives (a : Audit α) (P : α → Prop) : Prop :=
  ∀ t x, (StateT.run (ExceptT.run a) t).1 = .ok x → P x

theorem Answers.gives (h : Answers a r) (hP : ∀ x, r = .ok x → P x) :
    Gives a P := fun t x hx => hP x ((h t).symm.trans hx)

theorem gives_any (a : Audit α) : Gives a fun _ => True := fun _ _ _ => trivial

theorem gives_pure (h : P x) : Gives (pure x) P := by
  rintro t _ ⟨⟩
  exact h

theorem gives_throw (f : Fault) : Gives (throw f) P := by
  rintro t _ ⟨⟩

/-- What the first part gives is known in the second. -/
theorem Gives.bind {Q : β → Prop} (ha : Gives a P) (hf : ∀ x, P x → Gives (f x) Q) :
    Gives (a >>= f) Q := by
  intro t y hy
  cases hrun : (StateT.run (ExceptT.run a) t).1 with
  | error fault =>
    rw [run_bind_error hrun] at hy
    cases hy
  | ok x =>
    rw [run_bind_ok hrun] at hy
    exact hf x (ha t x hrun) _ y hy

theorem gives_foldlM {f : β → α → Audit β} {P : β → Prop} (h : ∀ b a, P b → Gives (f b a) P)
    (l : List α) {b : β} (hb : P b) : Gives (l.foldlM f b) P := by
  induction l generalizing b with
  | nil => exact gives_pure hb
  | cons a l ih =>
    exact (h b a hb).bind fun b' hb' => ih hb'

end Audit

variable {α β γ : Type}

/-! ## What is left in the transcript -/

namespace Audit

variable {P Q : Entry → Prop} {a : Audit α} {f : α → Audit β}

/-- After any transcript the audit ends as after none, and adds what it leaves then, all entries of
a kind. -/
structure Adds (P : Entry → Prop) (a : Audit α) : Prop where
  run_eq : ∀ t : Transcript, StateT.run (ExceptT.run a) t = (a.start.1, t ++ a.start.2)
  entries : ∀ e ∈ a.start.2, P e

theorem Adds.mono (h : Adds P a) (hP : ∀ e, P e → Q e) : Adds Q a :=
  ⟨h.run_eq, fun e he => hP e (h.entries e he)⟩

theorem Adds.answers (h : Adds P a) : Answers a a.start.1 :=
  fun t => by rw [h.run_eq t]

/-! ## Single steps -/

theorem adds_pure (x : α) : Adds P (pure x : Audit α) :=
  ⟨fun t => by rw [show (pure x : Audit α).start = (.ok x, #[]) from rfl, Array.append_empty]; rfl,
    fun _ he => absurd he (Array.not_mem_empty _)⟩

theorem adds_throw (fault : Fault) : Adds P (throw fault : Audit α) :=
  ⟨fun t => by
    rw [show (throw fault : Audit α).start = (.error fault, #[]) from rfl, Array.append_empty]; rfl,
    fun _ he => absurd he (Array.not_mem_empty _)⟩

theorem adds_liftM (r : Except Fault α) : Adds P (liftM r : Audit α) := by
  cases r with
  | ok x => exact adds_pure x
  | error fault => exact adds_throw fault

theorem adds_record {e : Entry} (h : P e) : Adds P (record e) := by
  refine ⟨fun t => ?_, fun e' he' => ?_⟩
  · show (Except.ok (), t.push e) = (Except.ok (), t ++ #[].push e)
    rw [Array.append_push, Array.append_empty]
  · have heq : e' = e := by simpa using (show e' ∈ #[].push e from he')
    rwa [heq]

theorem adds_note {d : Diagnostic} (h : P (.logged d)) : Adds P (note d) := adds_record h

theorem adds_relay {log : Transcript} (h : ∀ e ∈ log, P e.relay) : Adds P (relay log) := by
  refine ⟨fun t => ?_, fun e he => ?_⟩
  · show (Except.ok (), t ++ log.map Entry.relay) = (Except.ok (), t ++ (#[] ++ log.map Entry.relay))
    rw [Array.empty_append]
  · change e ∈ #[] ++ log.map Entry.relay at he
    rw [Array.empty_append] at he
    obtain ⟨e, hlog, rfl⟩ := Array.mem_map.mp he
    exact h e hlog

/-! ## Sequences -/

theorem start_bind_ok {x : α} (h : a.start.1 = .ok x) (hf : Adds P (f x)) :
    (a >>= f).start = ((f x).start.1, a.start.2 ++ (f x).start.2) :=
  (run_bind_ok h).trans (hf.run_eq a.start.2)

theorem exists_of_start_bind_ok (hf : ∀ x, Adds P (f x)) {y : β} (h : (a >>= f).start.1 = .ok y) :
    ∃ x, a.start.1 = .ok x ∧ (f x).start.1 = .ok y := by
  cases hstart : a.start.1 with
  | error fault =>
    rw [start, run_bind_error hstart] at h
    cases h
  | ok x =>
    rw [start_bind_ok hstart (hf x)] at h
    exact ⟨x, rfl, h⟩

/-- The second part has to keep to it only if it is reached. -/
theorem Adds.bind_of_ok (ha : Adds P a) (hf : ∀ x, a.start.1 = .ok x → Adds P (f x)) :
    Adds P (a >>= f) := by
  cases hstart : a.start.1 with
  | error fault =>
    have hbind : (a >>= f).start = (.error fault, a.start.2) := run_bind_error hstart
    refine ⟨fun t => ?_, fun e he => ?_⟩
    · rw [run_bind_error ((ha.answers t).trans hstart), ha.run_eq t, hbind]
    · rw [hbind] at he
      exact ha.entries e he
  | ok x =>
    have hx := hf x hstart
    have hbind := start_bind_ok hstart hx
    refine ⟨fun t => ?_, fun e he => ?_⟩
    · rw [run_bind_ok ((ha.answers t).trans hstart), ha.run_eq t, hx.run_eq, hbind,
        Array.append_assoc]
    · rw [hbind] at he
      rcases Array.mem_append.mp he with he | he
      · exact ha.entries e he
      · exact hx.entries e he

theorem Adds.bind_answer {r : Except Fault α} (ha : Adds P a) (hr : Answers a r)
    (hf : ∀ x, r = .ok x → Adds P (f x)) : Adds P (a >>= f) :=
  ha.bind_of_ok fun x hx => hf x (hr.start_fst.symm.trans hx)

theorem Adds.bind (ha : Adds P a) (hf : ∀ x, Adds P (f x)) :
    Adds P (a >>= f) := ha.bind_of_ok fun x _ => hf x

theorem Adds.bind_pure {g : α → β} (ha : Adds P a) : Adds P (a >>= fun x => pure (g x)) :=
  ha.bind fun _ => adds_pure _

theorem Adds.ite {p : Prop} [Decidable p] {b : Audit α} (ha : Adds P a) (hb : Adds P b) :
    Adds P (if p then a else b) := by
  split
  · exact ha
  · exact hb

theorem adds_foldlM_of_mem {f : β → α → Audit β} {l : List α} (h : ∀ x ∈ l, ∀ b, Adds P (f b x))
    (b : β) : Adds P (l.foldlM f b) := by
  induction l generalizing b with
  | nil => exact adds_pure b
  | cons x l ih =>
    exact (h x mem_cons_self b).bind (ih fun y hy => h y (mem_cons_of_mem x hy))

theorem adds_foldlM {f : β → α → Audit β} (h : ∀ b x, Adds P (f b x)) (l : List α) (b : β) :
    Adds P (l.foldlM f b) := adds_foldlM_of_mem (fun x _ b => h b x) b

theorem adds_mapM_of_mem {l : List α} (h : ∀ x ∈ l, Adds P (f x)) : Adds P (l.mapM f) := by
  induction l with
  | nil => exact adds_pure []
  | cons x l ih =>
    rw [mapM_cons]
    exact (h x mem_cons_self).bind fun _ =>
      (ih fun y hy => h y (mem_cons_of_mem x hy)).bind_pure

theorem adds_mapM (h : ∀ x, Adds P (f x)) (l : List α) : Adds P (l.mapM f) :=
  adds_mapM_of_mem fun x _ => h x

theorem adds_forM {f : α → Audit PUnit} (h : ∀ x, Adds P (f x)) (l : List α) :
    Adds P (l.forM f) := by
  induction l with
  | nil => exact adds_pure _
  | cons x l ih => exact (h x).bind fun _ => ih

theorem adds_array_forM {f : α → Audit PUnit} (h : ∀ x, Adds P (f x)) (l : Array α) :
    Adds P (l.forM f) := by
  rw [Array.forM, ← Array.foldlM_toList]
  exact adds_foldlM (fun _ x => h x) l.toList ()

/-- What the audit answers and what it adds does not depend on the transcript. -/
abbrev Steady (a : Audit α) : Prop := Adds (fun _ => True) a

end Audit

/-! ## Views -/

/-- What a view sees of a transcript. -/
def Transcript.seen (view : Entry → Option γ) (t : Transcript) : List γ := t.toList.filterMap view

namespace Audit

variable {view : Entry → Option γ} {P : Entry → Prop}
variable {a b : Audit α} {es : List γ} {c : Category} {f : α → Audit β}

/-- The audit leaves the given things to see behind any transcript. -/
def Leaves (view : Entry → Option γ) (a : Audit α) (es : List γ) : Prop :=
  ∀ t : Transcript, (StateT.run (ExceptT.run a) t).2.seen view = t.seen view ++ es

/-- The audit adds nothing that the view sees. -/
abbrev Silent (view : Entry → Option γ) (a : Audit α) : Prop := Adds (fun e => view e = none) a

theorem Leaves.start_snd (h : Leaves view a es) : a.start.2.seen view = es := h #[]

theorem Adds.leaves (h : Adds P a) : Leaves view a (a.start.2.seen view) := by
  intro t
  rw [h.run_eq t]
  show (t ++ a.start.2).toList.filterMap view = _
  rw [Array.toList_append, filterMap_append]
  rfl

theorem Silent.leaves (h : Silent view a) : Leaves view a [] := by
  have hnil : a.start.2.seen view = [] := filterMap_eq_nil_iff.mpr fun e he =>
    h.entries e (Array.mem_toList_iff.mp he)
  rw [← hnil]
  exact Adds.leaves h

theorem leaves_pure (x : α) : Leaves view (pure x : Audit α) [] := fun _ => (append_nil _).symm

theorem leaves_record (e : Entry) : Leaves view (record e) (view e).toList := by
  intro t
  show (t.push e).toList.filterMap view = t.toList.filterMap view ++ _
  rw [Array.toList_push, filterMap_append]
  cases h : view e <;> simp [h]

/-- The only diagnostics that matter are of the given category, if any. -/
def Overlooks (view : Entry → Option γ) (category : Category) : Prop :=
  ∀ d : Diagnostic, d.category ≠ some category → view (.logged d) = none

theorem Overlooks.silent_trace (h : Overlooks view c) (level : Level) (place : Place)
    (message : Message) : Silent view (trace level place message) :=
  adds_note (h _ nofun)

theorem Leaves.bind_ok {x : α} {es' : List γ} (ha : Leaves view a es) (hx : Answers a (.ok x))
    (hf : Leaves view (f x) es') : Leaves view (a >>= f) (es ++ es') := by
  intro t
  rw [run_bind_ok (hx t), hf, ha, append_assoc]

theorem Silent.bind_ok {x : α} (ha : Silent view a) (hx : Answers a (.ok x))
    (hf : Leaves view (f x) es) : Leaves view (a >>= f) es :=
  Leaves.bind_ok ha.leaves hx hf

theorem Leaves.bind_error {fault : Fault} (ha : Leaves view a es)
    (hfault : Answers a (.error fault)) : Leaves view (a >>= f) es := by
  intro t
  rw [run_bind_error (hfault t)]
  exact ha t

theorem Leaves.bind_silent (ha : Leaves view a es) (hf : ∀ x, Silent view (f x)) :
    Leaves view (a >>= f) es := by
  intro t
  cases hrun : (StateT.run (ExceptT.run a) t).1 with
  | error fault =>
    rw [run_bind_error hrun]
    exact ha t
  | ok x => rw [run_bind_ok hrun, (hf x).leaves, ha, append_nil]

theorem Leaves.ite {p : Prop} [Decidable p] (ha : Leaves view a es) (hb : Leaves view b es) :
    Leaves view (if p then a else b) es := by
  split
  · exact ha
  · exact hb

theorem leaves_mapM {v : α → β} {es : α → List γ} (h : ∀ a, Leaves view (f a) (es a))
    (hvalue : ∀ a, Answers (f a) (.ok (v a))) (l : List α) :
    Leaves view (l.mapM f) (l.flatMap es) := by
  induction l with
  | nil => exact leaves_pure []
  | cons a l ih =>
    rw [mapM_cons, flatMap_cons]
    exact (h a).bind_ok (hvalue a) (ih.bind_silent fun _ => adds_pure _)

end Audit

/-! ## What is printed -/

/-- The text that an entry prints, if it does. -/
def Entry.printed? : Entry → Option String
  | .printed text => some text
  | _ => none

theorem Entry.printed?_relay (e : Entry) : e.relay.printed? = e.printed? := by
  cases e <;> rfl

end CBoundary
