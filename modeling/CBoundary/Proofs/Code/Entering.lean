import CBoundary.Proofs.Code.Beside
import CBoundary.Proofs.Code.Finding
import CBoundary.Proofs.Macro.Traits

/-!
# What findings do to the parts of a code base

Each part of a code base takes what it needs from the findings of a text.  Macros come in only
from inside a block, and unless one has a new name, nothing changes that expansion could see.
-/

namespace CBoundary

open List

variable {x : Finding}

/-! ## Records -/

/-- The names in a tree of records: those of the records, and of the records around
them. -/
def RecordDecl.names (r : RecordDecl) : List String :=
  r.name.value :: r.parent.toList ++ match _h : r.nested with
    | none => []
    | some l => l.attach.flatMap fun n => names n.1
termination_by sizeOf r
decreasing_by exact sizeOf_nested_lt _h n.2

/-- The names of the records of a finding. -/
def Finding.recordNames : Finding → List String
  | .record _ r => r.names
  | _ => []

/-- The records of a finding have names of the given ones. -/
def Finding.Within (K : String → Prop) : Finding → Prop
  | .record _ r => r.Everywhere
      (fun h => K h.name.value ∧ ∀ parent, h.parent = some parent → K parent) (fun _ => True)
  | _ => True

theorem RecordDecl.names_eq (r : RecordDecl) :
    r.names = r.name.value :: r.parent.toList ++ (r.nested.getD []).flatMap names := by
  rw [names]
  split
  · rename_i h
    rw [h]
    rfl
  · rename_i l h
    rw [h, Option.getD_some, flatMap_def, flatMap_def, map_attach_eq_pmap,
      pmap_eq_map]

variable {K K' : String → Prop}

theorem RecordDecl.everywhere_of_names {r : RecordDecl} (h : ∀ name ∈ r.names, K name) :
    r.Everywhere (fun h => K h.name.value ∧ ∀ parent, h.parent = some parent → K parent)
      (fun _ => True) := by
  induction r using treeInduction with
  | h r ih =>
    rw [names_eq] at h
    refine .intro ⟨h _ mem_cons_self, fun parent hparent => h _ ?_⟩ (fun _ _ => trivial)
      fun n hn => ?_
    · have hparent : r.parent = some parent := hparent
      refine mem_append_left _ (mem_cons_of_mem _ ?_)
      rw [hparent]
      exact mem_singleton.mpr rfl
    · refine ih n hn fun name hname => h name ?_
      exact mem_append_right _ (mem_flatMap.mpr ⟨n, hn, hname⟩)

theorem Finding.within_of_recordNames (h : ∀ name ∈ x.recordNames, K name) : x.Within K := by
  cases x with
  | record c r => exact RecordDecl.everywhere_of_names h
  | _ => exact trivial

theorem Finding.Within.imp (h : x.Within K) (hK : ∀ name, K name → K' name) : x.Within K' := by
  cases x with
  | record c r =>
    exact RecordDecl.Everywhere.imp h
      (fun q hq => ⟨hK _ hq.1, fun parent hparent => hK _ (hq.2 parent hparent)⟩) fun _ hv => hv
  | _ => exact trivial

namespace Codebase

variable {cb cb' old src : Codebase} {x : Finding} {findings : List Finding}

/-- What a code base holds about records. -/
def recordPart (cb : Codebase) :
    Nat × Table TypeEntry × Table (Table Definition) × Table String :=
  (cb.entries, cb.types, cb.fields, cb.typedefs)

/-- As many entries as are counted, all in order. -/
def Kept (K : String → Prop) (cb : Codebase) : Prop := cb.Holds K cb.entries ∧ cb.Orderly

theorem Kept.congr (h : cb.Kept K) (heq : cb'.recordPart = cb.recordPart) : cb'.Kept K := by
  cases cb'
  cases heq
  exact ⟨⟨h.1.typesAre, h.1.fieldsAre⟩, ⟨h.2.types, h.2.fields, h.2.inner, h.2.typedefs⟩⟩

theorem Beside.congr {src' : Codebase} (h : Beside old src cb)
    (hsrc : src'.recordPart = src.recordPart) (hcb : cb'.recordPart = cb.recordPart) :
    Beside old src' cb' := by
  cases src'
  cases cb'
  cases hsrc
  cases hcb
  exact ⟨h.entries, h.types, h.fields, h.typedefs⟩

theorem recordPart_addedFunction (c : Context) (f : FunctionDecl) (cb : Codebase) :
    (addedFunction c f cb).recordPart = cb.recordPart := by
  unfold addedFunction
  split <;> rfl

theorem Holds.mono {n m : Nat} (h : cb.Holds K n) (hK : ∀ name, K name → K' name) (hle : n ≤ m) :
    cb.Holds K' m := by
  refine h.imp ?_ hK ?_
  · rintro key _ ⟨hkey, d, rfl, hname, r, hr, hall⟩
    refine ⟨hK key hkey, d, rfl, hname, r, hr, hall.imp (fun q hq => ?_) fun v hv => ?_⟩
    · exact ⟨hK _ hq.1, fun parent hparent => hK _ (hq.2.1 parent hparent), hq.2.2.1,
        Nat.le_trans hq.2.2.2 hle⟩
    · exact ⟨hv.1, Nat.le_trans hv.2 hle⟩
  · rintro name d ⟨hname, v, hv, hnumber⟩
    exact ⟨hname, v, hv, hnumber.1, Nat.le_trans hnumber.2 hle⟩

theorem Kept.mono (h : cb.Kept K) (hK : ∀ name, K name → K' name) : cb.Kept K' :=
  ⟨h.1.mono hK (Nat.le_refl _), h.2⟩

theorem everywhere_numbered {r : RecordDecl} {n : Nat}
    (h : r.Everywhere (fun q => K q.name.value ∧ ∀ parent, q.parent = some parent → K parent)
      (fun _ => True)) :
    (r.renumber fun _ => n + 1).Everywhere (RecordDecl.Numbered K (n + 1))
      (Variable.Numbered (n + 1)) :=
  h.renumber (fun _ hq => ⟨hq.1, hq.2, Nat.le_add_left 1 n, Nat.le_refl _⟩)
    fun _ _ => ⟨Nat.le_add_left 1 n, Nat.le_refl _⟩

theorem Kept.next (h : cb.Kept K) : Holds K (cb.entries + 1) { cb with entries := cb.entries + 1 } ∧
      Orderly { cb with entries := cb.entries + 1 } := by
  have hmore := h.1.mono (fun _ hname => hname) (Nat.le_succ cb.entries)
  exact ⟨⟨hmore.typesAre, hmore.fieldsAre⟩, ⟨h.2.types, h.2.fields, h.2.inner, h.2.typedefs⟩⟩

/-- A new finding is counted and in order. -/
theorem Kept.enter (h : cb.Kept K) (hx : x.Within K) : (cb.enter x).Kept K := by
  cases x with
  | typedef name base =>
    exact ⟨⟨h.1.typesAre, h.1.fieldsAre⟩,
      ⟨h.2.types, h.2.fields, h.2.inner, h.2.typedefs.insert name base⟩⟩
  | function c f => exact h.congr (recordPart_addedFunction c f cb)
  | macroDef c m => exact h.congr rfl
  | record c r =>
    obtain ⟨⟨hholds, horder⟩, -⟩ := enters_holds.addedTree (c := c) h.next (everywhere_numbered hx)
    refine ⟨?_, horder⟩
    show Holds K (addedRecord c r cb).entries _
    rwa [(outside_addedRecord c r cb).2.2.2.2]

theorem Kept.enterAll (h : cb.Kept K) (hfindings : ∀ x ∈ findings, x.Within K) :
    (cb.enterAll findings).Kept K :=
  foldlRecOn (motive := Kept K) findings Codebase.enter h
    fun _ hcb x hx => hcb.enter (hfindings x hx)

/-- Entering keeps two code bases side by side. -/
theorem Beside.enter (hb : Beside old src cb) (hold : old.Holds K' old.entries)
    (hapart : old.Apart K) (hsrc : src.Kept K) (hx : x.Within K) :
    Beside old (src.enter x) (cb.enter x) := by
  cases x with
  | typedef name base => exact hb.insertTypedef name base
  | function c f =>
    exact hb.congr (recordPart_addedFunction c f src) (recordPart_addedFunction c f cb)
  | macroDef c m => exact hb.congr rfl rfl
  | record c r =>
    have hstart : Beside old { src with entries := src.entries + 1 }
        { cb with entries := cb.entries + 1 } :=
      ⟨congrArg (· + 1) hb.entries, hb.types, hb.fields, hb.typedefs⟩
    have hfollows := follows_addedTree (c := c) hstart hold hapart hsrc.next (everywhere_numbered hx)
    -- the number that the record gets beside the others is the one it gets alone, moved on
    have hnumber : (r.renumber fun _ => cb.entries + 1) =
        (r.renumber fun _ => src.entries + 1).renumber (old.entries + ·) := by
      rw [RecordDecl.renumber_renumber, hb.entries]
      rfl
    show Beside old (addedRecord c r src) (addedRecord c r cb)
    unfold addedRecord
    rw [hnumber]
    exact hfollows.beside

theorem Beside.enterAll (hb : Beside old src cb) (hold : old.Holds K' old.entries)
    (hapart : old.Apart K) (hsrc : src.Kept K) (hfindings : ∀ x ∈ findings, x.Within K) :
    Beside old (src.enterAll findings) (cb.enterAll findings) := by
  induction findings generalizing src cb with
  | nil => exact hb
  | cons x findings ih =>
    have hx := hfindings x mem_cons_self
    exact ih (hb.enter hold hapart hsrc hx) (hsrc.enter hx)
      fun y hy => hfindings y (mem_cons_of_mem x hy)

theorem part_enterAll {α β : Type} {part : Codebase → α} {new : Finding → List β}
    {step : α → β → α} (h : ∀ cb x, part (enter cb x) = (new x).foldl step (part cb))
    (cb : Codebase) (findings : List Finding) :
    part (cb.enterAll findings) = (findings.flatMap new).foldl step (part cb) := by
  induction findings generalizing cb with
  | nil => rfl
  | cons x findings ih =>
    show part ((cb.enter x).enterAll findings) = _
    rw [ih, h, flatMap_cons, foldl_append]

/-! ## Names -/

end Codebase

/-- The global function of a finding. -/
def Finding.globals : Finding → List Definition
  | .function c f => if Codebase.isLocal c f then [] else [Codebase.functionDefinition c f]
  | _ => []

/-- The static function of a finding, and its file. -/
def Finding.statics : Finding → List (String × Definition)
  | .function c f =>
    if Codebase.isLocal c f then [(c.file.name, Codebase.functionDefinition c f)] else []
  | _ => []

namespace Codebase

open Definition

variable {cb : Codebase}

/-- The static names with one more function. -/
def enteredStatic (t : Table (Table Definition)) (p : String × Definition) :
    Table (Table Definition) :=
  t.insert p.1 (upserted ((t.find? p.1).getD {}) p.2).1

section

variable (cb : Codebase) (x : Finding)

theorem names_enter : (cb.enter x).names = enteredAll cb.names x.globals := by
  cases x with
  | typedef name base => rfl
  | record c r => exact (outside_addedRecord c r cb).1
  | macroDef c m => rfl
  | function c f =>
    show (addedFunction c f cb).names = enteredAll cb.names (if isLocal c f = true then _ else _)
    unfold addedFunction
    split <;> rfl

theorem staticNames_enter :
    (cb.enter x).staticNames = x.statics.foldl enteredStatic cb.staticNames := by
  cases x with
  | typedef name base => rfl
  | record c r => exact (outside_addedRecord c r cb).2.2.1
  | macroDef c m => rfl
  | function c f =>
    show (addedFunction c f cb).staticNames = (if isLocal c f = true then _ else _ : List _).foldl _ _
    unfold addedFunction
    split <;> rfl

end

/-! ## Privacy -/

theorem addName_ne_nil (l : List String) (name : String) : addName l name ≠ [] := by
  unfold addName
  split
  · rename_i h
    exact ne_nil_of_mem (contains_iff_mem.mp h)
  · exact append_ne_nil_of_right_ne_nil l (cons_ne_nil name [])

theorem restrictedNames_enter_eq_nil {x : Finding} (h : (cb.enter x).restrictedNames = []) :
    cb.restrictedNames = [] ∧ ∀ d ∈ x.globals, d.hidden = false := by
  cases x with
  | typedef name base => exact ⟨h, forall_mem_nil _⟩
  | record c r =>
    exact ⟨(outside_addedRecord c r cb).2.1.symm.trans h, forall_mem_nil _⟩
  | macroDef c m => exact ⟨h, forall_mem_nil _⟩
  | function c f =>
    change (addedFunction c f cb).restrictedNames = [] at h
    unfold addedFunction at h
    show _ ∧ ∀ d ∈ (if isLocal c f = true then [] else [functionDefinition c f]), _
    split at h
    · rename_i hlocal
      rw [if_pos hlocal]
      exact ⟨h, forall_mem_nil _⟩
    · rename_i hlocal
      rw [if_neg hlocal]
      change (if (functionDefinition c f).hidden = true then _ else _) = [] at h
      split at h
      · exact absurd h (addName_ne_nil _ _)
      · rename_i hhidden
        refine ⟨h, fun d hd => ?_⟩
        rw [mem_singleton.mp hd]
        exact Bool.eq_false_iff.mpr hhidden

theorem restrictedNames_enterAll_eq_nil {findings : List Finding}
    (h : (cb.enterAll findings).restrictedNames = []) :
    cb.restrictedNames = [] ∧ ∀ d ∈ findings.flatMap Finding.globals, d.hidden = false := by
  induction findings generalizing cb with
  | nil => exact ⟨h, forall_mem_nil _⟩
  | cons x findings ih =>
    obtain ⟨hfirst, hrest⟩ := ih h
    obtain ⟨hstart, hx⟩ := restrictedNames_enter_eq_nil hfirst
    refine ⟨hstart, fun d hd => ?_⟩
    rcases mem_append.mp (flatMap_cons ▸ hd) with hd | hd
    · exact hx d hd
    · exact hrest d hd

end Codebase

/-! ## Macros -/

/-- The macro of a finding. -/
def Finding.macros : Finding → List Definition
  | .macroDef c m => [Codebase.macroDefinition c m]
  | _ => []

namespace Definition

variable {t : Table Definition} {d : Definition} {key : String} {ds : List Definition}

/-- What expansion sees of the macro of a definition. -/
def bareMacro? (d : Definition) : Option MacroDecl :=
  match d.details with
  | some (.macroDef m) => some m.bare
  | _ => none

/-- What expansion sees of a table of macros. -/
def bareMacros (t : Table Definition) : List (String × MacroDecl) :=
  t.entries.filterMap fun e => e.2.bareMacro?.map (Prod.mk e.1)

theorem bareMacro?_absorbed (a b : Definition) : (a.absorbed b).bareMacro? = a.bareMacro? := by
  unfold bareMacro?
  rw [absorbed_details]
  unfold jointDetails?
  cases a.details with
  | none => rfl
  | some x =>
    cases b.details with
    | none => rfl
    | some y => cases x <;> cases y <;> rfl

theorem bareMacro?_merged (a b : Definition) : (a.merged b).1.bareMacro? = a.bareMacro? := by
  rw [merged_fst]
  split
  · exact bareMacro?_absorbed a b
  · rfl

theorem bareMacros_upserted (h : t.find? d.name ≠ none) :
    bareMacros (upserted t d).1 = bareMacros t := by
  obtain ⟨old, hold⟩ := Option.ne_none_iff_exists'.mp h
  rw [upserted, hold]
  dsimp only
  rw [merged_snd_name]
  refine Table.filterMap_insert hold ?_
  rw [bareMacro?_merged]

theorem find?_upserted_ne_none (d : Definition) (h : t.find? key ≠ none) :
    (upserted t d).1.find? key ≠ none := by
  rw [find?_upserted]
  split
  · exact Option.some_ne_none _
  · exact h

theorem find?_enteredAll_ne_none (ds : List Definition) (h : t.find? key ≠ none) :
    (enteredAll t ds).find? key ≠ none :=
  foldlRecOn (motive := fun (t : Table Definition) => t.find? key ≠ none) ds _ h
    fun _ ht d _ => find?_upserted_ne_none d ht

theorem find?_enteredAll_of_mem (h : d ∈ ds) : (enteredAll t ds).find? d.name ≠ none := by
  induction ds generalizing t with
  | nil => cases h
  | cons x ds ih =>
    rcases mem_cons.mp h with rfl | hd
    · refine find?_enteredAll_ne_none ds ?_
      rw [find?_upserted, if_pos rfl]
      exact Option.some_ne_none _
    · exact ih hd

theorem bareMacros_enteredAll (h : ∀ d ∈ ds, t.find? d.name ≠ none) :
    bareMacros (enteredAll t ds) = bareMacros t := by
  induction ds generalizing t with
  | nil => rfl
  | cons d ds ih =>
    show bareMacros (enteredAll (upserted t d).1 ds) = bareMacros t
    rw [ih fun x hx => find?_upserted_ne_none d (h x (mem_cons_of_mem d hx)),
      bareMacros_upserted (h d mem_cons_self)]

end Definition

namespace Codebase

open Definition

variable (cb : Codebase)

theorem macros_enter (x : Finding) : (cb.enter x).macros = enteredAll cb.macros x.macros := by
  cases x with
  | typedef name base => rfl
  | record c r => exact (outside_addedRecord c r cb).2.2.2.1
  | macroDef c m => rfl
  | function c f =>
    show (addedFunction c f cb).macros = cb.macros
    unfold addedFunction
    split <;> rfl

theorem macros_enterAll (findings : List Finding) :
    (cb.enterAll findings).macros = enteredAll cb.macros (findings.flatMap Finding.macros) :=
  part_enterAll macros_enter cb findings

theorem macroTable_bare : cb.macroTable.mapValues MacroDecl.bare = ⟨bareMacros cb.macros⟩ := by
  unfold macroTable Table.mapValues bareMacros bareMacro?
  rw [Table.mk.injEq, map_filterMap]
  refine filterMap_congr fun e _ => ?_
  obtain ⟨key, d⟩ := e
  dsimp only
  cases d.details with
  | none => rfl
  | some details => cases details <;> rfl

/-- Looking at macros changes nothing for expansion. -/
theorem bareMacros_examineMacros : bareMacros cb.examineMacros.macros = bareMacros cb.macros := by
  rw [examineMacros, Table.mapValues, bareMacros, filterMap_map]
  refine filterMap_congr fun e _ => ?_
  obtain ⟨key, name, kind, scope, offset, moduleName, isPrivate, details⟩ := e
  cases details with
  | none => rfl
  | some x =>
    cases x with
    | macroDef m =>
      show Option.map _ (some m.examined.bare) = _
      rw [m.bare_examined]
      rfl
    | _ => rfl

theorem expandedFindings_of_bare {c : Context} {tree : FileTree} {cb cb' : Codebase}
    (h : bareMacros cb.macros = bareMacros cb'.macros) (path : String) :
    expandedFindings c tree cb.macroTable path = expandedFindings c tree cb'.macroTable path := by
  refine congrArg _ (funext fun opened => ?_)
  rw [← Macro.expand_bare cb.macroTable, ← Macro.expand_bare cb'.macroTable, macroTable_bare,
    macroTable_bare, h]

end Codebase

end CBoundary
