import CBoundary.Declaration.Record

/-!
# Records as trees

A statement about a record is one about the places where records and variables can stand in it.
Changes throughout a tree keep such a statement if each single change does.
-/

namespace CBoundary.RecordDecl

open List

variable {f g : RecordDecl → RecordDecl} {r : RecordDecl} {new : Variable}

/-! ## Trees -/

/-- What holds of a record if it holds of the records inside it holds of all. -/
theorem treeInduction {motive : RecordDecl → Prop}
    (h : ∀ r, (∀ n ∈ r.nested.getD [], motive n) → motive r) (r : RecordDecl) : motive r := by
  refine h r fun n hn => ?_
  have hlt : sizeOf n < sizeOf r := by
    cases hnested : r.nested with
    | none => rw [hnested] at hn; cases hn
    | some l => rw [hnested] at hn; exact sizeOf_nested_lt hnested hn
  exact treeInduction h n
termination_by sizeOf r

/-- The record with other records inside it. -/
def withNested (r : RecordDecl) (l : Option (List RecordDecl)) : RecordDecl :=
  { r with nested := l }

theorem withNested_nested (r : RecordDecl) : r.withNested r.nested = r := by
  cases r
  rfl

theorem mapTree_eq (f : RecordDecl → RecordDecl) (r : RecordDecl) :
    r.mapTree f = f (r.withNested (r.nested.map (List.map (mapTree f)))) := by
  rw [mapTree]
  split
  · rename_i h
    rw [h, Option.map_none, ← h, withNested_nested]
  · rename_i l h
    rw [h, Option.map_some, withNested, map_attach_eq_pmap, pmap_eq_map]

/-- The variables of a record, not of inner ones. -/
def own (r : RecordDecl) : List Variable :=
  r.members.getD [] ++ (r.typedefs.getD [] ++ r.vardefs.getD [])

theorem own_mapOwn (f : Variable → Variable) (r : RecordDecl) : (r.mapOwn f).own = r.own.map f := by
  unfold own mapOwn
  cases r.members <;> cases r.typedefs <;> cases r.vardefs <;> simp

theorem mapOwn_eq_self {f : Variable → Variable} (h : ∀ v ∈ r.own, f v = v) : r.mapOwn f = r := by
  have hlist : ∀ o : Option (List Variable), (∀ v ∈ o.getD [], v ∈ r.own) →
      o.map (List.map f) = o := by
    intro o ho
    cases o with
    | none => rfl
    | some l =>
      have hl : l.map f = l := (map_congr_left fun v hv => h v (ho v hv)).trans (map_id l)
      exact congrArg some hl
  have hmembers := hlist r.members fun v hv => mem_append_left _ hv
  have htypedefs := hlist r.typedefs fun v hv => mem_append_right _ (mem_append_left _ hv)
  have hvardefs := hlist r.vardefs fun v hv => mem_append_right _ (mem_append_right _ hv)
  rw [mapOwn, hmembers, htypedefs, hvardefs]
  cases r
  rfl

theorem mem_nested_map {n : RecordDecl} (h : n ∈ (r.nested.map (List.map f)).getD []) :
    ∃ n' ∈ r.nested.getD [], n = f n' := by
  cases hnested : r.nested with
  | none => rw [hnested] at h; cases h
  | some l =>
    rw [hnested] at h
    obtain ⟨n', hn', rfl⟩ := mem_map.mp h
    exact ⟨n', hn', rfl⟩

theorem nested_map_congr (h : ∀ n ∈ r.nested.getD [], f n = g n) :
    r.nested.map (List.map f) = r.nested.map (List.map g) := by
  cases hnested : r.nested with
  | none => rfl
  | some l =>
    rw [hnested] at h
    exact congrArg some (map_congr_left h)

/-! ## Statements about trees -/

/-- What a record is called, where it stands and where it belongs. -/
structure Head where
  scope : Scope
  name : Token
  entry : Nat
  /-- The name of the enclosing record. -/
  parent : Option String

/-- The head of a record. -/
def head (r : RecordDecl) : Head := ⟨r.scope, r.name, r.entry, r.parent⟩

/-- Something holds of the heads of a tree of records, and something else of its variables. -/
inductive Everywhere (P : Head → Prop) (V : Variable → Prop) : RecordDecl → Prop where
  | intro {r : RecordDecl} (head : P r.head) (own : ∀ v ∈ r.own, V v)
      (nested : ∀ n ∈ r.nested.getD [], Everywhere P V n) : Everywhere P V r

section Everywhere

variable {P P' : Head → Prop} {V V' : Variable → Prop} {r : RecordDecl}
variable {f : RecordDecl → RecordDecl}

variable (h : r.Everywhere P V)

include h

theorem Everywhere.head : P r.head := by
  cases h with
  | intro head _ _ => exact head

theorem Everywhere.own : ∀ v ∈ r.own, V v := by
  cases h with
  | intro _ own _ => exact own

theorem Everywhere.nested : ∀ n ∈ r.nested.getD [], n.Everywhere P V := by
  cases h with
  | intro _ _ nested => exact nested

/-- A change makes something hold everywhere if it does so record by record. -/
theorem Everywhere.mapTree (hstep : ∀ q : RecordDecl, P q.head → (∀ v ∈ q.own, V v) →
      (∀ n ∈ q.nested.getD [], n.Everywhere P' V') → (f q).Everywhere P' V') :
    (r.mapTree f).Everywhere P' V' := by
  induction h with
  | @intro r head own _ ih =>
    rw [mapTree_eq]
    refine hstep _ head own fun n hn => ?_
    obtain ⟨n', hn', rfl⟩ := mem_nested_map hn
    exact ih n' hn'

theorem Everywhere.imp (hP : ∀ h, P h → P' h) (hV : ∀ v, V v → V' v) : r.Everywhere P' V' := by
  induction h with
  | intro head own _ ih => exact .intro (hP _ head) (fun v hv => hV v (own v hv)) ih

theorem Everywhere.renumber {f : Nat → Nat} (hP : ∀ h, P h → P' { h with entry := f h.entry })
    (hV : ∀ v, V v → V' { v with entry := f v.entry }) : (r.renumber f).Everywhere P' V' := by
  refine h.mapTree fun q head own nested => ?_
  refine .intro (hP _ head) (fun v hv => ?_) nested
  have hv : v ∈ (q.mapOwn fun v => { v with entry := f v.entry }).own := hv
  rw [own_mapOwn] at hv
  obtain ⟨w, hw, rfl⟩ := mem_map.mp hv
  exact hV w (own w hw)

theorem Everywhere.refresh {new : RecordDecl} (hnew : new.Everywhere P V) :
    (new.refresh r).Everywhere P V := by
  refine h.mapTree fun q head own nested => ?_
  split
  · exact hnew
  · exact .intro head own nested

theorem Everywhere.refreshVariable {new : Variable} (hnew : ∀ v, V v → V (new.refresh v)) :
    (r.refreshVariable new).Everywhere P V := by
  refine h.mapTree fun q head own nested => ?_
  refine .intro head (fun v hv => ?_) nested
  rw [own_mapOwn] at hv
  obtain ⟨w, hw, rfl⟩ := mem_map.mp hv
  exact hnew w (own w hw)

theorem Everywhere.mapTree_eq_self (hf : ∀ q : RecordDecl, P q.head → (∀ v ∈ q.own, V v) → f q = q)
    : r.mapTree f = r := by
  induction h with
  | @intro r head own _ ih =>
    rw [mapTree_eq]
    have hnested : r.nested.map (List.map (RecordDecl.mapTree f)) = r.nested := by
      rw [nested_map_congr (g := id) ih]
      simp
    rw [hnested, withNested_nested]
    exact hf r head own

end Everywhere

/-! ## Numbering

A change throughout a tree can be made before or after the entries get new
numbers. -/

/-- A change that does not look inside. -/
def Local (f : RecordDecl → RecordDecl) : Prop :=
  ∀ (r : RecordDecl) (l : Option (List RecordDecl)), f (r.withNested l) = (f r).withNested l

theorem Local.nested (h : Local f) (r : RecordDecl) : (f r).nested = r.nested := by
  have heq := congrArg RecordDecl.nested (h r r.nested)
  rwa [withNested_nested] at heq

theorem mapTree_mapTree (hg : Local g) (r : RecordDecl) :
    (r.mapTree g).mapTree f = r.mapTree (f ∘ g) := by
  induction r using treeInduction with
  | h r ih =>
    have hinner : (r.nested.map (List.map (mapTree g))).map (List.map (mapTree f)) =
        r.nested.map (List.map (mapTree (f ∘ g))) := by
      rw [← nested_map_congr ih]
      cases r.nested with
      | none => rfl
      | some l => simp
    rw [mapTree_eq g r, mapTree_eq f, mapTree_eq (f ∘ g) r, hg.nested]
    show f ((g (r.withNested _)).withNested ((r.nested.map _).map _)) = f (g (r.withNested _))
    rw [hinner, ← hg]
    rfl

/-- The change that gives a record and its variables new numbers. -/
def renumberOwn (f : Nat → Nat) (r : RecordDecl) : RecordDecl :=
  { r.mapOwn (fun v => { v with entry := f v.entry }) with entry := f r.entry }

section

variable (f : Nat → Nat) (r : RecordDecl)

theorem local_renumberOwn : Local (renumberOwn f) := fun _ _ => rfl

theorem local_mapOwn (f : Variable → Variable) : Local (mapOwn f) := fun _ _ => rfl

/-- The variable with a new number. -/
def renumberVariable (f : Nat → Nat) (v : Variable) : Variable := { v with entry := f v.entry }

theorem renumber_eq :
    r.renumber f = (renumberOwn f r).withNested (r.nested.map (List.map (RecordDecl.renumber f))) := by
  rw [renumber, mapTree_eq]
  rfl

@[simp] theorem renumber_name : (r.renumber f).name = r.name := by
  rw [renumber_eq]; rfl

@[simp] theorem renumber_scope : (r.renumber f).scope = r.scope := by
  rw [renumber_eq]; rfl

@[simp] theorem renumber_entry : (r.renumber f).entry = f r.entry := by
  rw [renumber_eq]; rfl

@[simp] theorem renumber_body : (r.renumber f).body = r.body := by
  rw [renumber_eq]; rfl

@[simp] theorem renumber_parent : (r.renumber f).parent = r.parent := by
  rw [renumber_eq]; rfl

@[simp] theorem renumber_preComment : (r.renumber f).preComment = r.preComment := by
  rw [renumber_eq]; rfl

@[simp] theorem renumber_postComment : (r.renumber f).postComment = r.postComment := by
  rw [renumber_eq]; rfl

theorem renumber_nested :
    (r.renumber f).nested = r.nested.map (List.map (RecordDecl.renumber f)) := by
  rw [renumber_eq]; rfl

end

section

variable {f : Nat → Nat}

theorem site_renumber_beq (hf : ∀ m n, f m = f n → m = n) (r new : RecordDecl) :
    ((r.renumber f).site == (new.renumber f).site) = (r.site == new.site) := by
  unfold site
  rw [renumber_entry, renumber_entry, renumber_scope, renumber_scope, renumber_name, renumber_name]
  have hentry : (f r.entry == f new.entry) = (r.entry == new.entry) := by
    rw [Bool.eq_iff_iff, beq_iff_eq, beq_iff_eq]
    exact ⟨hf _ _, congrArg f⟩
  show ((f r.entry == f new.entry) && _) = ((r.entry == new.entry) && _)
  rw [hentry]

theorem renumber_refresh (hf : ∀ m n, f m = f n → m = n) (new r : RecordDecl) :
    (new.refresh r).renumber f = (new.renumber f).refresh (r.renumber f) := by
  induction r using treeInduction with
  | h r ih =>
    have hinner : (r.nested.map (List.map new.refresh)).map (List.map (RecordDecl.renumber f)) =
        (r.renumber f).nested.map (List.map (new.renumber f).refresh) := by
      rw [renumber_nested]
      cases hnested : r.nested with
      | none => rfl
      | some l =>
        rw [hnested] at ih
        simp only [Option.map_some, map_map, Option.some.injEq]
        exact map_congr_left ih
    unfold refresh
    rw [mapTree_eq, mapTree_eq]
    -- the record itself is replaced in both cases or in none
    show (if r.site == new.site then new else r.withNested _).renumber f =
      if (r.renumber f).site == (new.renumber f).site then new.renumber f
      else (r.renumber f).withNested _
    rw [site_renumber_beq hf]
    split
    · rfl
    · rw [renumber_eq f (r.withNested _)]
      show (renumberOwn f r).withNested ((r.nested.map (List.map new.refresh)).map _) =
        (r.renumber f).withNested ((r.renumber f).nested.map (List.map (new.renumber f).refresh))
      rw [hinner, renumber_eq f r]
      rfl

theorem renumberVariable_refresh (hf : ∀ m n, f m = f n → m = n) (new v : Variable) :
    renumberVariable f (new.refresh v) =
      (renumberVariable f new).refresh (renumberVariable f v) := by
  have hsite : ((renumberVariable f v).site == (renumberVariable f new).site) =
      (v.site == new.site) := by
    have hentry : (f v.entry == f new.entry) = (v.entry == new.entry) := by
      rw [Bool.eq_iff_iff, beq_iff_eq, beq_iff_eq]
      exact ⟨hf _ _, congrArg f⟩
    show ((f v.entry == f new.entry) && _) = ((v.entry == new.entry) && _)
    rw [hentry]
    rfl
  unfold Variable.refresh
  rw [hsite, apply_ite (renumberVariable f)]

theorem mapOwn_mapOwn (f g : Variable → Variable) (r : RecordDecl) :
    (r.mapOwn g).mapOwn f = r.mapOwn (f ∘ g) := by
  have hmap : List.map f ∘ List.map g = List.map (f ∘ g) := funext fun _ => map_map
  unfold mapOwn
  simp only [Option.map_map, hmap]

theorem renumber_renumber (f g : Nat → Nat) (r : RecordDecl) :
    (r.renumber g).renumber f = r.renumber (f ∘ g) := by
  show (r.mapTree (renumberOwn g)).mapTree (renumberOwn f) = r.mapTree (renumberOwn (f ∘ g))
  rw [mapTree_mapTree (local_renumberOwn g)]
  refine congrArg (fun h => r.mapTree h) (funext fun q => ?_)
  show { (q.mapOwn (renumberVariable g)).mapOwn (renumberVariable f) with
      entry := f (g q.entry) } =
    { q.mapOwn (renumberVariable (f ∘ g)) with entry := f (g q.entry) }
  rw [mapOwn_mapOwn]
  rfl

theorem renumber_refreshVariable (hf : ∀ m n, f m = f n → m = n) (new : Variable) (r : RecordDecl) :
    (r.refreshVariable new).renumber f =
      (r.renumber f).refreshVariable (renumberVariable f new) := by
  show (r.mapTree (mapOwn new.refresh)).mapTree (renumberOwn f) =
    (r.mapTree (renumberOwn f)).mapTree (mapOwn (renumberVariable f new).refresh)
  rw [mapTree_mapTree (local_mapOwn _), mapTree_mapTree (local_renumberOwn f)]
  have hown : ∀ q : RecordDecl, (q.mapOwn new.refresh).mapOwn (renumberVariable f) =
      (q.mapOwn (renumberVariable f)).mapOwn (renumberVariable f new).refresh := by
    intro q
    rw [mapOwn_mapOwn, mapOwn_mapOwn]
    exact congrArg (fun g => q.mapOwn g) (funext fun v => renumberVariable_refresh hf new v)
  refine congrArg (fun g => r.mapTree g) (funext fun q => ?_)
  show { (q.mapOwn new.refresh).mapOwn (renumberVariable f) with entry := f q.entry } =
    { (q.mapOwn (renumberVariable f)).mapOwn (renumberVariable f new).refresh with entry := f q.entry }
  rw [hown]

end

/-! ## Other entries -/

variable {P : Head → Prop} {V : Variable → Prop} {r : RecordDecl} {k : Nat}

theorem refresh_eq_self {new : RecordDecl} (h : r.Everywhere (fun h => h.entry ≤ k) V)
    (hnew : k < new.entry) : new.refresh r = r := by
  refine h.mapTree_eq_self fun q hq _ => if_neg fun hsite => ?_
  have hq : q.entry ≤ k := hq
  have hentry : q.entry = new.entry := congrArg Prod.fst (eq_of_beq hsite)
  omega

theorem refresh_variable_eq_self {v : Variable} (h : v.entry ≤ k) (hnew : k < new.entry) :
    new.refresh v = v := by
  refine if_neg fun hsite => ?_
  have hentry : v.entry = new.entry := congrArg Prod.fst (eq_of_beq hsite)
  omega

theorem refreshVariable_eq_self (h : r.Everywhere P (fun v => v.entry ≤ k)) (hnew : k < new.entry) :
    r.refreshVariable new = r := by
  refine h.mapTree_eq_self fun q _ hown => ?_
  exact mapOwn_eq_self fun v hv => refresh_variable_eq_self (hown v hv) hnew

end CBoundary.RecordDecl
