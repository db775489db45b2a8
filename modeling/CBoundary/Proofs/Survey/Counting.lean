import CBoundary.Survey.Options
import Mathlib.Algebra.Ring.Int.Defs
import Mathlib.Data.List.Induction
import Mathlib.Data.List.Nodup
import Mathlib.Data.Prod.Basic

/-!
# What the statistics count

The statistics are tables inside tables, made as uses come up.  Looked at through the count that
stands for two keys at two levels, entering a link changes one count and no other, and a use
enters one link for each pair of levels.
-/

namespace CBoundary.Survey

open List Counts

/-! ## One table -/

namespace Counts

variable {κ α : Type} [DecidableEq κ]
variable {l : Counts κ α}

/-- The value under a key. -/
def valueAt? (l : Counts κ α) (key : κ) : Option α := (l.find? fun e => e.1 == key).map Prod.snd

/-- The keys as they came up. -/
def keys (l : Counts κ α) : List κ := l.map Prod.fst

/-- All values of a table, weighed and added up. -/
def weight (weigh : α → Int) (l : Counts κ α) : Int := (l.map fun e => weigh e.2).sum

theorem valueAt?_cons (e : κ × α) (l : Counts κ α) (key : κ) :
    valueAt? (e :: l) key = if e.1 = key then some e.2 else valueAt? l key := by
  unfold valueAt?
  by_cases h : e.1 = key <;> simp [h]

theorem alter_cons (e : κ × α) (l : Counts κ α) (key : κ) (f : Option α → α) :
    alter key f (e :: l) = if e.1 = key then (e.1, f (some e.2)) :: l else e :: alter key f l := by
  by_cases h : e.1 = key <;> simp [alter, h]

theorem valueAt?_alter (key other : κ) (f : Option α → α) (l : Counts κ α) :
    valueAt? (alter key f l) other =
      if key = other then some (f (valueAt? l key)) else valueAt? l other := by
  induction l with
  | nil =>
    show valueAt? [(key, f none)] other = _
    rw [valueAt?_cons]
    rfl
  | cons e l ih =>
    rw [alter_cons, valueAt?_cons e l key, valueAt?_cons e l other]
    by_cases he : e.1 = key
    · rw [if_pos he, if_pos he, valueAt?_cons]
      subst he
      split <;> rfl
    · rw [if_neg he, if_neg he, valueAt?_cons, ih]
      by_cases ho : e.1 = other
      · have hne : key ≠ other := fun h => he (ho.trans h.symm)
        rw [if_pos ho, if_pos ho, if_neg hne]
      · rw [if_neg ho, if_neg ho]

theorem weight_alter (weigh : α → Int) (key : κ) (f : Option α → α) (l : Counts κ α) :
    weight weigh (alter key f l) =
      weight weigh l - ((valueAt? l key).map weigh).getD 0 + weigh (f (valueAt? l key)) := by
  induction l with
  | nil => simp [alter, weight, valueAt?]
  | cons e l ih =>
    rw [alter_cons, valueAt?_cons]
    unfold weight at ih ⊢
    split
    · simp only [map_cons, sum_cons, Option.map_some, Option.getD_some]
      omega
    · simp only [map_cons, sum_cons, ih]
      omega

theorem keys_alter (key : κ) (f : Option α → α) (l : Counts κ α) :
    keys (alter key f l) = if key ∈ keys l then keys l else keys l ++ [key] := by
  induction l with
  | nil => rfl
  | cons e l ih =>
    rw [alter_cons]
    unfold keys at ih ⊢
    by_cases he : e.1 = key
    · simp [he]
    · rw [if_neg he, map_cons, ih]
      have hne : key ≠ e.1 := fun h => he h.symm
      by_cases hmem : key ∈ l.map Prod.fst <;> simp [hmem, hne]

theorem nodup_keys_alter (h : (keys l).Nodup) (key : κ) (f : Option α → α) :
    (keys (alter key f l)).Nodup := by
  rw [keys_alter]
  split
  · exact h
  · rename_i hnew
    rw [← concat_eq_append]
    exact List.Nodup.concat hnew h

theorem forall_alter {P : α → Prop} (h : ∀ e ∈ l, P e.2) {key : κ} {f : Option α → α}
    (hf : ∀ old, (∀ v ∈ old, P v) → P (f old)) : ∀ e ∈ alter key f l, P e.2 := by
  induction l with
  | nil =>
    intro e he
    rw [mem_singleton.mp he]
    exact hf none fun v hv => absurd hv (Option.not_mem_none v)
  | cons e l ih =>
    obtain ⟨hhead, htail⟩ := forall_mem_cons.mp h
    rw [alter_cons]
    split
    · refine forall_mem_cons.mpr ⟨hf (some e.2) fun v hv => ?_, htail⟩
      rwa [← Option.some.inj hv]
    · exact forall_mem_cons.mpr ⟨hhead, ih htail⟩

end Counts

/-- The table at a level.  One that was never made has no entries. -/
def ByDetail.table {κ α : Type} (x : ByDetail (Counts κ α)) (d : Detail) : Counts κ α :=
  (x.get? d).getD []

theorem ByDetail.table_set {κ α : Type} (x : ByDetail (Counts κ α)) (d d' : Detail)
    (l : Counts κ α) : (x.set d l).table d' = if d = d' then l else x.table d' := by
  cases d <;> cases d' <;> rfl

/-! ## Entering links -/

namespace Stats

variable {κ : Type} [DecidableEq κ]
variable {s : Stats κ} {pairs : List (Detail × Detail)}

/-- The count for a source and a target at two levels. -/
def count? (s : Stats κ) (outer : Detail) (source : κ) (inner : Detail) (target : κ) : Option Int :=
  (valueAt? (s.table outer) source).bind fun t => valueAt? (t.table inner) target

/-- All counts of targets at a level, for the sources at another one. -/
def total (s : Stats κ) (outer inner : Detail) : Int :=
  weight (fun t => weight id (t.table inner)) (s.table outer)

/-- No key stands twice in a table. -/
structure Distinct (s : Stats κ) : Prop where
  sources : ∀ outer, (keys (s.table outer)).Nodup
  targets : ∀ outer, ∀ e ∈ s.table outer, ∀ inner, (keys (e.2.table inner)).Nodup

/-- A link more to a target. -/
def addTarget (t : Targets κ) (inner : Detail) (target : κ) (n : Int) : Targets κ :=
  t.set inner (alter target (fun old => old.getD 0 + n) (t.table inner))

theorem add_eq (s : Stats κ) (outer : Detail) (source : κ) (inner : Detail) (target : κ) (n : Int) :
    s.add outer source inner target n = s.set outer
      (alter source (fun old => addTarget (old.getD {}) inner target n) (s.table outer)) :=
  rfl

theorem count?_add (s : Stats κ) (x y x' y' : Detail) (a b a' b' : κ) (n : Int) :
    (s.add x a y b n).count? x' a' y' b' =
      if x = x' ∧ y = y' ∧ a = a' ∧ b = b' then some ((s.count? x' a' y' b').getD 0 + n)
      else s.count? x' a' y' b' := by
  have htarget : ∀ old : Option (Targets κ),
      valueAt? ((addTarget (old.getD {}) y b n).table y') b' = if y = y' ∧ b = b' then
          some (((old.bind fun t => valueAt? (t.table y') b').getD 0) + n)
        else old.bind fun t => valueAt? (t.table y') b' := by
    intro old
    have hold : valueAt? ((old.getD {}).table y') b' =
        old.bind fun t => valueAt? (t.table y') b' := by
      cases old with
      | none => cases y' <;> rfl
      | some t => rfl
    rw [addTarget, ByDetail.table_set]
    by_cases hy : y = y'
    · subst hy
      rw [if_pos rfl, valueAt?_alter]
      by_cases hb : b = b'
      · subst hb
        rw [if_pos rfl, if_pos ⟨rfl, rfl⟩, hold]
      · rw [if_neg hb, if_neg fun h => hb h.2, hold]
    · rw [if_neg hy, if_neg fun h => hy h.1, hold]
  unfold count?
  rw [add_eq, ByDetail.table_set]
  by_cases hx : x = x'
  · subst hx
    rw [if_pos rfl, valueAt?_alter]
    by_cases ha : a = a'
    · subst ha
      rw [if_pos rfl, Option.bind_some, htarget]
      simp
    · rw [if_neg ha, if_neg fun h => ha h.2.2.1]
  · rw [if_neg hx, if_neg fun h => hx h.1]

theorem total_add (s : Stats κ) (x y x' y' : Detail) (a b : κ) (n : Int) :
    (s.add x a y b n).total x' y' = s.total x' y' + if x = x' ∧ y = y' then n else 0 := by
  have htarget : ∀ old : Option (Targets κ),
      weight id ((addTarget (old.getD {}) y b n).table y') =
        (old.map fun t => weight id (t.table y')).getD 0 + if y = y' then n else 0 := by
    intro old
    have hold : weight id ((old.getD {}).table y') =
        (old.map fun t => weight id (t.table y')).getD 0 := by
      cases old with
      | none => cases y' <;> rfl
      | some t => rfl
    rw [addTarget, ByDetail.table_set, ← hold]
    by_cases hy : y = y'
    · subst hy
      rw [if_pos rfl, if_pos rfl, weight_alter, Option.map_id]
      simp only [id]
      omega
    · rw [if_neg hy, if_neg hy, Int.add_zero]
  unfold total
  rw [add_eq, ByDetail.table_set]
  by_cases hx : x = x'
  · subst hx
    rw [if_pos rfl, weight_alter, htarget]
    by_cases hy : y = y'
    · rw [if_pos hy, if_pos ⟨rfl, hy⟩]
      omega
    · rw [if_neg hy, if_neg fun h => hy h.2]
      omega
  · rw [if_neg hx, if_neg fun h => hx h.1, Int.add_zero]

theorem Distinct.add (h : s.Distinct) (x y : Detail) (a b : κ) (n : Int) :
    (s.add x a y b n).Distinct := by
  refine ⟨fun outer => ?_, fun outer => ?_⟩
  · rw [add_eq, ByDetail.table_set]
    split
    · exact nodup_keys_alter (h.sources x) a _
    · exact h.sources outer
  · rw [add_eq, ByDetail.table_set]
    split
    · refine forall_alter
        (P := fun t : Targets κ => ∀ inner, (keys (t.table inner)).Nodup)
        (h.targets x) fun old hold inner => ?_
      have hfrom : ∀ d, (keys ((old.getD {}).table d)).Nodup := by
        intro d
        cases old with
        | none => cases d <;> exact nodup_nil
        | some t => exact hold t rfl d
      rw [addTarget, ByDetail.table_set]
      split
      · exact nodup_keys_alter (hfrom y) b _
      · exact hfrom inner
    · exact h.targets outer

/-! ## Links at all levels -/

/-- A link of two things, each of which has a key at every level. -/
structure Link (κ : Type) where
  source : Detail → κ
  target : Detail → κ

/-- Enters a link at some pairs of levels. -/
def addAt (pairs : List (Detail × Detail)) (s : Stats κ) (l : Link κ) : Stats κ :=
  pairs.foldl (fun s p => s.add p.1 (l.source p.1) p.2 (l.target p.2) 1) s

/-- A view that a link changes at one pair of levels only is changed once. -/
theorem view_addAt {α : Type} (view : Stats κ → α) (f : α → α) {x y : Detail} {l : Link κ}
    (hstep : ∀ s p, view (s.add p.1 (l.source p.1) p.2 (l.target p.2) 1) =
      if p = (x, y) then f (view s) else view s) (hpairs : pairs.Nodup) (s : Stats κ) :
    view (addAt pairs s l) = if (x, y) ∈ pairs then f (view s) else view s := by
  induction pairs generalizing s with
  | nil => simp [addAt]
  | cons p pairs ih =>
    obtain ⟨hnew, hpairs⟩ := nodup_cons.mp hpairs
    show view (addAt pairs (s.add p.1 (l.source p.1) p.2 (l.target p.2) 1) l) = _
    rw [ih hpairs, hstep]
    by_cases hp : p = (x, y)
    · subst hp
      simp [hnew]
    · have hmem : (x, y) ∈ p :: pairs ↔ (x, y) ∈ pairs := by
        rw [mem_cons, or_iff_right fun h => hp h.symm]
      rw [if_neg hp]
      simp only [hmem]

theorem count?_addAt (hpairs : pairs.Nodup) (s : Stats κ) (l : Link κ) (x y : Detail) (a b : κ) :
    (addAt pairs s l).count? x a y b = if (x, y) ∈ pairs ∧ l.source x = a ∧ l.target y = b then
        some ((s.count? x a y b).getD 0 + 1)
      else s.count? x a y b := by
  rw [ite_and]
  refine view_addAt (count? · x a y b) (fun n => if l.source x = a ∧ l.target y = b then
    some (n.getD 0 + 1) else n) (fun s p => ?_) hpairs s
  rw [count?_add]
  grind

theorem total_addAt (hpairs : pairs.Nodup) (s : Stats κ) (l : Link κ) (x y : Detail) :
    (addAt pairs s l).total x y = if (x, y) ∈ pairs then s.total x y + 1 else s.total x y := by
  refine view_addAt (total · x y) (· + 1) (fun s p => ?_) hpairs s
  rw [total_add]
  grind

theorem Distinct.addAt (h : s.Distinct) (pairs : List (Detail × Detail)) (l : Link κ) :
    (addAt pairs s l).Distinct := by
  induction pairs generalizing s with
  | nil => exact h
  | cons p pairs ih => exact ih (h.add p.1 p.2 _ _ 1)

/-- Enters links one after the other. -/
def addLinks (pairs : List (Detail × Detail)) (links : List (Link κ)) : Stats κ :=
  links.foldl (addAt pairs) {}

/-- The links with given keys at given levels. -/
def linksAt (links : List (Link κ)) (x : Detail) (a : κ) (y : Detail) (b : κ) : Nat :=
  links.countP fun l => decide (l.source x = a ∧ l.target y = b)

/-- A number as it stands in a table, where there is no zero. -/
def entryOf (n : Nat) : Option Int := if n = 0 then none else some n

variable {pairs : List (Detail × Detail)}

/-- Each link counts once at each pair of levels, by induction from the last link. -/
theorem count?_addLinks (hpairs : pairs.Nodup) (hall : ∀ x y, (x, y) ∈ pairs)
    (links : List (Link κ)) (x y : Detail) (a b : κ) :
    (addLinks pairs links).count? x a y b = entryOf (linksAt links x a y b) := by
  induction links using reverseRecOn with
  | nil => cases x <;> rfl
  | append_singleton links l ih =>
    unfold addLinks linksAt at ih ⊢
    rw [foldl_append, countP_append, foldl_cons, foldl_nil,
      count?_addAt hpairs, ih]
    by_cases hkeys : l.source x = a ∧ l.target y = b
    · rw [if_pos ⟨hall x y, hkeys⟩, countP_singleton, if_pos (decide_eq_true hkeys)]
      unfold entryOf
      split <;> simp_all
    · rw [if_neg fun h => hkeys h.2, countP_singleton,
        if_neg fun h => hkeys (of_decide_eq_true h), Nat.add_zero]

theorem total_addLinks (hpairs : pairs.Nodup) (hall : ∀ x y, (x, y) ∈ pairs)
    (links : List (Link κ)) (x y : Detail) : (addLinks pairs links).total x y = links.length := by
  induction links using reverseRecOn with
  | nil => cases x <;> rfl
  | append_singleton links l ih =>
    unfold addLinks at ih ⊢
    rw [foldl_append, foldl_cons, foldl_nil, total_addAt hpairs, ih,
      if_pos (hall x y), length_append, length_singleton, Int.natCast_add,
      Int.natCast_one]

theorem distinct_addLinks (pairs : List (Detail × Detail)) (links : List (Link κ)) :
    (addLinks pairs links).Distinct := by
  have hempty : Distinct ({} : Stats κ) := by
    refine ⟨fun outer => ?_, fun outer e he => ?_⟩
    · cases outer <;> exact nodup_nil
    · cases outer <;> exact absurd he not_mem_nil
  unfold addLinks
  induction links using reverseRecOn with
  | nil => exact hempty
  | append_singleton links l ih =>
    rw [foldl_append]
    exact ih.addAt pairs l

end Stats

/-! ## Uses -/

/-- A use as a link. -/
def Use.link (u : Use) : Stats.Link Key where
  source x := Key.ofLocation x u.source
  target y := Key.ofLocation y u.target

/-- A use as a link from its target to its source. -/
def Use.linkBack (u : Use) : Stats.Link Key where
  source y := Key.ofLocation y u.target
  target x := Key.ofLocation x u.source

/-- All pairs of levels. -/
def Detail.pairs : List (Detail × Detail) := all.flatMap fun x => all.map fun y => (x, y)

theorem Detail.nodup_pairs : pairs.Nodup := by decide

theorem Detail.mem_pairs (x y : Detail) : (x, y) ∈ pairs := by
  cases x <;> cases y <;> decide

theorem statsOf_eq (uses : List Use) :
    statsOf uses = (Stats.addLinks Detail.pairs (uses.map Use.link),
      Stats.addLinks (Detail.pairs.map Prod.swap) (uses.map Use.linkBack)) := by
  unfold statsOf Stats.addLinks
  rw [foldl_map, foldl_map]
  induction uses using reverseRecOn with
  | nil => rfl
  | append_singleton uses u ih =>
    rw [foldl_append, foldl_append, foldl_append, foldl_cons, foldl_nil,
      ih]
    rfl

/-- How many of some uses have a source and a target with given keys at given levels. -/
def usesAt (uses : List Use) (x : Detail) (a : Key) (y : Detail) (b : Key) : Nat :=
  uses.countP fun u =>
    decide (Key.ofLocation x u.source = a ∧ Key.ofLocation y u.target = b)

/-- **The statistics count the uses that are asked for.** For any two levels and keys, the table by
sources has the number of these uses from the one to the other, and no entry where there are none;
the table by targets has the same the other way round. At any two levels the counts add up to the
number of the uses, and no key stands twice. -/
theorem statsOf_counts (o : Options) (w : Workspace) (cb : Codebase) (uses : List Use) :
    let counted := uses.filter (o.wantsUse w cb)
    let stats := statsOf counted
    (∀ (x y : Detail) (a b : Key),
      stats.1.count? x a y b = Stats.entryOf (usesAt counted x a y b) ∧
        stats.2.count? y b x a = Stats.entryOf (usesAt counted x a y b)) ∧
    (∀ x y : Detail, stats.1.total x y = counted.length ∧ stats.2.total y x = counted.length) ∧
    stats.1.Distinct ∧ stats.2.Distinct := by
  intro counted stats
  have hstats : stats = _ := statsOf_eq counted
  have hswap : (Detail.pairs.map Prod.swap).Nodup := Detail.nodup_pairs.map Prod.swap_injective
  have hmem : ∀ x y, (x, y) ∈ Detail.pairs.map Prod.swap :=
    fun x y => mem_map.mpr ⟨(y, x), Detail.mem_pairs y x, rfl⟩
  rw [hstats]
  refine ⟨fun x y a b => ⟨?_, ?_⟩, fun x y => ⟨?_, ?_⟩, ?_, ?_⟩
  · rw [Stats.count?_addLinks Detail.nodup_pairs Detail.mem_pairs, Stats.linksAt, countP_map]
    rfl
  · rw [Stats.count?_addLinks hswap hmem, Stats.linksAt, countP_map]
    congr 2
    funext u
    exact decide_eq_decide.mpr and_comm
  · rw [Stats.total_addLinks Detail.nodup_pairs Detail.mem_pairs, length_map]
  · rw [Stats.total_addLinks hswap hmem, length_map]
  · exact Stats.distinct_addLinks _ _
  · exact Stats.distinct_addLinks _ _

end CBoundary.Survey
