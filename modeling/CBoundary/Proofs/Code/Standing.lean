import CBoundary.Proofs.Code.Merge
import CBoundary.Proofs.Table

/-!
# Standing

The standing of a definition is its module and its privacy.  When definitions with bodies come
together, the standing of the one that is kept depends only on the standings and the priorities,
which makes for an algebra of its own.
-/

namespace CBoundary

open List

/-- The module of a definition, and whether it is private. -/
structure Standing where
  moduleName : String
  isPrivate : Option Bool
  deriving DecidableEq

namespace Standing

/-- A module where there is none. -/
def joinModule (a b : String) : String := if a.isEmpty then b else a

/-- Privacy, or any word on it where there is none. -/
def joinPrivacy (p q : Option Bool) : Option Bool := if q == some true then some true else p <|> q

theorem joinModule_assoc (a b c : String) :
    joinModule (joinModule a b) c = joinModule a (joinModule b c) := by
  unfold joinModule
  cases ha : a.isEmpty with
  | true => rfl
  | false => simp [ha]

theorem joinModule_of_eq {a b c : String} (h : joinModule a c = a) :
    joinModule (joinModule a b) c = joinModule a b := by
  unfold joinModule at h ⊢
  cases ha : a.isEmpty with
  | false => simp [ha]
  | true =>
    have hc : c.isEmpty = true := by
      rw [ha, if_pos rfl] at h
      rw [h, ha]
    rw [if_pos rfl]
    split
    · rename_i hb
      rw [String.isEmpty_iff.mp hc, String.isEmpty_iff.mp hb]
    · rfl

theorem joinPrivacy_assoc (p q r : Option Bool) :
    joinPrivacy (joinPrivacy p q) r = joinPrivacy p (joinPrivacy q r) := by
  rcases p with - | (_ | _) <;> rcases q with - | (_ | _) <;> rcases r with - | (_ | _) <;> rfl

theorem joinPrivacy_self (p : Option Bool) : joinPrivacy p p = p := by
  rcases p with - | (_ | _) <;> rfl

theorem joinPrivacy_of_eq {p q r : Option Bool} (h : joinPrivacy p r = p) :
    joinPrivacy (joinPrivacy p q) r = joinPrivacy p q := by
  rcases p with - | (_ | _) <;> rcases q with - | (_ | _) <;> rcases r with - | (_ | _) <;>
    first | rfl | cases h

/-- A standing with what another one adds. -/
def join (a b : Standing) : Standing :=
  ⟨joinModule a.moduleName b.moduleName, joinPrivacy a.isPrivate b.isPrivate⟩

theorem join_assoc (a b c : Standing) : (a.join b).join c = a.join (b.join c) := by
  unfold join
  rw [joinModule_assoc, joinPrivacy_assoc]

theorem join_self (a : Standing) : a.join a = a := by
  rw [join, joinModule, ite_self, joinPrivacy_self]

theorem join_of_eq {a b c : Standing} (h : a.join c = a) : (a.join b).join c = a.join b := by
  unfold join at h ⊢
  rw [joinModule_of_eq (congrArg moduleName h), joinPrivacy_of_eq (congrArg isPrivate h)]

end Standing

/-! ## Claims

A definition claims its standing with its priority: it adds to what claims no less. -/

/-- A standing and how much it counts. -/
structure Claim where
  standing : Standing
  priority : Nat

namespace Claim

variable {a b c : Claim} {g : List Claim}

/-- A claim after another one was brought to it. -/
def settle (a b : Claim) : Claim :=
  if b.priority ≤ a.priority then ⟨a.standing.join b.standing, a.priority⟩ else a

/-- The claim that is kept after another one. -/
def settleOn (o : Option Claim) (b : Claim) : Option Claim :=
  some (match o with
    | none => b
    | some a => a.settle b)

theorem settle_of_le (h : b.priority ≤ a.priority) :
    a.settle b = ⟨a.standing.join b.standing, a.priority⟩ := if_pos h

theorem settle_of_not_le (h : ¬ b.priority ≤ a.priority) : a.settle b = a := if_neg h

theorem settle_settle (h : b.priority = c.priority) :
    (a.settle b).settle c = a.settle (b.settle c) := by
  have hbc : b.settle c = ⟨b.standing.join c.standing, b.priority⟩ :=
    settle_of_le (Nat.le_of_eq h.symm)
  by_cases hle : b.priority ≤ a.priority
  · have hjoint : (⟨b.standing.join c.standing, b.priority⟩ : Claim).priority ≤ a.priority := hle
    have hlater : c.priority ≤ (⟨a.standing.join b.standing, a.priority⟩ : Claim).priority := h ▸ hle
    rw [hbc, settle_of_le hle, settle_of_le hjoint, settle_of_le hlater, Standing.join_assoc]
  · have hjoint : ¬ (⟨b.standing.join c.standing, b.priority⟩ : Claim).priority ≤ a.priority := hle
    rw [hbc, settle_of_not_le hle, settle_of_not_le hjoint, settle_of_not_le (h ▸ hle)]

theorem settle_self (a : Claim) : a.settle a = a := by
  rw [settle_of_le (Nat.le_refl _), Standing.join_self]

theorem settle_of_eq (h : a.settle c = a) : (a.settle b).settle c = a.settle b := by
  by_cases hb : b.priority ≤ a.priority
  · rw [settle_of_le hb]
    by_cases hc : c.priority ≤ a.priority
    · rw [settle_of_le hc] at h
      have hlater : c.priority ≤ (⟨a.standing.join b.standing, a.priority⟩ : Claim).priority := hc
      rw [settle_of_le hlater, Standing.join_of_eq (congrArg standing h)]
    · exact settle_of_not_le hc
  · rw [settle_of_not_le hb, h]

theorem settle_again (a b : Claim) : (a.settle b).settle b = a.settle b := by
  rw [settle_settle rfl, settle_self]

/-! ### Groups of claims -/

/-- What is left of a group of claims. -/
def settled (g : List Claim) : Option Claim := g.foldl settleOn none

theorem foldl_settleOn_some (a : Claim) (g : List Claim) :
    g.foldl settleOn (some a) = some (g.foldl settle a) := by
  induction g generalizing a with
  | nil => rfl
  | cons b g ih => exact ih (a.settle b)

theorem foldl_settle_group (h : ∀ x ∈ g, x.priority = b.priority) :
    g.foldl settle (a.settle b) = a.settle (g.foldl settle b) := by
  induction g generalizing b with
  | nil => rfl
  | cons c g ih =>
    have hc : c.priority = b.priority := h c mem_cons_self
    have hpriority : (b.settle c).priority = b.priority := by
      unfold settle
      split <;> rfl
    rw [foldl_cons, foldl_cons, settle_settle hc.symm]
    exact ih fun x hx => (h x (mem_cons_of_mem c hx)).trans hpriority.symm

/-- Claims of one priority settle as one. -/
theorem foldl_settleOn_group (o : Option Claim) {p : Nat} (h : ∀ x ∈ g, x.priority = p) :
    g.foldl settleOn o = (settled g).elim o (settleOn o) := by
  cases g with
  | nil => rfl
  | cons b g =>
    have hrest : ∀ x ∈ g, x.priority = b.priority := fun x hx =>
      (h x (mem_cons_of_mem b hx)).trans (h b mem_cons_self).symm
    show g.foldl settleOn (settleOn o b) = (g.foldl settleOn (some b)).elim o (settleOn o)
    rw [foldl_settleOn_some]
    cases o with
    | none => exact foldl_settleOn_some b g
    | some a =>
      show g.foldl settleOn (some (a.settle b)) = some (a.settle (g.foldl settle b))
      rw [foldl_settleOn_some, foldl_settle_group hrest]

theorem settle_foldl_of_mem {x : Claim} (hx : x ∈ g ∨ a.settle x = a) :
    (g.foldl settle a).settle x = g.foldl settle a := by
  induction g generalizing a with
  | nil => exact hx.resolve_left not_mem_nil
  | cons b g ih =>
    refine ih ?_
    rcases hx with hx | hx
    · rcases mem_cons.mp hx with rfl | hx
      · exact .inr (settle_again a x)
      · exact .inl hx
    · exact .inr (settle_of_eq hx)

theorem foldl_settle_eq_self (h : ∀ x ∈ g, a.settle x = a) : g.foldl settle a = a :=
  foldlRecOn (motive := (· = a)) g settle rfl fun _ hb x hx => hb.symm ▸ h x hx

theorem foldl_settleOn_again (g : List Claim) : g.foldl settleOn (settled g) = settled g ∧
      (settled g).elim (settled g) (settleOn (settled g)) = settled g := by
  cases g with
  | nil => exact ⟨rfl, rfl⟩
  | cons b g =>
    have hleft : settled (b :: g) = some (g.foldl settle b) := foldl_settleOn_some b g
    rw [hleft]
    refine ⟨?_, congrArg some (settle_self _)⟩
    rw [foldl_settleOn_some]
    refine congrArg some (foldl_settle_eq_self fun x hx => settle_foldl_of_mem ?_)
    rcases mem_cons.mp hx with rfl | hx
    · exact .inr (settle_self x)
    · exact .inl hx

end Claim

/-! ## Tables of definitions -/

namespace Definition

open Audit Claim

variable {a b d : Definition} {P : Definition → Prop} {t : Table Definition}
  {ds g : List Definition}

/-- The standing of a definition. -/
def standing (d : Definition) : Standing := ⟨d.moduleName, d.isPrivate⟩

/-- What a definition claims. -/
def claim (d : Definition) : Claim := ⟨d.standing, d.priority⟩

theorem standing_absorbed (a b : Definition) :
    (a.absorbed b).standing = a.standing.join b.standing := by
  rw [standing, absorbed_moduleName, absorbed_isPrivate]
  rfl

theorem priority_merged_fst (hb : b.hasBody = true) : (a.merged b).1.priority = a.priority := by
  have hhidden : (a.merged b).1.hidden = a.hidden := by
    rw [Bool.eq_iff_iff, hidden_merged_fst, hb]
    simp
  rw [priority_eq, priority_eq, hasBody_merged_fst, merged_fst_scope, hhidden]

theorem claim_merged (hb : b.hasBody = true) : (a.merged b).1.claim = a.claim.settle b.claim := by
  have hpriority := priority_merged_fst (a := a) hb
  rw [claim, hpriority, merged_fst]
  by_cases hle : b.priority ≤ a.priority
  · rw [if_pos hle, standing_absorbed]
    exact (settle_of_le (a := ⟨a.standing, a.priority⟩) (b := ⟨b.standing, b.priority⟩) hle).symm
  · rw [if_neg hle]
    exact (settle_of_not_le (a := ⟨a.standing, a.priority⟩) (b := ⟨b.standing, b.priority⟩) hle).symm

/-- The table after some definitions were entered. -/
def enteredAll (t : Table Definition) (ds : List Definition) : Table Definition :=
  ds.foldl (fun t d => (upserted t d).1) t

theorem forall_entries_upserted {Q : String → Definition → Prop}
    (hmerged : ∀ key a b, Q key a → Q b.name b → Q key (a.merged b).1) (hd : Q d.name d)
    (ht : ∀ p ∈ t.entries, Q p.1 p.2) : ∀ p ∈ (upserted t d).1.entries, Q p.1 p.2 := by
  intro p hp
  unfold upserted at hp
  split at hp
  · rcases Table.mem_entries_insert hp with rfl | hp
    · exact hd
    · exact ht p hp
  · rename_i old hfind
    rcases Table.mem_entries_insert hp with rfl | hp
    · rw [merged_snd_name]
      exact hmerged _ old d (ht _ (Table.mem_entries_of_find? hfind)) hd
    · exact ht p hp

theorem forall_upserted (hmerged : ∀ a b, P a → P b → P (a.merged b).1) (hd : P d)
    (ht : ∀ x ∈ t.values, P x) : ∀ x ∈ (upserted t d).1.values, P x :=
  forall_mem_map.mpr (forall_entries_upserted (fun _ => hmerged) hd (forall_mem_map.mp ht))

theorem forall_enteredAll (hmerged : ∀ a b, P a → P b → P (a.merged b).1) (hds : ∀ d ∈ ds, P d)
    (ht : ∀ x ∈ t.values, P x) : ∀ x ∈ (enteredAll t ds).values, P x :=
  foldlRecOn (motive := fun t : Table Definition => ∀ x ∈ t.values, P x) ds _ ht
    fun _ ht d hd => forall_upserted hmerged (hds d hd) ht

theorem answers_upsertAll (t : Table Definition) (ds : List Definition) :
    Answers (Codebase.upsertAll t ds) (.ok (enteredAll t ds)) :=
  answers_foldlM_ok (fun t d => (answers_upsert t d).bind_pure) ds t

/-- What is claimed under a name of a table. -/
def claimAt (t : Table Definition) (key : String) : Option Claim := (t.find? key).map claim

/-- Entering changes what is under one name. -/
theorem find?_upserted (t : Table Definition) (d : Definition) (key : String) :
    (upserted t d).1.find? key = if key = d.name then some (match t.find? d.name with
        | none => d
        | some old => (old.merged d).1)
      else t.find? key := by
  unfold upserted
  cases t.find? d.name with
  | none => exact Table.find?_insert t d.name key d
  | some old =>
    dsimp only
    rw [merged_snd_name]
    exact Table.find?_insert t d.name key _

theorem claimAt_upserted (hd : d.hasBody = true) (t : Table Definition) (key : String) :
    claimAt (upserted t d).1 key =
      if d.name = key then settleOn (claimAt t key) d.claim else claimAt t key := by
  unfold claimAt
  rw [find?_upserted]
  by_cases hkey : key = d.name
  · subst hkey
    rw [if_pos rfl, if_pos rfl]
    cases t.find? d.name with
    | none => rfl
    | some old => exact congrArg some (claim_merged hd)
  · rw [if_neg hkey, if_neg (Ne.symm hkey)]

/-- Claims settle name by name. -/
theorem claimAt_enteredAll (hds : ∀ d ∈ ds, d.hasBody = true) (t : Table Definition)
    (key : String) :
    claimAt (enteredAll t ds) key =
      ((ds.filter fun d => d.name == key).map claim).foldl settleOn (claimAt t key) := by
  induction ds generalizing t with
  | nil => rfl
  | cons d ds ih =>
    have hrest : ∀ d ∈ ds, d.hasBody = true := fun e he => hds e (mem_cons_of_mem d he)
    show claimAt (enteredAll (upserted t d).1 ds) key = _
    rw [ih hrest, claimAt_upserted (hds d mem_cons_self), filter_cons]
    by_cases hkey : d.name = key
    · rw [if_pos hkey, if_pos (beq_iff_eq.mpr hkey)]
      rfl
    · rw [if_neg hkey, if_neg (fun h => hkey (eq_of_beq h))]

/-- Every definition of the table stands once, under its name, and has a body. -/
structure Bodied (t : Table Definition) : Prop where
  distinct : t.Distinct
  named : ∀ key d, (key, d) ∈ t.entries → d.name = key ∧ d.hasBody = true

theorem bodied_empty : Bodied {} := ⟨Table.distinct_empty, fun _ _ h => absurd h not_mem_nil⟩

theorem Bodied.upserted (h : Bodied t) (hd : d.hasBody = true) : Bodied (upserted t d).1 := by
  have hnamed := forall_entries_upserted (Q := fun key d => d.name = key ∧ d.hasBody = true)
    (fun key a b ha _ => by rwa [merged_fst_name, hasBody_merged_fst]) ⟨rfl, hd⟩
    fun p hp => h.named p.1 p.2 hp
  refine ⟨?_, fun key e he => hnamed (key, e) he⟩
  unfold Definition.upserted
  split <;> exact h.distinct.insert _ _

theorem Bodied.enteredAll (h : Bodied t) (hds : ∀ d ∈ ds, d.hasBody = true) :
    Bodied (enteredAll t ds) :=
  foldlRecOn (motive := Bodied) ds _ h fun _ ht d hd => ht.upserted (hds d hd)

theorem Bodied.hasBody_of_mem (h : Bodied t) : ∀ d ∈ t.values, d.hasBody = true := by
  intro d hd
  obtain ⟨⟨key, d⟩, he, rfl⟩ := mem_map.mp hd
  exact (h.named key d he).2

theorem Bodied.filter_values (h : Bodied t) (key : String) :
    t.values.filter (fun d => d.name == key) = (t.find? key).toList := by
  have hentries : t.entries.filter (fun e => e.2.name == key) =
      t.entries.filter (fun e => e.1 == key) := by
    refine filter_congr fun e he => ?_
    rw [(h.named e.1 e.2 he).1]
  rw [Table.values, filter_map]
  show (t.entries.filter fun e => e.2.name == key).map Prod.snd = _
  rw [hentries, h.distinct.filter_entries, map_map]
  exact map_id _

theorem claimAt_enteredAll_values {src : Table Definition} (hsrc : Bodied src)
    (t : Table Definition) (key : String) :
    claimAt (enteredAll t src.values) key =
      (claimAt src key).elim (claimAt t key) (settleOn (claimAt t key)) := by
  rw [claimAt_enteredAll hsrc.hasBody_of_mem, hsrc.filter_values]
  unfold claimAt
  cases src.find? key <;> rfl

/-! ## Definitions in groups -/

theorem claimAt_enteredAll_empty (hg : ∀ d ∈ g, d.hasBody = true) (key : String) :
    claimAt (enteredAll {} g) key = settled ((g.filter fun d => d.name == key).map claim) :=
  claimAt_enteredAll hg {} key

/-- Groups may be settled before they are entered. -/
theorem claimAt_groups {groups : List (List Definition)}
    (hbody : ∀ g ∈ groups, ∀ d ∈ g, d.hasBody = true)
    (hpriority : ∀ g ∈ groups, ∃ p, ∀ d ∈ g, d.priority = p) {t' : Table Definition}
    (ht : ∀ key, claimAt t key = claimAt t' key) (key : String) :
    claimAt (groups.foldl enteredAll t) key =
      claimAt (groups.foldl (fun t g => enteredAll t (enteredAll {} g).values) t') key := by
  induction groups generalizing t t' with
  | nil => exact ht key
  | cons g groups ih =>
    refine ih (fun g' hg' => hbody g' (mem_cons_of_mem g hg'))
      (fun g' hg' => hpriority g' (mem_cons_of_mem g hg')) fun key => ?_
    have hg := hbody g mem_cons_self
    obtain ⟨p, hp⟩ := hpriority g mem_cons_self
    have hone : ∀ x ∈ (g.filter fun d => d.name == key).map claim, x.priority = p := by
      intro x hx
      obtain ⟨d, hd, rfl⟩ := mem_map.mp hx
      exact hp d (mem_of_mem_filter hd)
    rw [claimAt_enteredAll hg, claimAt_enteredAll_values (bodied_empty.enteredAll hg),
      claimAt_enteredAll_empty hg, foldl_settleOn_group _ hone, ht]

theorem claimAt_enteredAll_left (hg : ∀ d ∈ g, d.hasBody = true) (key : String) :
    claimAt (enteredAll {} (enteredAll {} g).values) key = claimAt (enteredAll {} g) key := by
  rw [claimAt_enteredAll_values (bodied_empty.enteredAll hg)]
  cases claimAt (enteredAll {} g) key <;> rfl

theorem claimAt_again (hg : ∀ d ∈ g, d.hasBody = true)
    (ht : ∀ key, claimAt t key = claimAt (enteredAll {} g) key) (key : String) :
    claimAt (enteredAll t g) key = claimAt (enteredAll {} g) key ∧
      claimAt (enteredAll t (enteredAll {} g).values) key = claimAt (enteredAll {} g) key := by
  obtain ⟨hone, hall⟩ := foldl_settleOn_again ((g.filter fun d => d.name == key).map claim)
  rw [claimAt_enteredAll hg, claimAt_enteredAll_values (bodied_empty.enteredAll hg), ht,
    claimAt_enteredAll_empty hg]
  exact ⟨hone, hall⟩

end Definition

end CBoundary
