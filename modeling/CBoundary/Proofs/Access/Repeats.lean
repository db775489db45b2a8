import CBoundary.Proofs.Access.Search
import Mathlib.Data.List.Nodup
import Mathlib.Data.List.Perm.Basic

/-!
# Members that are found more than once

The runs of links of a text stand apart from each other, and so do the names, calls and indexes
of one run.  What is found twice is therefore found inside an operand in parentheses.
-/

namespace CBoundary

open List

namespace AccessChain

variable {x : Int × List Char} {pos : Int} {ls : List Link}

/-! ## Calls and indexes in order -/

/-- Texts in a row, with their starts. -/
def positioned (start : Int) : List (List Char) → List (Int × List Char)
  | [] => []
  | x :: xs => (start, x) :: positioned (start + x.length) xs

theorem foldl_positioned (xs : List (List Char)) (found : List (Int × List Char)) (start : Int) :
    (xs.foldl (fun (acc : List (Int × List Char) × Int) x =>
      (acc.1 ++ [(acc.2, x)], acc.2 + x.length)) (found, start)).1 =
      found ++ positioned start xs := by
  induction xs generalizing found start with
  | nil => exact (append_nil found).symm
  | cons x xs ih =>
    rw [foldl_cons, ih, positioned, append_assoc]
    rfl

theorem suffixesOf_cons (pos : Int) (l : Link) (ls : List Link) :
    suffixesOf pos (l :: ls) = positioned (pos + l.accessor + l.name.length) l.suffixes ++
      suffixesOf (pos + l.length) ls := by
  rw [suffixesOf, foldl_positioned]
  rfl

theorem bounds_of_mem_positioned {start : Int} {xs : List (List Char)}
    (hx : x ∈ positioned start xs) : start ≤ x.1 ∧ x.1 + x.2.length ≤ start + total xs := by
  induction xs generalizing start with
  | nil => cases hx
  | cons y ys ih =>
    have htotal : total (y :: ys) = y.length + total ys := by
      rw [total, total, flatten_cons, length_append]
    rcases mem_cons.mp hx with rfl | hx
    · dsimp only
      omega
    · have hbounds := ih hx
      omega

theorem pairwise_positioned (start : Int) (xs : List (List Char)) :
    (positioned start xs).Pairwise fun x y : Int × List Char => x.1 + x.2.length ≤ y.1 := by
  induction xs generalizing start with
  | nil => exact .nil
  | cons x xs ih => exact .cons (fun y hy => (bounds_of_mem_positioned hy).1) (ih _)

theorem bounds_of_mem_suffixesOf (hx : x ∈ suffixesOf pos ls) :
    pos ≤ x.1 ∧ x.1 + x.2.length ≤ pos + linksLength ls := by
  induction ls generalizing pos with
  | nil => cases hx
  | cons l ls ih =>
    rw [suffixesOf_cons] at hx
    rw [linksLength_cons]
    rcases mem_append.mp hx with hx | hx
    · have hbounds := bounds_of_mem_positioned hx
      unfold Link.length
      omega
    · have hbounds := ih hx
      omega

theorem pairwise_suffixesOf (pos : Int) (ls : List Link) :
    (suffixesOf pos ls).Pairwise fun x y : Int × List Char => x.1 + x.2.length ≤ y.1 := by
  induction ls generalizing pos with
  | nil => exact .nil
  | cons l ls ih =>
    rw [suffixesOf_cons]
    refine pairwise_append.mpr ⟨pairwise_positioned _ _, ih _, fun x hx y hy => ?_⟩
    have hfirst := (bounds_of_mem_positioned hx).2
    have hsecond := (bounds_of_mem_suffixesOf hy).1
    unfold Link.length at hsecond
    omega

theorem apart_of_mem {m : String × Span} (hm : m ∈ membersOf pos ls) (hx : x ∈ suffixesOf pos ls) :
    m.2.stop ≤ x.1 ∨ x.1 + x.2.length ≤ m.2.start := by
  induction ls generalizing pos with
  | nil => cases hm
  | cons l ls ih =>
    rw [suffixesOf_cons] at hx
    rcases mem_cons.mp hm with rfl | hm
    · refine .inl ?_
      dsimp only
      rcases mem_append.mp hx with hx | hx
      · exact (bounds_of_mem_positioned hx).1
      · have hbehind := (bounds_of_mem_suffixesOf hx).1
        unfold Link.length at hbehind
        omega
    · rcases mem_append.mp hx with hx | hx
      · refine .inr ?_
        have hfirst := (bounds_of_mem_positioned hx).2
        have hsecond := (bounds_of_mem_membersOf hm).1
        unfold Link.length at hsecond
        omega
      · exact ih hm hx

theorem pairwise_runs (pos : Nat) (before s : List Char) : (∀ r ∈ runs pos before s, pos ≤ r.pos) ∧
      (runs pos before s).Pairwise fun r r' => r.pos + linksLength r.links ≤ r'.pos := by
  fun_induction runs pos before s with
  | case1 => exact ⟨fun r hr => absurd hr not_mem_nil, .nil⟩
  | case2 pos before c cs hnone ih =>
    exact ⟨fun r hr => Nat.le_of_succ_le (ih.1 r hr), ih.2⟩
  | case3 pos before c cs l ls hlinks n ih =>
    refine ⟨fun r hr => ?_, .cons ih.1 ih.2⟩
    rcases mem_cons.mp hr with rfl | hr
    · exact Nat.le_refl _
    · exact Nat.le_trans (Nat.le_add_right pos n) (ih.1 r hr)

/-! ## Places -/

/-- The spans of the members of a chain. -/
def places (chain : AccessChain) : List Span := chain.members.map Prod.snd

namespace Area

/-- The spans of the members that a search finds. -/
def places (a : Area) : List Span := a.chains.flatMap AccessChain.places

end Area

/-- What is found without a look into the operand. -/
def Sighting.outside (g : Sighting) : List Span := g.chain.places ++ g.suffixes.flatMap Area.places

/-- What is found inside the operand. -/
def Sighting.inside (g : Sighting) : List Span := g.operand.toList.flatMap Area.places

namespace Area

variable {a b : Area}
variable {m : Span} {r : Run} {h : Holder}

/-- What is found in a text without a look into operands. -/
def outside (a : Area) : List Span := a.sightings.flatMap Sighting.outside

/-- What is found inside operands. -/
def inside (a : Area) : List Span := a.sightings.flatMap Sighting.inside

theorem places_eq (a : Area) :
    a.places = a.sightings.flatMap fun g => g.chain.places ++ g.areas.flatMap places := by
  unfold places
  rw [chains_eq, flatMap_assoc]
  refine flatMap_congr fun g _ => ?_
  rw [flatMap_cons, flatMap_assoc]

theorem perm_places (a : Area) : (a.outside ++ a.inside).Perm a.places := by
  rw [places_eq]
  refine (flatMap_append_perm a.sightings Sighting.outside Sighting.inside).trans ?_
  refine List.Perm.flatMap_left a.sightings fun g _ => ?_
  rw [Sighting.outside, Sighting.inside, Sighting.areas, flatMap_append, append_assoc]
  exact List.Perm.append_left _ perm_append_comm

theorem bounds_of_mem_places (h : m ∈ a.places) :
    a.offset ≤ m.start ∧ m.start < m.stop ∧ m.stop ≤ a.offset + a.chars.length := by
  obtain ⟨chain, hchain, hm⟩ := mem_flatMap.mp h
  obtain ⟨member, hmember, rfl⟩ := mem_map.mp hm
  have hplaced := placedIn_of_mem_chains hchain
  obtain ⟨⟨hstart, -⟩, ⟨front, rear, hs, hfront⟩, hstop⟩ := hplaced.members member hmember
  have hlength : 0 < member.1.toList.length := by
    rw [length_pos_iff]
    intro hnil
    rw [hnil] at hstart
    cases hstart
  have hends := (hplaced.within member hmember).2
  have hlast := hplaced.ends
  omega

theorem bounds_of_mem_suffixes (hr : r ∈ runs 0 [] a.chars) {x : Int × List Char}
    (hx : x ∈ suffixesOf (a.offset + r.pos) r.links)
    (hm : m ∈ places ⟨x.1 + 1, Text.interior x.2⟩) :
    x.1 ≤ m.start ∧ m.start < m.stop ∧ m.stop ≤ x.1 + x.2.length := by
  obtain ⟨rest, hlinks, -⟩ := standsAt_of_mem_runs hr
  obtain ⟨⟨c, inside, d, hbracketed, -⟩, -⟩ := hlinks.suffixesOf hx
  have hbounds := bounds_of_mem_places hm
  rw [hbracketed] at hbounds ⊢
  simp only [Text.interior, drop_succ_cons, drop_zero, dropLast_concat,
    length_cons, length_append, length_nil] at hbounds ⊢
  omega

theorem bounds_of_mem_outside (hr : r ∈ runs 0 [] a.chars)
    (hholder : holder? r.pos r.before = some h) (hm : m ∈ (a.sighting r h).outside) :
    a.offset + r.pos ≤ m.start ∧ m.start < m.stop ∧
      m.stop ≤ a.offset + r.pos + linksLength r.links := by
  rcases mem_append.mp hm with hm | hm
  · have hg := mem_sightings.mpr ⟨r, hr, h, hholder, rfl⟩
    have hchain : (a.sighting r h).chain ∈ a.chains := by
      rw [chains_eq]
      exact mem_flatMap.mpr ⟨_, hg, mem_cons_self⟩
    have hnonempty := (bounds_of_mem_places (mem_flatMap.mpr ⟨_, hchain, hm⟩)).2.1
    obtain ⟨member, hmember, rfl⟩ := mem_map.mp hm
    have hbounds := bounds_of_mem_membersOf hmember
    omega
  · obtain ⟨b, hb, hm⟩ := mem_flatMap.mp hm
    obtain ⟨x, hx, rfl⟩ := mem_map.mp hb
    have hinner := bounds_of_mem_suffixes hr hx hm
    have houter := bounds_of_mem_suffixesOf hx
    omega

theorem disjoint_of_apart {l l' : List Span} (hl : ∀ m ∈ l, m.start < m.stop)
    (h : ∀ m ∈ l, ∀ m' ∈ l', m.stop ≤ m'.start ∨ m'.stop ≤ m.start) : l.Disjoint l' := by
  intro m hm hm'
  have hnonempty := hl m hm
  have hapart := h m hm m hm'
  omega

theorem nodup_outside_sighting (hr : r ∈ runs 0 [] a.chars)
    (hholder : holder? r.pos r.before = some h)
    (hsuffixes : ∀ b ∈ (a.sighting r h).suffixes, b.places.Nodup) :
    (a.sighting r h).outside.Nodup := by
  have hg := mem_sightings.mpr ⟨r, hr, h, hholder, rfl⟩
  have hnonempty : ∀ m ∈ (a.sighting r h).chain.places, m.start < m.stop := fun m hm =>
    (bounds_of_mem_outside hr hholder (mem_append_left _ hm)).2.1
  refine nodup_append'.mpr ⟨?_, nodup_flatMap.mpr ⟨hsuffixes, ?_⟩, ?_⟩
  · refine pairwise_map.mpr ((placedIn_of_mem_sightings hg).ordered.imp_of_mem ?_)
    intro m m' hm _ hbefore heq
    have hlt := hnonempty _ (mem_map_of_mem hm)
    rw [← heq] at hbefore
    omega
  · refine pairwise_map.mpr ((pairwise_suffixesOf _ _).imp_of_mem ?_)
    intro x y hx hy hbefore
    refine disjoint_of_apart (fun m hm => (bounds_of_mem_suffixes hr hx hm).2.1)
      fun m hm m' hm' => .inl ?_
    have hfirst := bounds_of_mem_suffixes hr hx hm
    have hsecond := bounds_of_mem_suffixes hr hy hm'
    omega
  · refine disjoint_of_apart hnonempty fun m hm m' hm' => ?_
    obtain ⟨member, hmember, rfl⟩ := mem_map.mp hm
    obtain ⟨b, hb, hm'⟩ := mem_flatMap.mp hm'
    obtain ⟨x, hx, rfl⟩ := mem_map.mp hb
    have hinner := bounds_of_mem_suffixes hr hx hm'
    have hapart := apart_of_mem hmember hx
    omega

theorem nodup_outside (h : ∀ g ∈ a.sightings, ∀ b ∈ g.suffixes, b.places.Nodup) :
    a.outside.Nodup := by
  refine nodup_flatMap.mpr ⟨fun g hg => ?_, ?_⟩
  · obtain ⟨r, hr, holder, hholder, rfl⟩ := mem_sightings.mp hg
    exact nodup_outside_sighting hr hholder (h _ hg)
  · refine pairwise_flatMap.mpr ⟨fun r _ => ?_, ?_⟩
    · cases holder? r.pos r.before with
      | none => exact .nil
      | some h => exact pairwise_singleton _ _
    · refine (pairwise_runs 0 [] a.chars).2.imp_of_mem ?_
      intro r r' hr hr' hbefore g hg g' hg'
      obtain ⟨holder, hholder, rfl⟩ := Option.map_eq_some_iff.mp (Option.mem_toList.mp hg)
      obtain ⟨holder', hholder', rfl⟩ := Option.map_eq_some_iff.mp (Option.mem_toList.mp hg')
      refine disjoint_of_apart (fun m hm => (bounds_of_mem_outside hr hholder hm).2.1)
        fun m hm m' hm' => .inl ?_
      have hfirst := bounds_of_mem_outside hr hholder hm
      have hsecond := bounds_of_mem_outside hr' hholder' hm'
      omega

/-! ## Searches in searches -/

theorem Calls.sublist (h : a.Calls b) : b.places.Sublist a.places := by
  obtain ⟨g, hg, hb⟩ := h
  have hpart {α : Type} {l : List α} (f : α → List Span) {x : α} (hx : x ∈ l) :
      (f x).Sublist (l.flatMap f) := by
    exact sublist_flatten_of_mem (mem_map_of_mem hx)
  rw [places_eq a]
  refine List.Sublist.trans ?_ (hpart (fun g => g.chain.places ++ g.areas.flatMap places) hg)
  exact (hpart places hb).trans (sublist_append_right _ _)

theorem Reaches.sublist (h : a.Reaches b) : b.places.Sublist a.places := by
  induction h with
  | refl => exact List.Sublist.refl _
  | tail _ hcall ih => exact (Calls.sublist hcall).trans ih

theorem nodup_places_iff_outside (a : Area) : a.places.Nodup ↔
    a.outside.Nodup ∧ a.inside.Nodup ∧ a.outside.Disjoint a.inside := by
  rw [← a.perm_places.nodup_iff]
  exact nodup_append'

/-- **Members are found twice through operands only**: each is found once exactly if, in each
search, those inside operands are found there once and not outside. -/
theorem nodup_places_iff (a : Area) : a.places.Nodup ↔
    ∀ b, a.Reaches b → b.inside.Nodup ∧ b.outside.Disjoint b.inside := by
  constructor
  · intro h b hb
    exact ((nodup_places_iff_outside b).mp (h.sublist (Reaches.sublist hb))).2
  · intro h
    induction hlen : a.chars.length using Nat.strongRecOn generalizing a with
    | ind size ih =>
      subst hlen
      refine (nodup_places_iff_outside a).mpr ⟨nodup_outside fun g hg b hb => ?_, h a .refl⟩
      have hmem : b ∈ g.areas := mem_append_right _ hb
      refine ih _ (standsAt_of_mem_areas hg hmem).2 b (fun c hc => h c ?_) rfl
      exact .head ⟨g, hg, hmem⟩ hc

end Area

end AccessChain

end CBoundary
