import CBoundary.Rename
import Mathlib.Algebra.BigOperators.Group.Finset.Piecewise
import Mathlib.Data.List.Basic

/-!
# Patched texts

Patches whose ranges are the same or do not meet can be applied in any order: at the start of
each range stand the new texts of all patches for it, and the characters of the range are gone.
-/

namespace CBoundary.Patch

open List

variable {ps qs : List Patch} {x : Char × Nat} {p q : Patch} {s : List Char} {k i : Nat}

/-- The new texts of the patches whose ranges start at a position. -/
def textsAt (ps : List Patch) (i : Nat) : List Char :=
  (ps.filter fun p => p.span.start == (i : Int)).flatMap fun p => p.text.toList

/-- Does one of the patches replace the character at a position? -/
def covers (ps : List Patch) (i : Nat) : Bool :=
  ps.any fun p => p.span.start ≤ (i : Int) && (i : Int) < p.span.stop

/-- What comes of the character at a position. -/
def replacedAt (ps : List Patch) (x : Char × Nat) : List Char :=
  textsAt ps x.2 ++ if covers ps x.2 then [] else [x.1]

/-- The text with each range replaced by the new texts for it, and all else kept. -/
def replaced (s : List Char) (ps : List Patch) : List Char := s.zipIdx.flatMap (replacedAt ps)

/-- The range of the patch lies in the text and is not empty. -/
structure Fits (s : List Char) (p : Patch) : Prop where
  nonneg : 0 ≤ p.span.start
  lt : p.span.start < p.span.stop
  le_length : p.span.stop ≤ s.length

/-- Ranges are the same, or do not meet. -/
def Apart (p q : Patch) : Prop :=
  p.span = q.span ∨ p.span.stop ≤ q.span.start ∨ q.span.stop ≤ p.span.start

theorem replacedAt_eq_self (h : ∀ p ∈ ps, (x.2 : Int) < p.span.start ∨ p.span.stop ≤ x.2)
    (hfits : ∀ p ∈ ps, p.span.start < p.span.stop) : replacedAt ps x = [x.1] := by
  have htexts : ps.filter (fun p => p.span.start == (x.2 : Int)) = [] := by
    refine filter_eq_nil_iff.mpr fun p hp => ?_
    have := h p hp
    have := hfits p hp
    simp only [beq_iff_eq]
    omega
  have hcovers : covers ps x.2 = false := by
    refine any_eq_false.mpr fun p hp => ?_
    have := h p hp
    simp only [Bool.and_eq_true, decide_eq_true_eq]
    omega
  rw [replacedAt, textsAt, htexts, hcovers]
  rfl

theorem replacedAt_cons_of_outside (hp : p.span.start < p.span.stop) (ps : List Patch)
    (h : (x.2 : Int) < p.span.start ∨ p.span.stop ≤ x.2) :
    replacedAt (p :: ps) x = replacedAt ps x := by
  have hstart : ¬ p.span.start = (x.2 : Int) := by omega
  have hinside :
      (decide (p.span.start ≤ (x.2 : Int)) && decide ((x.2 : Int) < p.span.stop)) = false := by
    simp only [Bool.and_eq_false_iff, decide_eq_false_iff_not]
    omega
  rw [replacedAt, replacedAt, textsAt, textsAt, covers, covers,
    filter_cons_of_neg (by simpa using hstart), any_cons, hinside, Bool.false_or]

/-! ## Patches in order -/

theorem flatMap_replacedAt_eq_self (h : ∀ x ∈ s.zipIdx k, replacedAt ps x = [x.1]) :
    (s.zipIdx k).flatMap (replacedAt ps) = s := by
  rw [flatMap_congr h, ← map_eq_flatMap]
  exact zipIdx_map_fst ..

theorem flatMap_replacedAt_front (hfits : ∀ p ∈ ps, p.span.start < p.span.stop)
    (h : ∀ p ∈ ps, ((k + s.length : Nat) : Int) ≤ p.span.start) :
    (s.zipIdx k).flatMap (replacedAt ps) = s := by
  refine flatMap_replacedAt_eq_self fun x hx => ?_
  have hlt := snd_lt_add_of_mem_zipIdx hx
  refine replacedAt_eq_self (fun p hp => .inl ?_) hfits
  have := h p hp
  omega

theorem flatMap_replacedAt_behind (hp : p.span.start < p.span.stop) (ps : List Patch)
    (s : List Char) (h : p.span.stop ≤ k) :
    (s.zipIdx k).flatMap (replacedAt (p :: ps)) = (s.zipIdx k).flatMap (replacedAt ps) := by
  refine flatMap_congr fun x hx => replacedAt_cons_of_outside hp ps (.inr ?_)
  have := le_snd_of_mem_zipIdx hx
  omega

theorem flatMap_replacedAt_range (hstart : p.span.start = k) (hstop : p.span.stop = k + s.length)
    (hne : s ≠ []) (hapart : ∀ q ∈ ps, q.span = p.span ∨ p.span.stop ≤ q.span.start) :
    (s.zipIdx k).flatMap (replacedAt (p :: ps)) = p.text.toList ++ textsAt ps k := by
  have hcovers (i : Nat) (hk : k ≤ i) (hi : i < k + s.length) : covers (p :: ps) i = true := by
    refine any_eq_true.mpr ⟨p, mem_cons_self, ?_⟩
    simp only [Bool.and_eq_true, decide_eq_true_eq]
    omega
  cases s with
  | nil => exact absurd rfl hne
  | cons c cs =>
    simp only [length_cons] at hstop hcovers
    have hrest : (cs.zipIdx (k + 1)).flatMap (replacedAt (p :: ps)) = [] := by
      refine flatMap_eq_nil_iff.mpr fun x hx => ?_
      have hle := le_snd_of_mem_zipIdx hx
      have hlt := snd_lt_add_of_mem_zipIdx hx
      have htexts : (p :: ps).filter (fun q => q.span.start == (x.2 : Int)) = [] := by
        refine filter_eq_nil_iff.mpr fun q hq => ?_
        simp only [beq_iff_eq]
        rcases mem_cons.mp hq with rfl | hq
        · omega
        · rcases hapart q hq with hsame | hbehind
          · rw [hsame]
            omega
          · omega
      rw [replacedAt, textsAt, htexts, hcovers x.2 (by omega) (by omega)]
      rfl
    rw [zipIdx_cons, flatMap_cons, hrest, append_nil, replacedAt,
      hcovers k (Nat.le_refl k) (by omega), if_pos rfl, append_nil, textsAt, textsAt,
      filter_cons_of_pos (by simpa using hstart), flatMap_cons]

theorem zipIdx_drop_eq (s : List Char) {j : Nat} (hij : i ≤ j) (hjk : j ≤ k) :
    (s.drop i).zipIdx i = ((s.drop i).take (j - i)).zipIdx i ++
      (((s.drop j).take (k - j)).zipIdx j ++ (s.drop k).zipIdx k) := by
  have hcut {i j : Nat} (hij : i ≤ j) :
      (s.drop i).zipIdx i = ((s.drop i).take (j - i)).zipIdx i ++ (s.drop j).zipIdx j := by
    have hdrop : (s.drop i).drop (j - i) = s.drop j := by
      rw [drop_drop, Nat.add_sub_cancel' hij]
    conv_lhs => rw [← take_append_drop (j - i) (s.drop i), hdrop, zipIdx_append]
    rw [length_take, length_drop]
    rcases Nat.le_total j s.length with h | h
    · rw [show i + min (j - i) (s.length - i) = j by omega]
    · rw [drop_eq_nil_of_le h]
      rfl
  rw [hcut hij, hcut hjk]

theorem clampBound_natCast {n : Nat} (h : i ≤ n) : Text.clampBound n i = i := by
  rw [Text.clampBound, if_neg (by omega)]
  omega

section

variable {p : Patch} {ps : List Patch} {a b : Nat} (hstart : p.span.start = a)
  (hstop : p.span.stop = b) (hlt : a < b)
  (hsame : ∀ q ∈ ps, q.span = p.span ∨ p.span.stop ≤ q.span.start)

include hstart hstop hlt hsame

/-- The characters before the first range stay, then come its new texts, then the rest. -/
theorem flatMap_replacedAt_cons {s : List Char} {k : Nat} (hk : k ≤ a) (hb : b ≤ s.length)
    (hfits : ∀ q ∈ p :: ps, q.span.start < q.span.stop) :
    ((s.drop k).zipIdx k).flatMap (replacedAt (p :: ps)) =
      (s.drop k).take (a - k) ++ (p.text.toList ++ textsAt ps a ++
        ((s.drop b).zipIdx b).flatMap (replacedAt ps)) := by
  have hstarts : ∀ q ∈ p :: ps, (a : Int) ≤ q.span.start := by
    refine forall_mem_cons.mpr ⟨by omega, fun q hq => ?_⟩
    rcases hsame q hq with h | h
    · rw [h]
      omega
    · omega
  have hfront : (((s.drop k).take (a - k)).zipIdx k).flatMap (replacedAt (p :: ps)) =
      (s.drop k).take (a - k) := by
    refine flatMap_replacedAt_front hfits fun q hq => ?_
    have := hstarts q hq
    rw [length_take]
    omega
  have hrange : (((s.drop a).take (b - a)).zipIdx a).flatMap (replacedAt (p :: ps)) =
      p.text.toList ++ textsAt ps a := by
    have hlength : ((s.drop a).take (b - a)).length = b - a := by
      rw [length_take, length_drop]
      omega
    refine flatMap_replacedAt_range hstart ?_ (fun hnil => ?_) hsame
    · rw [hlength, hstop]
      omega
    · rw [hnil, length_nil] at hlength
      omega
  rw [zipIdx_drop_eq s hk (Nat.le_of_lt hlt), flatMap_append, flatMap_append, hfront,
    hrange, flatMap_replacedAt_behind (by omega) ps _ (by omega)]

theorem flatMap_filter_start_lt :
    ((ps.filter fun q => q.span.start < (b : Int)).flatMap fun q => q.text.toList) =
      textsAt ps a := by
  refine congrArg (List.flatMap fun q : Patch => q.text.toList) (filter_congr fun q hq => ?_)
  rw [Bool.eq_iff_iff, decide_eq_true_eq, beq_iff_eq]
  rcases hsame q hq with h | h
  · rw [h, hstart]
    omega
  · omega

end

/-- Patches applied in order, from a position behind which no replaced range starts. -/
theorem applyFrom_eq (hfits : ∀ q ∈ qs, q.Fits s)
    (hsorted : qs.Pairwise fun p q => p.span.start ≤ q.span.start)
    (hapart : ∀ p ∈ qs, ∀ q ∈ qs, p.Apart q) (hpos : k ≤ s.length)
    (hbehind : ∀ q ∈ qs, (k : Int) ≤ q.span.start ∨ q.span.stop = k) :
    applyFrom s k qs =
      ((qs.filter fun q => q.span.start < (k : Int)).flatMap fun q => q.text.toList) ++
      ((s.drop k).zipIdx k).flatMap (replacedAt qs) := by
  induction qs generalizing k with
  | nil =>
    have hself : ((s.drop k).zipIdx k).flatMap (replacedAt []) = s.drop k :=
      flatMap_replacedAt_eq_self fun x _ => rfl
    rw [hself, applyFrom, Text.sliceFrom, clampBound_natCast hpos]
    rfl
  | cons p ps ih =>
    have hp := hfits p mem_cons_self
    have hps : ∀ q ∈ ps, q.Fits s := fun q hq => hfits q (mem_cons_of_mem p hq)
    obtain ⟨hfirst, hrest⟩ := pairwise_cons.mp hsorted
    have ih := fun {k} => ih (k := k) hps hrest fun a ha b hb =>
      hapart a (mem_cons_of_mem p ha) b (mem_cons_of_mem p hb)
    by_cases hdone : p.span.start < k
    · -- one more patch of the range that was replaced last
      have hstop : p.span.stop = k := (hbehind p mem_cons_self).resolve_left (by omega)
      rw [applyFrom, if_neg (by omega), nil_append, hstop,
        ih hpos fun q hq => hbehind q (mem_cons_of_mem p hq),
        filter_cons_of_pos (by simpa using hdone), flatMap_cons,
        flatMap_replacedAt_behind hp.lt ps _ (by omega), append_assoc]
    · -- the first patch of a range; the others of the same range come next
      obtain ⟨a, ha⟩ := Int.eq_ofNat_of_zero_le hp.nonneg
      obtain ⟨b, hb⟩ := Int.eq_ofNat_of_zero_le (a := p.span.stop) (by have := hp.lt; omega)
      have hlt : a < b := by have := hp.lt; omega
      have hle : b ≤ s.length := by have := hp.le_length; omega
      have hka : k ≤ a := by omega
      have hsame : ∀ q ∈ ps, q.span = p.span ∨ p.span.stop ≤ q.span.start := by
        intro q hq
        rcases hapart p mem_cons_self q (mem_cons_of_mem p hq) with h | h | h
        · exact .inl h.symm
        · exact .inr h
        · have := hfirst q hq
          have := (hps q hq).lt
          omega
      have hnone : (p :: ps).filter (fun q => q.span.start < (k : Int)) = [] := by
        refine filter_eq_nil_iff.mpr (forall_mem_cons.mpr ⟨by simpa using hdone, ?_⟩)
        intro q hq
        have := hfirst q hq
        simp only [decide_eq_true_eq]
        omega
      have hslice : (if (k : Int) < a then Text.slice s k a else []) = (s.drop k).take (a - k) := by
        split
        · rw [Text.slice, clampBound_natCast hpos, clampBound_natCast (by omega)]
        · rw [show a - k = 0 by omega, take_zero]
      rw [applyFrom, ha, hb, hslice, ih hle fun q hq => ?_,
        flatMap_filter_start_lt ha hb hlt hsame, hnone,
        flatMap_replacedAt_cons ha hb hlt hsame hka hle fun q hq => (hfits q hq).lt]
      · simp only [flatMap_nil, nil_append, append_assoc]
      · rcases hsame q hq with h | h
        · exact .inr (by rw [h, hb])
        · exact .inl (by omega)

/-! ## Patches in any order -/

theorem le_trans (p q r : Patch) (hpq : p.le q = true) (hqr : q.le r = true) : p.le r = true := by
  simp only [le, Bool.or_eq_true, Bool.and_eq_true, decide_eq_true_eq, beq_iff_eq] at hpq hqr ⊢
  omega

theorem le_total (p q : Patch) : (p.le q || q.le p) = true := by
  simp only [le, Bool.or_eq_true, Bool.and_eq_true, decide_eq_true_eq, beq_iff_eq]
  omega

theorem start_le_of_le (h : p.le q = true) : p.span.start ≤ q.span.start := by
  simp only [le, Bool.or_eq_true, Bool.and_eq_true, decide_eq_true_eq, beq_iff_eq] at h
  omega

theorem Apart.span_eq (h : p.Apart q) (hp : p.Fits s) (hq : q.Fits s)
    (hstart : p.span.start = q.span.start) : p.span = q.span := by
  have := hp.lt
  have := hq.lt
  rcases h with h | h | h
  · exact h
  · omega
  · omega

theorem textsAt_mergeSort (hfits : ∀ p ∈ ps, p.Fits s) (hapart : ∀ p ∈ ps, ∀ q ∈ ps, p.Apart q)
    (i : Nat) : textsAt (ps.mergeSort le) i = textsAt ps i := by
  have hordered :
      (ps.filter fun p => p.span.start == (i : Int)).Pairwise fun p q => p.le q = true := by
    refine pairwise_of_forall_mem_list fun p hp q hq => ?_
    obtain ⟨hp, hpi⟩ := mem_filter.mp hp
    obtain ⟨hq, hqi⟩ := mem_filter.mp hq
    have hstart : p.span.start = q.span.start := (beq_iff_eq.mp hpi).trans (beq_iff_eq.mp hqi).symm
    have hspan := (hapart p hp q hq).span_eq (hfits p hp) (hfits q hq) hstart
    rw [le, hspan, beq_self_eq_true, decide_eq_true (Int.le_refl _), Bool.and_self, Bool.or_true]
  have hsublist := sublist_mergeSort le_trans le_total hordered
    filter_sublist
  have hfilter := hsublist.filter fun p => p.span.start == (i : Int)
  rw [filter_filter] at hfilter
  simp only [Bool.and_self] at hfilter
  have hlength := ((mergeSort_perm ps le).filter fun p => p.span.start == (i : Int)).length_eq
  rw [textsAt, textsAt, hfilter.eq_of_length hlength.symm]

theorem apply_eq_replaced (hfits : ∀ p ∈ ps, p.Fits s) (hapart : ∀ p ∈ ps, ∀ q ∈ ps, p.Apart q) :
    apply s ps = replaced s ps := by
  have hmem {p : Patch} : p ∈ ps.mergeSort le → p ∈ ps := mem_mergeSort.mp
  have hsorted := pairwise_mergeSort le_trans le_total ps
  have hfirst : (ps.mergeSort le).filter (fun q => q.span.start < ((0 : Nat) : Int)) = [] := by
    refine filter_eq_nil_iff.mpr fun q hq => ?_
    have := (hfits q (hmem hq)).nonneg
    simp only [decide_eq_true_eq]
    omega
  have hat (x : Char × Nat) : replacedAt (ps.mergeSort le) x = replacedAt ps x := by
    have hcovers : covers (ps.mergeSort le) x.2 = covers ps x.2 := (mergeSort_perm ps le).any_eq
    rw [replacedAt, replacedAt, textsAt_mergeSort hfits hapart, hcovers]
  have hrun := applyFrom_eq (k := 0) (fun q hq => hfits q (hmem hq)) (hsorted.imp start_le_of_le)
    (fun p hp q hq => hapart p (hmem hp) q (hmem hq)) (Nat.zero_le _)
    (fun q hq => .inl (hfits q (hmem hq)).nonneg)
  rw [hfirst] at hrun
  exact hrun.trans (flatMap_congr fun x _ => hat x)

/-! ## Ranges that are replaced once -/

/-- Each range of a patch is replaced by the text of one of the patches for it. -/
def ReplacedOnce (s : List Char) (ps : List Patch) (t : List Char) : Prop :=
  ∃ once, once.Sublist ps ∧ (once.map Patch.span).Nodup ∧
    (∀ p ∈ ps, p.span ∈ once.map Patch.span) ∧ t = replaced s once

theorem covers_congr (h : ∀ sp, sp ∈ ps.map Patch.span ↔ sp ∈ qs.map Patch.span) (i : Nat) :
    covers ps i = covers qs i := by
  have hspans (l : List Patch) : covers l i = true ↔
      ∃ sp ∈ l.map Patch.span, sp.start ≤ (i : Int) ∧ (i : Int) < sp.stop := by
    simp only [covers, any_eq_true, Bool.and_eq_true, decide_eq_true_eq, mem_map,
      exists_exists_and_eq_and]
  rw [Bool.eq_iff_iff, hspans, hspans]
  simp only [h]

/-- The length of the new texts together. -/
def totalLength (ps : List Patch) : Nat := (ps.flatMap fun p => p.text.toList).length

theorem totalLength_cons (p : Patch) (ps : List Patch) :
    totalLength (p :: ps) = p.text.toList.length + totalLength ps := length_append

theorem sum_length_textsAt (hfits : ∀ p ∈ ps, p.Fits s) :
    ∑ i ∈ Finset.range s.length, (textsAt ps i).length = totalLength ps := by
  induction ps with
  | nil => exact Finset.sum_eq_zero fun _ _ => rfl
  | cons p ps ih =>
    have hp := hfits p mem_cons_self
    obtain ⟨a, ha⟩ := Int.eq_ofNat_of_zero_le hp.nonneg
    have hlt : a < s.length := by
      have := hp.lt
      have := hp.le_length
      omega
    have hat (i : Nat) : (textsAt (p :: ps) i).length =
        (if a = i then p.text.toList.length else 0) + (textsAt ps i).length := by
      have hstart : (p.span.start == (i : Int)) = decide (a = i) := by
        rw [Bool.eq_iff_iff, beq_iff_eq, decide_eq_true_eq]
        omega
      rw [textsAt, filter_cons, hstart]
      by_cases h : a = i
      · rw [if_pos h, if_pos (decide_eq_true h), flatMap_cons, length_append]
        rfl
      · rw [if_neg h, if_neg (by simpa using h), Nat.zero_add]
        rfl
    rw [Finset.sum_congr rfl fun i _ => hat i, Finset.sum_add_distrib, Finset.sum_ite_eq,
      if_pos (Finset.mem_range.mpr hlt), ih fun q hq => hfits q (mem_cons_of_mem p hq),
      totalLength_cons]

theorem length_flatMap_zipIdx (f : Char × Nat → List Char) (w : Nat → Nat) (s : List Char) (k : Nat)
    (h : ∀ c i, (f (c, i)).length = w i) :
    ((s.zipIdx k).flatMap f).length = ∑ i ∈ Finset.range s.length, w (k + i) := by
  induction s generalizing k with
  | nil => rfl
  | cons c s ih =>
    rw [zipIdx_cons, flatMap_cons, length_append, h, ih, length_cons,
      Finset.sum_range_succ', Nat.add_comm, Nat.add_zero]
    congr 1
    exact Finset.sum_congr rfl fun i _ => by rw [Nat.add_right_comm, Nat.add_assoc]

theorem length_replaced (hfits : ∀ p ∈ ps, p.Fits s) : (replaced s ps).length =
      totalLength ps + ∑ i ∈ Finset.range s.length, if covers ps i then 0 else 1 := by
  rw [← sum_length_textsAt hfits, ← Finset.sum_add_distrib]
  refine (length_flatMap_zipIdx _ (fun i => (textsAt ps i).length + if covers ps i then 0 else 1)
    s 0 fun c i => ?_).trans (Finset.sum_congr rfl fun i _ => by rw [Nat.zero_add])
  rw [replacedAt, length_append]
  split <;> rfl

theorem eq_of_sublist_of_totalLength_le (h : qs.Sublist ps) (hne : ∀ p ∈ ps, p.text.toList ≠ [])
    (hle : totalLength ps ≤ totalLength qs) : qs = ps := by
  have hmono {ps qs : List Patch} (h : qs.Sublist ps) : totalLength qs ≤ totalLength ps := by
    induction h with
    | slnil => exact Nat.le_refl _
    | cons p _ ih =>
      rw [totalLength_cons]
      exact Nat.le_trans ih (Nat.le_add_left _ _)
    | cons_cons p _ ih =>
      rw [totalLength_cons, totalLength_cons]
      exact Nat.add_le_add_left ih _
  induction h with
  | slnil => rfl
  | @cons qs ps p h ih =>
    have hp := length_pos_iff.mpr (hne p mem_cons_self)
    have := hmono h
    rw [totalLength_cons] at hle
    omega
  | @cons_cons qs ps p h ih =>
    rw [totalLength_cons, totalLength_cons] at hle
    rw [ih (fun q hq => hne q (mem_cons_of_mem p hq)) (by omega)]

theorem replacedOnce_replaced_iff (hfits : ∀ p ∈ ps, p.Fits s)
    (hne : ∀ p ∈ ps, p.text.toList ≠ []) :
    ReplacedOnce s ps (replaced s ps) ↔ (ps.map Patch.span).Nodup := by
  constructor
  · rintro ⟨once, hsublist, hnodup, hall, heq⟩
    have hcovers (i : Nat) : covers once i = covers ps i :=
      covers_congr (fun sp => ⟨fun h => (hsublist.map _).subset h, fun h => by
        obtain ⟨p, hp, rfl⟩ := mem_map.mp h
        exact hall p hp⟩) i
    have hlength := congrArg List.length heq
    rw [length_replaced hfits, length_replaced fun p hp => hfits p (hsublist.subset hp)] at hlength
    simp only [hcovers] at hlength
    rwa [eq_of_sublist_of_totalLength_le hsublist hne (by omega)] at hnodup
  · exact fun hnodup => ⟨ps, List.Sublist.refl ps, hnodup, fun p hp => mem_map_of_mem hp, rfl⟩

/-! ## Ranges that do not meet -/

/-- The patches as they stand, and as registered: reading the patched text leaves them sorted. -/
inductive Stand : List Patch → List Patch → Prop
  | empty : Stand [] []
  | register {now made : List Patch} (p : Patch) (h : Stand now made) :
    Stand (now ++ [p]) (made ++ [p])
  | read {now made : List Patch} (h : Stand now made) : Stand (now.mergeSort le) made

theorem Stand.perm (h : Stand qs ps) : qs.Perm ps := by
  induction h with
  | empty => exact .refl []
  | register p _ ih => exact ih.append_right [p]
  | read _ ih => exact (mergeSort_perm _ _).trans ih

/-- The ranges of the patches do not meet. -/
def Disjoint (p q : Patch) : Prop := p.span.stop ≤ q.span.start ∨ q.span.stop ≤ p.span.start

theorem textsAt_perm (hfits : ∀ p ∈ ps, p.Fits s) (hdisjoint : ps.Pairwise Disjoint)
    (hperm : qs.Perm ps) (i : Nat) : textsAt qs i = textsAt ps i := by
  have hfilter := hperm.filter fun p => p.span.start == (i : Int)
  have hpairs := hdisjoint.filter fun p => p.span.start == (i : Int)
  have hmem : ∀ p ∈ ps.filter (fun p => p.span.start == (i : Int)),
      p.span.start = i ∧ p.span.start < p.span.stop := fun p hp =>
    ⟨beq_iff_eq.mp (mem_filter.mp hp).2, (hfits p (mem_filter.mp hp).1).lt⟩
  rw [textsAt, textsAt]
  rcases hstarts : ps.filter fun p => p.span.start == (i : Int) with - | ⟨p, - | ⟨q, rest⟩⟩
  · rw [hstarts] at hfilter ⊢
    rw [hfilter.eq_nil]
  · rw [hstarts] at hfilter ⊢
    rw [perm_singleton.mp hfilter]
  · rw [hstarts] at hpairs hmem
    have hpq := (pairwise_cons.mp hpairs).1 q mem_cons_self
    have hp := hmem p mem_cons_self
    have hq := hmem q (mem_cons_of_mem p mem_cons_self)
    rcases hpq with h | h <;> omega

/-- Patches whose ranges do not meet replace each range by its text and keep everything else, in
whatever order they are registered and however often the text is read meanwhile. -/
theorem apply_eq_replaced_of_disjoint {rs : List Patch} (hfits : ∀ p ∈ ps, p.Fits s)
    (hdisjoint : ps.Pairwise Disjoint) (hperm : rs.Perm ps) (hstand : Stand qs rs) :
    apply s qs = replaced s ps := by
  have hperm := hstand.perm.trans hperm
  have hsymm : Std.Symm Apart := ⟨fun _ _ h => h.imp Eq.symm Or.symm⟩
  have hapart {p q : Patch} (hp : p ∈ ps) (hq : q ∈ ps) : p.Apart q :=
    (hdisjoint.imp (S := Apart) Or.inr).forall_of_forall (fun _ _ => .inl rfl) hp hq
  have hmem {p : Patch} : p ∈ qs → p ∈ ps := hperm.mem_iff.mp
  rw [apply_eq_replaced (fun p hp => hfits p (hmem hp)) fun p hp q hq => hapart (hmem hp) (hmem hq)]
  refine flatMap_congr fun x _ => ?_
  rw [replacedAt, replacedAt, textsAt_perm hfits hdisjoint hperm, covers, covers, hperm.any_eq]

/-- Ranges side by side and at both ends of a text, registered from the back. -/
theorem apply_eq_replaced_of_disjoint_ends :
    apply "abcdef".toList ([⟨⟨4, 6⟩, "x"⟩].mergeSort le ++ [⟨⟨1, 3⟩, ""⟩] ++ [⟨⟨0, 1⟩, "yyy"⟩]) =
      "yyydx".toList := by
  refine Eq.trans (b := replaced _ [⟨⟨0, 1⟩, "yyy"⟩, ⟨⟨1, 3⟩, ""⟩, ⟨⟨4, 6⟩, "x"⟩])
    (apply_eq_replaced_of_disjoint ?_ ?_ ?_
      (((Stand.empty.register ⟨⟨4, 6⟩, "x"⟩).read.register _).register _)) (by decide)
  · simp only [forall_mem_cons]
    exact ⟨⟨by decide, by decide, by decide⟩, ⟨by decide, by decide, by decide⟩,
      ⟨by decide, by decide, by decide⟩, fun _ h => absurd h not_mem_nil⟩
  · unfold Disjoint
    simp
  · decide

end CBoundary.Patch
