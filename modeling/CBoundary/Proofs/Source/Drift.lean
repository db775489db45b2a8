import CBoundary.Proofs.Macro.Halting
import CBoundary.Proofs.Source.Lookup

/-!
# Where offsets are mapped back

Behind the first character of an expanded text, an offset outside the replacements is mapped back to
the very position from which its character was copied.  The growth of a replacement counts from its
start on, which leads in front of the call wherever the replacement has grown.
-/

namespace CBoundary.Macro

open List

variable {s out : List Char} {points : List InsertPoint}

/-! ## What origins tell -/

/-- A copied character is the one at its origin, which is its offset less the growth before it, and
lies in no replacement; one without an origin lies in a replacement. -/
structure Sourced (a : Nat) (b : Int) (s out : List Char) (points : List InsertPoint)
    (origins : List (Option Nat)) : Prop where
  length_eq : origins.length = out.length
  behind : ∀ i ∈ points, b ≤ i.new.start
  copied : ∀ p q : Nat, origins[p]? = some (some q) → (∃ r : Nat, q = a + r ∧ s[r]? = out[p]?) ∧
      (∀ i ∈ points, i.new.start ≤ b + p → i.new.stop ≤ b + p) ∧
      (q : Int) = a + p - growthBefore points (b + p + 1)
  replaced : ∀ p : Nat, origins[p]? = some none →
    ∃ i ∈ points, i.new.start ≤ b + p ∧ b + p < i.new.stop

namespace Sourced

variable {a : Nat} {b : Int} {s out : List Char} {points : List InsertPoint}
  {origins : List (Option Nat)}

theorem nil (a : Nat) (b : Int) : Sourced a b [] [] [] [] where
  length_eq := rfl
  behind := by simp
  copied := by simp
  replaced := by simp

theorem copy (front : List Char)
    (h : Sourced (a + front.length) (b + front.length) s out points origins) :
    Sourced a b (front ++ s) (front ++ out) points
      ((List.range' a front.length).map some ++ origins) where
  length_eq := by simp [h.length_eq]
  behind i hi := by have := h.behind i hi; omega
  copied p q hq := by
    by_cases hp : p < front.length
    · rw [getElem?_append_left (by simpa using hp), getElem?_map,
        getElem?_range' hp] at hq
      obtain rfl : a + p = q := by simpa using hq
      refine ⟨⟨p, rfl, by rw [getElem?_append_left hp, getElem?_append_left hp]⟩,
        fun i hi hstart => ?_, ?_⟩
      · have := h.behind i hi
        omega
      · rw [growthBefore_of_le fun i hi => by have := h.behind i hi; omega]
        omega
    · have hle : front.length ≤ p := Nat.le_of_not_lt hp
      rw [getElem?_append_right (by simpa using hle), length_map,
        length_range'] at hq
      obtain ⟨⟨r, hr, hsame⟩, houtside, hgrown⟩ := h.copied _ q hq
      have hshift : b + (front.length : Int) + (p - front.length : Nat) = b + p := by omega
      rw [hshift] at houtside hgrown
      refine ⟨⟨front.length + r, by omega, ?_⟩, houtside, by omega⟩
      rw [getElem?_append_right (Nat.le_add_right _ _), Nat.add_sub_cancel_left, hsame,
        getElem?_append_right hle]
  replaced p hp := by
    by_cases hlt : p < front.length
    · rw [getElem?_append_left (by simpa using hlt), getElem?_map,
        getElem?_range' hlt] at hp
      simp at hp
    · have hle : front.length ≤ p := Nat.le_of_not_lt hlt
      rw [getElem?_append_right (by simpa using hle), length_map,
        length_range'] at hp
      obtain ⟨i, hi, hstart, hstop⟩ := h.replaced _ hp
      exact ⟨i, hi, by omega, by omega⟩

theorem replace (piece here : List Char)
    (h : Sourced (a + piece.length) (b + here.length) s out points origins) :
    Sourced a b (piece ++ s) (here ++ out)
      (⟨⟨a, a + piece.length⟩, ⟨b, b + here.length⟩, here.length - piece.length⟩ :: points)
      (List.replicate here.length none ++ origins) where
  length_eq := by simp [h.length_eq]
  behind i hi := by
    rcases mem_cons.mp hi with rfl | hi
    · exact Int.le_refl b
    · have := h.behind i hi
      omega
  copied p q hq := by
    by_cases hp : p < here.length
    · rw [getElem?_append_left (by simpa using hp), getElem?_replicate_of_lt hp] at hq
      simp at hq
    · have hle : here.length ≤ p := Nat.le_of_not_lt hp
      rw [getElem?_append_right (by simpa using hle), length_replicate] at hq
      obtain ⟨⟨r, hr, hsame⟩, houtside, hgrown⟩ := h.copied _ q hq
      have hshift : b + (here.length : Int) + (p - here.length : Nat) = b + p := by omega
      rw [hshift] at houtside hgrown
      refine ⟨⟨piece.length + r, by omega, ?_⟩, fun i hi hstart => ?_, ?_⟩
      · rw [getElem?_append_right (Nat.le_add_right _ _), Nat.add_sub_cancel_left, hsame,
          getElem?_append_right hle]
      · rcases mem_cons.mp hi with rfl | hi
        · dsimp only
          omega
        · exact houtside i hi hstart
      · rw [growthBefore_cons_of_lt _ (by dsimp only; omega)]
        dsimp only
        omega
  replaced p hp := by
    by_cases hlt : p < here.length
    · exact ⟨_, mem_cons_self, by dsimp only; omega, by dsimp only; omega⟩
    · have hle : here.length ≤ p := Nat.le_of_not_lt hlt
      rw [getElem?_append_right (by simpa using hle), length_replicate] at hp
      obtain ⟨i, hi, hstart, hstop⟩ := h.replaced _ hp
      exact ⟨i, mem_cons_of_mem _ hi, by omega, by omega⟩

end Sourced

theorem Spliced.sourced {a : Nat} {b : Int} {origins : List (Option Nat)}
    (h : Spliced a b s out points origins) : Sourced a b s out points origins := by
  induction h with
  | nil a b => exact .nil a b
  | copy front _ ih => exact ih.copy front
  | replace piece here _ _ ih => exact ih.replace piece here

theorem Woven.inOrder {a b : Int} (h : Woven a b s out points) (hb : 0 ≤ b) :
    SourceFile.InOrder points := by
  refine ⟨fun p hp => Int.le_trans hb (h.within p hp).new_le, ?_⟩
  exact h.pairwise.imp_of_mem fun hp _ hle => Int.le_trans (h.within _ hp).new_ordered hle.2

/-- **An offset outside the replacements is mapped back to where its character was copied from.**
For every text and every table of macros: so it is for an offset that is not the first, in no
replacement and at no empty one. -/
theorem origOffset_eq_origin (macros : Table MacroDecl) (expandConst : Bool)
    (place : Int → Place) (s : List Char) (f : SourceFile) (p : Nat) (hp : 1 ≤ p)
    (hlt : p < (expand macros expandConst place s).text.length)
    (houtside : ∀ i ∈ (expand macros expandConst place s).inserts,
      ¬ (i.new.start ≤ p ∧ p < i.new.stop))
    (hempty : ∀ i ∈ (expand macros expandConst place s).inserts,
      ¬ (i.new.start = p ∧ i.new.stop = p)) :
    ∃ q : Nat, (origins macros expandConst place s)[p]? = some (some q) ∧
      s[q]? = (expand macros expandConst place s).text[p]? ∧
      (f.setInserts (expand macros expandConst place s).inserts).origOffset p = q := by
  have hsourced := (spliced_expand macros expandConst place s).sourced
  have hwoven := woven_expand macros expandConst place s
  generalize expand macros expandConst place s = out at *
  rw [← hsourced.length_eq] at hlt
  obtain ⟨origin, horigin⟩ : ∃ origin, (origins macros expandConst place s)[p]? = some origin :=
    ⟨_, getElem?_eq_getElem hlt⟩
  cases origin with
  | none =>
    obtain ⟨i, hi, hstart, hstop⟩ := hsourced.replaced p horigin
    rw [Int.zero_add] at hstart hstop
    exact absurd ⟨hstart, hstop⟩ (houtside i hi)
  | some q =>
    obtain ⟨⟨r, hr, hsame⟩, hcopied, hgrown⟩ := hsourced.copied p q horigin
    rw [Int.zero_add] at hcopied hgrown
    -- A replacement that starts here would have to be empty.
    have hnone : ∀ i ∈ out.inserts, i.new.start ≠ p := by
      intro i hi hstart
      have hordered := (hwoven.within i hi).new_ordered
      have hstop := hcopied i hi (Int.le_of_eq hstart)
      exact hempty i hi ⟨hstart, by omega⟩
    refine ⟨q, horigin, ?_, ?_⟩
    · rwa [hr, Nat.zero_add]
    · rw [(hwoven.inOrder (Int.le_refl 0)).origOffset_of_pos f (by omega), hgrown,
        growthBefore_succ, growthAt_of_ne hnone]
      omega

/-- A macro that grows and one that vanishes. -/
def sampleMacros : Table MacroDecl :=
  ⟨[("AA", { name := ⟨0, ⟨0, 2⟩, "AA", none⟩, body := some ⟨0, ⟨0, 3⟩, "1+2", none⟩ }),
    ("EE", { name := ⟨0, ⟨0, 2⟩, "EE", none⟩ })]⟩

theorem expand_sample : (expand sampleMacros true (fun _ => .unknown) "AA EE y".toList).inserts =
        [⟨⟨0, 2⟩, ⟨0, 3⟩, 1⟩, ⟨⟨3, 5⟩, ⟨4, 4⟩, -2⟩] ∧
      (expand sampleMacros true (fun _ => .unknown) "AA EE y".toList).text = "1+2  y".toList := by
  have hrun : ((Machine.run (Expander.make sampleMacros true fun _ => .unknown) 11
      (.start "AA EE y".toList)).bind Machine.outcome?).map (fun out => (out.inserts, out.text)) =
        some ([⟨⟨0, 2⟩, ⟨0, 3⟩, 1⟩, ⟨⟨3, 5⟩, ⟨4, 4⟩, -2⟩], "1+2  y".toList) := by
    decide +kernel
  obtain ⟨out, hout, heq⟩ := Option.map_eq_some_iff.mp hrun
  rw [Machine.expand_eq_of_run hout]
  exact Prod.mk.inj heq

theorem origOffset_eq_origin_sample :
    (∀ i ∈ (expand sampleMacros true (fun _ => .unknown) "AA EE y".toList).inserts,
      ¬ (i.new.start ≤ (5 : Nat) ∧ (5 : Nat) < i.new.stop) ∧
      ¬ (i.new.start = (5 : Nat) ∧ i.new.stop = (5 : Nat))) ∧
    ∃ q : Nat, (origins sampleMacros true (fun _ => .unknown) "AA EE y".toList)[5]? = some (some q) ∧
      "AA EE y".toList[q]? = "1+2  y".toList[5]? ∧
      (SourceFile.blank.setInserts
        (expand sampleMacros true (fun _ => .unknown) "AA EE y".toList).inserts).origOffset (5 : Nat) =
        q := by
  have haway : ∀ i ∈ (expand sampleMacros true (fun _ => .unknown) "AA EE y".toList).inserts,
      ¬ (i.new.start ≤ (5 : Nat) ∧ (5 : Nat) < i.new.stop) ∧
      ¬ (i.new.start = (5 : Nat) ∧ i.new.stop = (5 : Nat)) := by
    rw [expand_sample.1]
    decide
  have hlength : 5 < (expand sampleMacros true (fun _ => .unknown) "AA EE y".toList).text.length := by
    rw [expand_sample.2]
    decide
  have hcopied := origOffset_eq_origin sampleMacros true (fun _ => .unknown) "AA EE y".toList
    SourceFile.blank 5 (by decide) hlength (fun i hi => (haway i hi).1) (fun i hi => (haway i hi).2)
  rw [expand_sample.2] at hcopied
  exact ⟨haway, hcopied⟩

end CBoundary.Macro

namespace CBoundary

open List

namespace Macro

variable {a b x : Int}

/-! ## Offsets less the growth before them -/

/-- An offset in the second of two woven texts, mapped back by the growth before it. -/
def back (a b : Int) (points : List InsertPoint) (x : Int) : Int :=
  x - (b - a) - growthBefore points x

theorem back_of_le {points : List InsertPoint} (h : ∀ p ∈ points, x ≤ p.new.start) :
    back a b points x = x - (b - a) := by
  rw [back, growthBefore_of_le h]
  omega

theorem back_point {gap piece here : List Char} (points : List InsertPoint)
    (h : b + gap.length < x) :
    back a b (⟨⟨a + gap.length, a + gap.length + piece.length⟩,
      ⟨b + gap.length, b + gap.length + here.length⟩, here.length - piece.length⟩ :: points) x =
    back (a + gap.length + piece.length) (b + gap.length + here.length) points x := by
  unfold back
  rw [growthBefore_cons_of_lt _ h]
  dsimp only
  omega

section

variable {a b : Int} {s out : List Char} {points : List InsertPoint}
variable {i : InsertPoint}

/-- Inside a replacement, offsets are mapped back counted from the end of the call. -/
theorem Woven.back_inside (h : Woven a b s out points) (hi : i ∈ points) {x : Int}
    (hstart : i.new.start < x) (hstop : x ≤ i.new.stop) :
    back a b points x = i.orig.stop - (i.new.stop - x) := by
  induction h with
  | rest => exact absurd hi not_mem_nil
  | @point a b s out points gap piece here hpiece hrest ih =>
    have hbehind : ∀ p ∈ points, b + gap.length + here.length ≤ p.new.start :=
      fun p hp => (hrest.within p hp).new_le
    rcases mem_cons.mp hi with rfl | hi
    · dsimp only at hstart hstop ⊢
      rw [back_point _ hstart, back_of_le fun p hp => Int.le_trans hstop (hbehind p hp)]
      omega
    · have := hbehind i hi
      rw [back_point _ (by omega)]
      exact ih hi

theorem Woven.back_cases (h : Woven a b s out points) {x : Int} (hb : b ≤ x)
    (hx : x ≤ b + out.length) :
    (∃ i ∈ points, i.new.start < x ∧ x ≤ i.new.stop) ∨
      (a ≤ back a b points x ∧ back a b points x ≤ a + s.length) := by
  induction h with
  | rest a b s =>
    right
    rw [back_of_le (by simp)]
    omega
  | @point a b s out points gap piece here hpiece hrest ih =>
    simp only [length_append] at hx ⊢
    by_cases hgap : x ≤ b + gap.length
    · right
      rw [back_of_le fun p hp => ?_]
      · omega
      · rcases mem_cons.mp hp with rfl | hp
        · exact hgap
        · have := (hrest.within p hp).new_le
          omega
    · by_cases hhere : x ≤ b + gap.length + here.length
      · exact .inl ⟨_, mem_cons_self, by dsimp only; omega, hhere⟩
      · rw [back_point _ (by omega)]
        rcases ih (by omega) (by omega) with ⟨i, hi, hinside⟩ | hinside
        · exact .inl ⟨i, mem_cons_of_mem _ hi, hinside⟩
        · right
          omega

/-- The start of a nonempty replacement is mapped back to that of its call, or before it. -/
theorem Woven.back_start (h : Woven a b s out points) (hi : i ∈ points)
    (hne : i.new.start < i.new.stop) :
    ((∀ j ∈ points, j.new.start = i.new.start → j = i) ∧
        back a b points i.new.start = i.orig.start) ∨
      ((∃ j ∈ points, j.new.start = i.new.start ∧ j ≠ i) ∧
        back a b points i.new.start < i.orig.start) := by
  induction h with
  | rest => exact absurd hi not_mem_nil
  | @point a b s out points gap piece here hpiece hrest ih =>
    have hpos : 0 < piece.length := length_pos_iff.mpr hpiece
    have hbehind : ∀ p ∈ points, b + gap.length + here.length ≤ p.new.start :=
      fun p hp => (hrest.within p hp).new_le
    rcases mem_cons.mp hi with rfl | hi
    · left
      dsimp only at hne ⊢
      refine ⟨fun j hj hstart => ?_, ?_⟩
      · rcases mem_cons.mp hj with rfl | hj
        · rfl
        · have := hbehind j hj
          omega
      · rw [back_of_le fun p hp => ?_]
        · omega
        · rcases mem_cons.mp hp with rfl | hp
          · exact Int.le_refl _
          · have := hbehind p hp
            omega
    · have hstart := hbehind i hi
      have horig := (hrest.within i hi).orig_le
      by_cases hsame : b + gap.length = i.new.start
      · -- Nothing of the first replacement is left, and the second starts where it stands.
        right
        refine ⟨⟨_, mem_cons_self, hsame, ?_⟩, ?_⟩
        · rintro rfl
          dsimp only at horig
          omega
        · rw [back_of_le fun p hp => ?_]
          · omega
          · rcases mem_cons.mp hp with rfl | hp
            · exact Int.le_of_eq hsame.symm
            · have := hbehind p hp
              omega
      · rw [back_point _ (by omega)]
        rcases ih hi with ⟨honly, hback⟩ | ⟨⟨j, hj, hother⟩, hback⟩
        · refine .inl ⟨fun j hj hj' => ?_, hback⟩
          rcases mem_cons.mp hj with rfl | hj
          · exact absurd hj' hsame
          · exact honly j hj hj'
        · exact .inr ⟨⟨j, mem_cons_of_mem _ hj, hother⟩, hback⟩

end

/-! ## Texts and their expansions -/

section

variable {s out : List Char} {points : List InsertPoint}

theorem Woven.growth_eq {a b : Int} (h : Woven a b s out points) :
    growth points = (out.length : Int) - s.length := by
  have := h.length_eq
  unfold growth
  omega

variable (h : Woven 0 0 s out points) (f : SourceFile)

include h

/-- The first offset of a text is mapped back by the growth of the whole text. -/
theorem Woven.origOffset_zero :
    (f.setInserts points).origOffset 0 = (s.length : Int) - out.length := by
  rw [(h.inOrder (Int.le_refl 0)).origOffset_of_nonpos f (Int.le_refl 0), h.growth_eq]
  omega

theorem Woven.origOffset_eq_back {x : Int} (hx : 0 < x) :
    (f.setInserts points).origOffset x = back 0 0 points x := by
  rw [(h.inOrder (Int.le_refl 0)).origOffset_of_pos f hx, back, Int.sub_zero, Int.sub_zero]

/-- Offsets in a text of one length are mapped back into a text of another. -/
def StaysWithin (f : SourceFile) (original expanded : Nat) : Prop :=
  ∀ x : Int, 0 ≤ x → x ≤ expanded → 0 ≤ f.origOffset x ∧ f.origOffset x ≤ original

/-- Offsets in a text of some length are mapped back in their order. -/
def KeepsOrder (f : SourceFile) (expanded : Nat) : Prop :=
  ∀ x y : Int, 0 ≤ x → x ≤ y → y ≤ expanded → f.origOffset x ≤ f.origOffset y

/-- Offsets inside replacements are mapped back into the calls that were replaced. -/
def HitsCalls (f : SourceFile) (points : List InsertPoint) : Prop :=
  ∀ i ∈ points, ∀ x : Int, i.new.start ≤ x → x < i.new.stop →
    i.orig.start ≤ f.origOffset x ∧ f.origOffset x < i.orig.stop

/-- Offsets stay within the text exactly if that has not grown as a whole, and no replacement by
more characters than stand in front of its call, one apart. -/
theorem Woven.staysWithin_iff : StaysWithin (f.setInserts points) s.length out.length ↔
      out.length ≤ s.length ∧ ∀ i ∈ points, i.delta ≤ i.orig.start + 1 := by
  constructor
  · intro hwithin
    refine ⟨?_, fun i hi => ?_⟩
    · have hzero := (hwithin 0 (Int.le_refl 0) (by omega)).1
      rw [h.origOffset_zero f] at hzero
      omega
    · obtain ⟨horig, hpiece, hend, hnew, hordered, hstop, hdelta⟩ := h.within i hi
      by_cases hne : i.new.start < i.new.stop
      · have hfirst := (hwithin (i.new.start + 1) (by omega) (by omega)).1
        rw [h.origOffset_eq_back f (by omega), h.back_inside hi (by omega) (by omega)] at hfirst
        omega
      · omega
  · rintro ⟨hlength, hdeltas⟩ x hx hlast
    rcases Int.lt_or_eq_of_le hx with hpos | rfl
    · rw [h.origOffset_eq_back f hpos]
      rcases h.back_cases hx (by omega) with ⟨i, hi, hstart, hstop⟩ | hinside
      · have := hdeltas i hi
        obtain ⟨horig, hpiece, hend, hnew, hordered, hstop', hdelta⟩ := h.within i hi
        rw [h.back_inside hi hstart hstop]
        omega
      · omega
    · rw [h.origOffset_zero f]
      omega

theorem Woven.origOffset_succ {x : Int} (hx : 0 < x) : (f.setInserts points).origOffset (x + 1) =
      (f.setInserts points).origOffset x + 1 - growthAt points x := by
  rw [h.origOffset_eq_back f hx, h.origOffset_eq_back f (by omega), back, back, growthBefore_succ]
  omega

/-- Offsets keep their order exactly if the replacements at one offset never make the text grow by
more than one together, and those behind the start shrink it by no more than one. -/
theorem Woven.keepsOrder_iff : KeepsOrder (f.setInserts points) out.length ↔
      (0 < out.length → (s.length : Int) - out.length ≤ 1 - growthAt points 0) ∧
        ∀ i ∈ points, 0 < i.new.start → growthAt points i.new.start ≤ 1 := by
  have hone : (f.setInserts points).origOffset 1 = 1 - growthAt points 0 := by
    have hnone : growthBefore points 0 = 0 := growthBefore_of_le fun p hp => (h.within p hp).new_le
    rw [h.origOffset_eq_back f (by omega), back, ← Int.zero_add 1, growthBefore_succ, hnone]
    omega
  constructor
  · intro horder
    refine ⟨fun hpos => ?_, fun i hi hstart => ?_⟩
    · have := horder 0 1 (Int.le_refl 0) (by omega) (by omega)
      rwa [h.origOffset_zero f, hone] at this
    · obtain ⟨-, -, -, -, hordered, hstop, -⟩ := h.within i hi
      by_cases hlast : i.new.start < out.length
      · have := horder i.new.start (i.new.start + 1) (by omega) (by omega) (by omega)
        rw [h.origOffset_succ f hstart] at this
        omega
      · -- At the end of the text all replacements are empty.
        have hnonpos : growthAt points i.new.start ≤ 0 := by
          refine growth_nonpos fun p hp => ?_
          obtain ⟨hp, hsame⟩ := mem_filter.mp hp
          obtain ⟨-, hpiece, -, -, -, hstop', hdelta⟩ := h.within p hp
          simp only [decide_eq_true_eq] at hsame
          omega
        omega
  · rintro ⟨hfirst, hgrowths⟩
    have hstep : ∀ x : Int, 0 < x →
        (f.setInserts points).origOffset x ≤ (f.setInserts points).origOffset (x + 1) := by
      intro x hx
      have hgrowth : growthAt points x ≤ 1 := by
        by_cases hstarts : ∃ i ∈ points, i.new.start = x
        · obtain ⟨i, hi, rfl⟩ := hstarts
          exact hgrowths i hi hx
        · rw [growthAt_of_ne fun p hp heq => hstarts ⟨p, hp, heq⟩]
          omega
      rw [h.origOffset_succ f hx]
      omega
    have hsteps : ∀ (x : Int) (n : Nat), 0 < x →
        (f.setInserts points).origOffset x ≤ (f.setInserts points).origOffset (x + n) := by
      intro x n hx
      induction n with
      | zero => simp
      | succ n ih =>
        rw [Int.natCast_succ, ← Int.add_assoc]
        exact Int.le_trans ih (hstep (x + n) (by omega))
    intro x y hx hxy hy
    obtain ⟨n, rfl⟩ := Int.le.dest hxy
    rcases Int.lt_or_eq_of_le hx with hpos | rfl
    · exact hsteps x n hpos
    · cases n with
      | zero => exact Int.le_refl _
      | succ n =>
        have hfirst' := hfirst (by omega)
        rw [← hone, ← h.origOffset_zero f] at hfirst'
        refine Int.le_trans hfirst' ?_
        rw [Int.natCast_succ, Int.zero_add, Int.add_comm]
        exact hsteps 1 n (by omega)

/-- Offsets inside replacements hit their calls exactly if no replacement has grown by more than
one, no empty one stands where another starts, and the whole growth leads from a replacement at the
start into its call. -/
theorem Woven.hitsCalls_iff : HitsCalls (f.setInserts points) points ↔
      ∀ i ∈ points, i.new.start < i.new.stop → i.delta ≤ 1 ∧
        (0 < i.new.start → ∀ j ∈ points, j.new.start = i.new.start → j = i) ∧
        (i.new.start = 0 → i.orig.start ≤ (s.length : Int) - out.length ∧
          (s.length : Int) - out.length < i.orig.stop) := by
  constructor
  · intro hhits i hi hne
    obtain ⟨horig, hpiece, hend, hnew, hordered, hstop, hdelta⟩ := h.within i hi
    refine ⟨?_, fun hpos j hj hsame => ?_, fun hzero => ?_⟩
    · by_cases hlong : i.new.start + 1 < i.new.stop
      · have := (hhits i hi (i.new.start + 1) (by omega) hlong).1
        rw [h.origOffset_eq_back f (by omega), h.back_inside hi (by omega) (by omega)] at this
        omega
      · omega
    · have := (hhits i hi i.new.start (Int.le_refl _) hne).1
      rw [h.origOffset_eq_back f hpos] at this
      rcases h.back_start hi hne with ⟨honly, -⟩ | ⟨-, hback⟩
      · exact honly j hj hsame
      · omega
    · have := hhits i hi 0 (Int.le_of_eq hzero) (by omega)
      rwa [h.origOffset_zero f] at this
  · intro hcalls i hi x hstart hstop
    obtain ⟨hgrowth, honly, hzero⟩ := hcalls i hi (by omega)
    obtain ⟨horig, hpiece, hend, hnew, hordered, hstop', hdelta⟩ := h.within i hi
    by_cases hx : x = 0
    · subst hx
      rw [h.origOffset_zero f]
      exact hzero (by omega)
    · rw [h.origOffset_eq_back f (by omega)]
      rcases Int.lt_or_eq_of_le hstart with hlt | rfl
      · rw [h.back_inside hi hlt (by omega)]
        omega
      · rcases h.back_start hi (by omega) with ⟨-, hback⟩ | ⟨⟨j, hj, hsame, hother⟩, -⟩
        · omega
        · exact absurd (honly (by omega) j hj hsame) hother

end

/-- **Where offsets in an expanded text lead.** For every text and every table of macros, these are
the conditions under which all offsets are mapped back into the text, in their order, and into the
call where they lie inside a replacement. -/
theorem origOffset_faithful_iff (macros : Table MacroDecl) (expandConst : Bool)
    (place : Int → Place) (s : List Char) (f : SourceFile) :
    let out := expand macros expandConst place s
    let file := f.setInserts out.inserts
    (StaysWithin file s.length out.text.length ↔
      out.text.length ≤ s.length ∧ ∀ i ∈ out.inserts, i.delta ≤ i.orig.start + 1) ∧
    (KeepsOrder file out.text.length ↔ (0 < out.text.length →
        (s.length : Int) - out.text.length ≤ 1 - growthAt out.inserts 0) ∧
      ∀ i ∈ out.inserts, 0 < i.new.start → growthAt out.inserts i.new.start ≤ 1) ∧
    (HitsCalls file out.inserts ↔ ∀ i ∈ out.inserts, i.new.start < i.new.stop → i.delta ≤ 1 ∧
        (0 < i.new.start → ∀ j ∈ out.inserts, j.new.start = i.new.start → j = i) ∧
        (i.new.start = 0 → i.orig.start ≤ (s.length : Int) - out.text.length ∧
          (s.length : Int) - out.text.length < i.orig.stop)) := by
  intro out file
  have hwoven : Woven 0 0 s out.text out.inserts := woven_expand macros expandConst place s
  exact ⟨hwoven.staysWithin_iff f, hwoven.keepsOrder_iff f, hwoven.hitsCalls_iff f⟩

/-- A replacement of two characters by five leads the start of the text in front of it, and its own
second character in front of its call. -/
example : ((SourceFile.blank.setInserts [⟨⟨8, 10⟩, ⟨8, 13⟩, 3⟩]).origOffset 0,
    (SourceFile.blank.setInserts [⟨⟨8, 10⟩, ⟨8, 13⟩, 3⟩]).origOffset 9) = (-3, 6) := by
  decide +kernel

end Macro

end CBoundary
