import CBoundary.Proofs.Macro.Inserts
import Mathlib.Data.List.Basic

/-!
# Looking things up in a source file

A search by halving counts the elements below a value, wherever those stand in front of all others.
So it finds the expansions of a file that start inside a span, the growth of the text up to an
offset and the line of a position.  The columns of the file and of the text never agree.
-/

namespace CBoundary

open List

variable {points : List InsertPoint} {x : Int}

/-! ## Searches by halving -/

section

variable {α : Type} {below : α → Bool} {l : List α}
variable {a : Array α}

/-- The elements of a list that fulfil a condition stand in front of all others. -/
def Leads (below : α → Bool) (l : List α) : Prop :=
  l.Pairwise fun x y => below y = true → below x = true

theorem Leads.filter_append (h : Leads below l) :
    l.filter below ++ l.filter (fun x => !below x) = l := by
  induction l with
  | nil => rfl
  | cons a l ih =>
    obtain ⟨hfirst, hrest⟩ := pairwise_cons.mp h
    by_cases ha : below a = true
    · rw [filter_cons_of_pos ha, filter_cons_of_neg (by simp [ha]), cons_append,
        ih hrest]
    · have hnone : l.filter below = [] :=
        filter_eq_nil_iff.mpr fun x hx hbelow => ha (hfirst x hx hbelow)
      rw [filter_cons_of_neg ha, hnone, nil_append,
        filter_eq_self.mpr fun x hx => ?_]
      rcases mem_cons.mp hx with rfl | hx
      · simpa using ha
      · simpa using fun hbelow => ha (hfirst x hx hbelow)

theorem Leads.take_countP (h : Leads below l) : l.take (l.countP below) = l.filter below := by
  have htake := @take_left _ (l.filter below) (l.filter fun x => !below x)
  rwa [h.filter_append, ← countP_eq_length_filter] at htake

theorem Leads.drop_countP (h : Leads below l) :
    l.drop (l.countP below) = l.filter fun x => !below x := by
  have hdrop := @drop_left _ (l.filter below) (l.filter fun x => !below x)
  rwa [h.filter_append, ← countP_eq_length_filter] at hdrop

theorem Leads.takeWhile_eq (h : Leads below l) : l.takeWhile below = l.filter below := by
  have hrear : (l.filter fun x => !below x).takeWhile below = [] := by
    cases hl : l.filter fun x => !below x with
    | nil => rfl
    | cons a rest =>
      have ha := (mem_filter.mp (hl ▸ mem_cons_self : a ∈ l.filter fun x => !below x)).2
      exact takeWhile_cons_of_neg (by simpa using ha)
  have hfront : ∀ x ∈ l.filter below, below x = true := fun x hx => (mem_filter.mp hx).2
  rw [← h.filter_append, takeWhile_append_of_pos hfront, hrear, append_nil,
    h.filter_append]

theorem Leads.below_iff (h : Leads below l) {i : Nat} {x : α} (hx : l[i]? = some x) :
    below x = true ↔ i < l.countP below := by
  rw [← h.filter_append] at hx
  by_cases hi : i < (l.filter below).length
  · rw [getElem?_append_left hi] at hx
    rw [countP_eq_length_filter]
    exact ⟨fun _ => hi, fun _ => (mem_filter.mp (mem_of_getElem? hx)).2⟩
  · rw [getElem?_append_right (Nat.le_of_not_lt hi)] at hx
    have hnot := (mem_filter.mp (mem_of_getElem? hx)).2
    rw [countP_eq_length_filter]
    exact ⟨fun hbelow => by simp [hbelow] at hnot, fun hlt => absurd hlt hi⟩

theorem bisect_go_eq (h : Leads below a.toList) (lo hi : Nat) (hlo : lo ≤ a.toList.countP below)
    (hhi : a.toList.countP below ≤ hi) (hsize : hi ≤ a.size) :
    bisect.go a below lo hi = a.toList.countP below := by
  fun_induction bisect.go a below lo hi with
  | case1 lo hi hlt mid hbelow ih =>
    refine ih ?_ hhi hsize
    have hmid : mid < a.size := by omega
    rw [Array.getElem?_eq_getElem hmid, Option.any_some] at hbelow
    exact (h.below_iff (by simp [hmid])).mp hbelow
  | case2 lo hi hlt mid hbelow ih =>
    refine ih hlo ?_ (by omega)
    have hmid : mid < a.size := by omega
    rw [Array.getElem?_eq_getElem hmid, Option.any_some] at hbelow
    exact Nat.le_of_not_lt fun hlt => hbelow ((h.below_iff (by simp [hmid])).mpr hlt)
  | case3 lo hi hle => omega

theorem bisect_eq_countP (h : Leads below a.toList) : bisect a below = a.toList.countP below :=
  bisect_go_eq h 0 a.size (Nat.zero_le _) countP_le_length (Nat.le_refl _)

theorem leads_lt {key : α → Int} (h : l.Pairwise fun x y => key x ≤ key y) (bound : Int) :
    Leads (fun x => decide (key x < bound)) l :=
  h.imp fun hle hlt => by simp only [decide_eq_true_eq] at hlt ⊢; omega

end

/-! ## Expansions inside a span -/

/-- The expansion starts in the span. -/
def Expansions.StartsIn (span : Span) (e : Expansions) : Prop :=
  span.start ≤ e.point.new.start ∧ e.point.new.start < span.stop

instance (span : Span) (e : Expansions) : Decidable (e.StartsIn span) :=
  inferInstanceAs (Decidable (_ ∧ _))

theorem SourceFile.expansionsIn_eq_filter {f : SourceFile}
    (h : f.expandList.toList.Pairwise fun e e' => e.point.new.start ≤ e'.point.new.start)
    (span : Span) : f.expansionsIn span = f.expandList.toList.filter fun e => e.StartsIn span := by
  have hstart := leads_lt h span.start
  unfold expansionsIn
  dsimp only
  rw [bisect_eq_countP hstart, hstart.drop_countP,
    (leads_lt (h.sublist filter_sublist) span.stop).takeWhile_eq, filter_filter]
  refine filter_congr fun e _ => ?_
  rw [Bool.eq_iff_iff]
  simp only [Bool.and_eq_true, Bool.not_eq_true', decide_eq_true_eq, decide_eq_false_iff_not,
    Int.not_lt]
  exact and_comm

/-! ## The growth of a text -/

/-- How much a text has grown through some replacements. -/
def growth (points : List InsertPoint) : Int := (points.map InsertPoint.delta).sum

/-- How much a text has grown through the replacements that start before an offset. -/
def growthBefore (points : List InsertPoint) (x : Int) : Int :=
  growth (points.filter fun p => p.new.start < x)

@[simp] theorem growth_nil : growth [] = 0 := rfl

@[simp] theorem growth_cons (p : InsertPoint) (points : List InsertPoint) :
    growth (p :: points) = p.delta + growth points := by
  unfold growth
  rw [map_cons, sum_cons]

theorem growthBefore_of_le (h : ∀ p ∈ points, x ≤ p.new.start) : growthBefore points x = 0 := by
  rw [growthBefore, filter_eq_nil_iff.mpr fun p hp => by simpa using h p hp, growth_nil]

theorem growthBefore_cons_of_lt {p : InsertPoint} (points : List InsertPoint)
    (h : p.new.start < x) : growthBefore (p :: points) x = p.delta + growthBefore points x := by
  unfold growthBefore
  rw [filter_cons_of_pos (by simpa using h), growth_cons]

/-- How much a text grows through the replacements that start at an offset. -/
def growthAt (points : List InsertPoint) (x : Int) : Int :=
  growth (points.filter fun p => p.new.start = x)

theorem growthBefore_succ (points : List InsertPoint) (x : Int) :
    growthBefore points (x + 1) = growthBefore points x + growthAt points x := by
  unfold growthBefore growthAt
  induction points with
  | nil => rfl
  | cons p points ih =>
    rcases Int.lt_trichotomy p.new.start x with hlt | heq | hgt
    · rw [filter_cons_of_pos (by simp; omega), filter_cons_of_pos (by simp; omega),
        filter_cons_of_neg (by simp; omega), growth_cons, growth_cons, ih]
      omega
    · rw [filter_cons_of_pos (by simp; omega), filter_cons_of_neg (by simp; omega),
        filter_cons_of_pos (by simp; omega), growth_cons, growth_cons, ih]
      omega
    · rw [filter_cons_of_neg (by simp; omega), filter_cons_of_neg (by simp; omega),
        filter_cons_of_neg (by simp; omega), ih]

theorem growth_nonpos (h : ∀ p ∈ points, p.delta ≤ 0) : growth points ≤ 0 := by
  induction points with
  | nil => exact Int.le_refl 0
  | cons p points ih =>
    obtain ⟨hp, hrest⟩ := forall_mem_cons.mp h
    have := ih hrest
    rw [growth_cons]
    omega

theorem growthAt_of_ne (h : ∀ p ∈ points, p.new.start ≠ x) : growthAt points x = 0 := by
  rw [growthAt, filter_eq_nil_iff.mpr fun p hp => by simpa using h p hp, growth_nil]

namespace SourceFile

/-- The entries behind the first one. -/
def mapEntries (grown : Int) : List InsertPoint → List (Int × Int)
  | [] => []
  | p :: points => (p.new.start, grown + p.delta) :: mapEntries (grown + p.delta) points

theorem toList_offsetMap_setInserts (f : SourceFile) (points : List InsertPoint) :
    (f.setInserts points).offsetMap.toList = (0, 0) :: mapEntries 0 points := by
  have hfold : ∀ (points : List InsertPoint) (a : Array (Int × Int)) (grown : Int),
      (points.foldl (fun (acc : Array (Int × Int) × Int) p =>
        (acc.1.push (p.new.start, acc.2 + p.delta), acc.2 + p.delta)) (a, grown)).1.toList =
        a.toList ++ mapEntries grown points := by
    intro points
    induction points with
    | nil => intro a grown; simp [mapEntries]
    | cons p points ih => intro a grown; simp [mapEntries, ih]
  exact hfold points #[(0, 0)] 0

theorem map_fst_mapEntries (grown : Int) (points : List InsertPoint) :
    (mapEntries grown points).map Prod.fst = points.map fun p => p.new.start := by
  induction points generalizing grown with
  | nil => rfl
  | cons p points ih => rw [mapEntries, map_cons, map_cons, ih]

theorem snd_mapEntries (grown : Int) (points : List InsertPoint) (n : Nat) (h : n ≤ points.length) :
    ((((0 : Int), grown) :: mapEntries grown points)[n]?).map Prod.snd =
      some (grown + growth (points.take n)) := by
  induction n generalizing grown points with
  | zero => simp
  | succ n ih =>
    cases points with
    | nil => simp at h
    | cons p points =>
      have hrest := ih (grown + p.delta) points (by simpa using h)
      rw [getElem?_cons_succ, mapEntries, take_succ_cons, growth_cons, ← Int.add_assoc,
        ← hrest]
      cases n <;> rfl

/-- The replacements lie behind the start of the text, in its order. -/
structure InOrder (points : List InsertPoint) : Prop where
  nonneg : ∀ p ∈ points, 0 ≤ p.new.start
  sorted : points.Pairwise fun p q => p.new.start ≤ q.new.start

variable {points : List InsertPoint}

theorem InOrder.sorted_offsetMap (h : InOrder points) (f : SourceFile) :
    (f.setInserts points).offsetMap.toList.Pairwise fun e e' => e.1 ≤ e'.1 := by
  rw [toList_offsetMap_setInserts, pairwise_cons]
  have hfst : ((mapEntries 0 points).map Prod.fst).Pairwise (· ≤ ·) := by
    rw [map_fst_mapEntries, pairwise_map]
    exact h.sorted
  refine ⟨fun e he => ?_, pairwise_map.mp hfst⟩
  have hmem : e.1 ∈ (mapEntries 0 points).map Prod.fst := mem_map_of_mem he
  rw [map_fst_mapEntries] at hmem
  obtain ⟨p, hp, heq⟩ := mem_map.mp hmem
  exact heq ▸ h.nonneg p hp

theorem countP_offsetMap (f : SourceFile) (points : List InsertPoint) (x : Int) :
    (f.setInserts points).offsetMap.toList.countP (fun e => decide (e.1 < x)) =
      points.countP (fun p => decide (p.new.start < x)) + if 0 < x then 1 else 0 := by
  have hentries : (mapEntries 0 points).countP (fun e => decide (e.1 < x)) =
      points.countP fun p => decide (p.new.start < x) := by
    have hcount := countP_map (p := fun i : Int => decide (i < x)) (f := Prod.fst)
      (l := mapEntries 0 points)
    rw [map_fst_mapEntries, countP_map] at hcount
    exact hcount.symm
  rw [toList_offsetMap_setInserts, countP_cons, hentries]
  simp

theorem InOrder.origOffset_of_pos (h : InOrder points) (f : SourceFile) {x : Int} (hx : 0 < x) :
    (f.setInserts points).origOffset x = x - growthBefore points x := by
  have hlead := leads_lt h.sorted x
  unfold origOffset
  dsimp only
  rw [bisect_eq_countP (leads_lt (h.sorted_offsetMap f) x), countP_offsetMap, if_pos hx,
    if_neg (Nat.succ_ne_zero _), Nat.add_sub_cancel, ← Array.getElem?_toList,
    toList_offsetMap_setInserts, snd_mapEntries 0 points _ countP_le_length,
    hlead.take_countP, Option.getD_some, Int.zero_add]
  rfl

/-- At the start of the text and before it, an offset is mapped back by the whole growth. -/
theorem InOrder.origOffset_of_nonpos (h : InOrder points) (f : SourceFile) {x : Int}
    (hx : x ≤ 0) : (f.setInserts points).origOffset x = x - growth points := by
  have hnone : points.countP (fun p => decide (p.new.start < x)) = 0 :=
    countP_eq_zero.mpr fun p hp hlt => by
      have := h.nonneg p hp
      simp only [decide_eq_true_eq] at hlt
      omega
  have hback := snd_mapEntries 0 points points.length (Nat.le_refl _)
  rw [take_length, Int.zero_add] at hback
  have hlength : (mapEntries 0 points).length = points.length := by
    have := congrArg List.length (map_fst_mapEntries 0 points)
    simpa using this
  unfold origOffset
  dsimp only
  rw [bisect_eq_countP (leads_lt (h.sorted_offsetMap f) x), countP_offsetMap, hnone,
    if_neg (Int.not_lt.mpr hx), if_pos rfl, ← Array.getLast?_toList, toList_offsetMap_setInserts,
    getLast?_eq_getElem?, length_cons, Nat.add_sub_cancel, hlength, hback,
    Option.getD_some]

end SourceFile

/-! ## Lines and columns -/

namespace Text

variable {s : List Char} {p i : Nat}

/-- The line of a position: one more than the line breaks in front of it. -/
def lineOf (s : List Char) (p : Nat) : Nat := (s.take p).count '\n' + 1

/-- One more than the characters from the last line break, or the start, up to the position. -/
def columnOf (s : List Char) (p : Nat) : Nat :=
  ((s.take p).reverse.takeWhile fun c => c != '\n').length + 1

/-- The last line break in front of a position. -/
def lastBreak? (s : List Char) (p : Nat) : Option Nat := lastIndexOf? (· == '\n') (s.take p)

theorem getLast?_findIdxs (q : Char → Bool) (s : List Char) :
    (s.findIdxs q).getLast? = lastIndexOf? q s := by
  induction s using List.reverseRecOn with
  | nil => rfl
  | append_singleton s c ih =>
    unfold lastIndexOf? at ih ⊢
    rw [findIdxs_append, findIdxs_singleton, reverse_concat, findIdx?_cons]
    split
    · simp
    · rw [append_nil, ih, Option.map_map, length_append]
      exact Option.map_congr fun j _ => by simp only [Function.comp_apply, length_singleton]; omega

theorem lt_of_lastBreak? (h : lastBreak? s p = some i) : i < p := by
  have hmem := mem_of_getLast? ((getLast?_findIdxs _ _).trans h)
  have hlt := lt_add_of_mem_findIdxs i hmem
  have hlength := length_take_le p s
  omega

theorem countP_findIdxs (hp : p ≤ s.length) :
    (s.findIdxs (· == '\n')).countP (fun i => decide (i < p)) + 1 = lineOf s p := by
  have hlength : (s.take p).length = p := length_take_of_le hp
  have hfront : ∀ i ∈ (s.take p).findIdxs (· == '\n'), decide (i < p) = true := fun i hi =>
    decide_eq_true (by have := lt_add_of_mem_findIdxs i hi; omega)
  have hrear : ∀ i ∈ (s.drop p).findIdxs (· == '\n') (0 + (s.take p).length),
      ¬ decide (i < p) = true := fun i hi =>
    mt of_decide_eq_true (by have := ge_of_mem_findIdxs i hi; omega)
  conv_lhs => rw [← take_append_drop p s, findIdxs_append, countP_append]
  rw [countP_eq_length.mpr hfront, countP_eq_zero.mpr hrear, length_findIdxs]
  rfl

theorem getElem?_findIdxs (h : lineOf s p ≠ 1) :
    (s.findIdxs (· == '\n'))[lineOf s p - 1 - 1]? = lastBreak? s p := by
  have hcount : (s.take p).countP (· == '\n') = lineOf s p - 1 := rfl
  have hpos : lineOf s p - 1 ≠ 0 := Nat.sub_ne_zero_of_lt (by unfold lineOf at h ⊢; omega)
  rw [lastBreak?, ← getLast?_findIdxs, getLast?_eq_getElem?, length_findIdxs, hcount,
    findIdxs_take, hcount, getElem?_take_of_lt (by omega)]

theorem lineOf_eq_one_iff : lineOf s p = 1 ↔ lastBreak? s p = none := by
  unfold lineOf lastBreak?
  rw [Nat.add_eq_right, ← getLast?_findIdxs, getLast?_eq_none_iff, ← length_eq_zero_iff,
    length_findIdxs]
  rfl

theorem columnOf_eq (hp : p ≤ s.length) :
    columnOf s p = ((lastBreak? s p).map fun i => p - i).getD (p + 1) := by
  have hlength : (s.take p).length = p := length_take_of_le hp
  have hrun : ((s.take p).reverse.takeWhile fun c => c != '\n').length =
      (s.take p).reverse.findIdx (· == '\n') := by
    rw [takeWhile_eq_take_findIdx_not, length_take_of_le findIdx_le_length]
    simp only [bne, Bool.not_not]
  rw [columnOf, lastBreak?, lastIndexOf?, hrun, hlength]
  cases hfind : (s.take p).reverse.findIdx? (· == '\n') with
  | none =>
    rw [findIdx_eq_length.mpr (by simpa using hfind), length_reverse, hlength]
    rfl
  | some i =>
    obtain ⟨hi, heq⟩ := findIdx?_eq_some_iff_findIdx_eq.mp hfind
    rw [length_reverse, hlength] at hi
    simp only [heq, Option.map_some, Option.getD_some]
    omega

theorem take_clampBound (hp : p ≤ s.length) : s.take (clampBound s.length p) = s.take p := by
  rw [clampBound, if_neg (by omega), Int.toNat_natCast, Nat.min_eq_left hp]

theorem columnNumber_eq (hp : p ≤ s.length) :
    columnNumber s (some p) = columnOf s p + if lineOf s p = 1 then 0 else 1 := by
  have hbreak : lastIndexOf? (· == '\n') (s.take p) = lastBreak? s p := rfl
  unfold columnNumber
  simp only [lineOf_eq_one_iff, columnOf_eq hp, take_clampBound hp, Option.getD_some, hbreak]
  cases hlast : lastBreak? s p with
  | none => simp
  | some i =>
    have hi := lt_of_lastBreak? hlast
    simp only [Option.map_some, Option.getD_some, reduceCtorEq, if_false]
    omega

end Text

open Text

namespace SourceFile

variable {f : SourceFile} {s : List Char} {p : Nat}

theorem lineBreaks_fillLines (h : f.lineBreaks = none) (s : List Char) :
    ((f.fillLines s).lineBreaks.getD #[]).toList =
      (s.findIdxs (· == '\n')).map fun i : Nat => (i : Int) := by
  have hfold : ∀ (s : List Char) (i : Nat) (a : Array Int),
      ((s.mapIdx fun j c => (j + i, c)).foldl
        (fun a x => if x.2 = '\n' then a.push (x.1 : Int) else a) a).toList =
        a.toList ++ (s.findIdxs (· == '\n') i).map fun i : Nat => (i : Int) := by
    intro s
    induction s with
    | nil => intro i a; simp
    | cons c s ih =>
      intro i a
      have hshift : (s.mapIdx fun j c => (j + 1 + i, c)) = s.mapIdx fun j c => (j + (i + 1), c) := by
        simp only [Nat.add_assoc, Nat.add_comm 1 i]
      rw [mapIdx_cons, foldl_cons, hshift, ih, findIdxs_cons]
      by_cases hc : c = '\n' <;> simp [hc]
  rw [fillLines, h]
  exact hfold s 0 #[]

/-- The line of the table, and the column. -/
theorem linePos_eq (hlines : f.lineBreaks = none) (hmap : f.offsetMap = #[]) (hbreak : '\n' ∈ s)
    (hp : p ≤ s.length) :
    (f.fillLines s).linePos p =
      (lineOf s p, (columnOf s p : Int) - if lineOf s p = 1 then 1 else 0) := by
  have hbreaks := lineBreaks_fillLines hlines s
  have horig : (f.fillLines s).origOffset p = p := by
    have hmap' : (f.fillLines s).offsetMap = #[] := by
      rw [fillLines, hlines]
      exact hmap
    rw [origOffset, hmap']
    simp
  rw [linePos, horig]
  dsimp only
  generalize (f.fillLines s).lineBreaks.getD #[] = breaks at hbreaks
  have hlead : Leads (fun x : Int => decide (x < p)) breaks.toList := by
    rw [hbreaks]
    refine @leads_lt _ _ id (pairwise_map.mpr ?_) p
    exact pairwise_findIdxs.imp fun hlt => Int.ofNat_le.mpr (Nat.le_of_lt hlt)
  have hline : bisect breaks (fun x => decide (x < (p : Int))) + 1 = lineOf s p := by
    rw [bisect_eq_countP hlead, hbreaks, countP_map, ← countP_findIdxs hp]
    simp [Function.comp_def]
  have hempty : breaks.isEmpty = false := by
    rw [← Array.isEmpty_toList, hbreaks, isEmpty_eq_false_iff, ← length_pos_iff,
      length_map, length_findIdxs]
    exact count_pos_iff.mpr hbreak
  rw [hempty, if_neg Bool.false_ne_true, hline, columnOf_eq hp]
  by_cases hfirst : lineOf s p = 1
  · rw [if_pos (by omega), if_pos hfirst, lineOf_eq_one_iff.mp hfirst]
    simp
  · obtain ⟨i, hi⟩ := Option.ne_none_iff_exists'.mp (mt lineOf_eq_one_iff.mpr hfirst)
    have hlt := lt_of_lastBreak? hi
    rw [if_neg (by omega), if_neg hfirst, Nat.eq_sub_of_add_eq hline, ← Array.getElem?_toList,
      hbreaks, getElem?_map, getElem?_findIdxs hfirst, hi]
    simp only [Option.map_some, Option.getD_some, Prod.mk.injEq, true_and]
    omega

/-- **Lines and columns.** For every position of a text with a line break, the table and the count
in the text find its line. The column counted in the text is one more than that of the table, which
is right behind the first line only, and the other on the first line only. -/
theorem linePos_fillLines (hlines : f.lineBreaks = none) (hmap : f.offsetMap = #[])
    (hbreak : '\n' ∈ s) (hp : p ≤ s.length) :
    ((f.fillLines s).linePos p).1 = lineOf s p ∧ lineNumber s (some p) = lineOf s p ∧
      columnNumber s (some p) = ((f.fillLines s).linePos p).2 + 1 ∧
      (((f.fillLines s).linePos p).2 = columnOf s p ↔ lineOf s p ≠ 1) ∧
      (columnNumber s (some p) = columnOf s p ↔ lineOf s p = 1) := by
  have hline : lineNumber s (some p) = lineOf s p := by
    unfold lineNumber lineOf
    simp only [take_clampBound hp]
  rw [linePos_eq hlines hmap hbreak hp, columnNumber_eq hp]
  refine ⟨rfl, hline, ?_, ?_, ?_⟩ <;> split <;> omega

/-- The second character of the second line. -/
theorem linePos_fillLines_second : lineOf "ab\ncd".toList 4 = 2 ∧
      ((SourceFile.blank.fillLines "ab\ncd".toList).linePos 4).2 = columnOf "ab\ncd".toList 4 ∧
      columnNumber "ab\ncd".toList (some 4) ≠ columnOf "ab\ncd".toList 4 := by
  obtain ⟨-, -, -, htable, htext⟩ := linePos_fillLines (f := SourceFile.blank)
    (s := "ab\ncd".toList) (p := 4) rfl rfl (by decide) (by decide)
  have hline : lineOf "ab\ncd".toList 4 = 2 := by decide
  refine ⟨hline, htable.mpr (by rw [hline]; decide), fun h => ?_⟩
  have hfirst := htext.mp h
  rw [hline] at hfirst
  cases hfirst

end SourceFile

end CBoundary
