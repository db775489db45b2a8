import CBoundary.Proofs.Access.Repeats
import CBoundary.Proofs.Lex.Blocks

/-!
# Searching inside parentheses

A text in parentheses may be searched on its own, or come by in the search of a text around it.
In a plain text both find the same, since no token reaches over a bracket that it does not
close.
-/

namespace CBoundary

open Text CBoundary.Lex List

namespace AccessChain

variable {c : Char} {cs s t before front x : List Char} {l : Link} {ls : List Link} {k : Nat}
  {xs : List (List Char)}

/-! ## Runs at a place -/

theorem runs_nil (pos : Nat) (before : List Char) : runs pos before [] = [] := by
  rw [runs]

theorem runs_of_eq_nil (h : linksAt (c :: cs) = []) (pos : Nat) (before : List Char) :
    runs pos before (c :: cs) = runs (pos + 1) (c :: before) cs := by
  rw [runs, h]

theorem drop_pred (hk : 0 < k) (c : Char) (cs : List Char) :
    cs.drop (k - 1) = (c :: cs).drop k := by
  obtain ⟨n, rfl⟩ := Nat.exists_eq_succ_of_ne_zero hk.ne'
  rfl

theorem runs_of_eq_cons (h : linksAt s = l :: ls) (pos : Nat) (before : List Char)
    : runs pos before s = ⟨pos, before, l :: ls⟩ ::
      runs (pos + linksLength (l :: ls)) ((s.take (linksLength (l :: ls))).reverse ++ before)
        (s.drop (linksLength (l :: ls))) := by
  cases s with
  | nil =>
    rw [linksAt] at h
    cases h
  | cons c cs => rw [runs, h, ← drop_pred (linksLength_bounds h).1]

/-- The search for runs comes by each place of a text, unless that is inside a run. -/
theorem runs_at (pos : Nat) (before s : List Char) (hk : k ≤ s.length) :
    (∃ early, runs pos before s =
      early ++ runs (pos + k) ((s.take k).reverse ++ before) (s.drop k)) ∨
      ∃ r ∈ runs pos before s, r.pos < pos + k ∧ pos + k < r.pos + linksLength r.links := by
  fun_induction runs pos before s generalizing k with
  | case1 =>
    obtain rfl := Nat.le_zero.mp hk
    exact .inl ⟨[], (runs_nil ..).symm⟩
  | case2 pos before c cs hlinks ih =>
    cases k with
    | zero => exact .inl ⟨[], (runs_of_eq_nil hlinks ..).symm⟩
    | succ k =>
      have hstep := ih (Nat.le_of_succ_le_succ hk)
      rw [Nat.add_right_comm] at hstep
      rwa [take_succ_cons, reverse_cons, append_assoc, drop_succ_cons]
  | case3 pos before c cs l ls hlinks n =>
    rename_i ih
    obtain ⟨hpos, hle⟩ := linksLength_bounds hlinks
    rw [drop_pred hpos c] at ih ⊢
    rcases Nat.lt_or_ge k n with hlt | hge
    · rcases Nat.eq_zero_or_pos k with rfl | hk
      · exact .inl ⟨[], (runs_of_eq_cons hlinks ..).symm⟩
      · exact .inr ⟨_, mem_cons_self, Nat.lt_add_of_pos_right hk, Nat.add_lt_add_left hlt pos⟩
    · obtain ⟨k, rfl⟩ := Nat.exists_eq_add_of_le hge
      rcases ih (k := k) (by rw [length_drop]; omega) with ⟨early, hearly⟩ | ⟨r, hr, hin⟩
      · refine .inl ⟨⟨pos, before, l :: ls⟩ :: early, ?_⟩
        rw [hearly, take_add, reverse_append, append_assoc, drop_drop, Nat.add_assoc, cons_append]
      · rw [Nat.add_assoc] at hin
        exact .inr ⟨r, mem_cons_of_mem _ hr, hin⟩

theorem ne_paren_of_linkAt? (h : linkAt? s = some l) (hk : k < l.accessor + l.name.length) :
    s[k]? ≠ some '(' := by
  obtain ⟨haccessor, hne, rfl⟩ := linkAt?_eq_some h
  obtain ⟨front, mark, rest, rfl, hlength, -, hmark⟩ := accessorAt_spec haccessor
  rw [hlength, drop_left] at hne hk
  obtain ⟨behind, hrest, hword, -⟩ := nameAt_spec hne
  have hfront : (front ++ [mark] ++ rest)[k]? = (front ++ [mark] ++ nameAt rest)[k]? := by
    rw [← length_append] at hk
    nth_rewrite 1 [hrest]
    rw [← append_assoc, getElem?_append_left hk]
  rw [hfront]
  intro hparen
  rcases mem_append.mp (mem_of_getElem? hparen) with hmem | hmem
  · exact hmark hmem
  · exact absurd (hword '(' hmem) (by decide)

theorem linksAt_of_eq_some (h : linkAt? s = some l) :
    linksAt s = l :: linksAt (s.drop l.length) := by
  cases s with
  | nil => cases h
  | cons c cs =>
    rw [linksAt, h, ← drop_pred (heads_of_linkAt? h).length_pos]

theorem linksAt_of_eq_none (h : linkAt? s = none) : linksAt s = [] := by
  cases s with
  | nil => rw [linksAt]
  | cons c cs => rw [linksAt, h]

theorem mem_positioned_of_lt (start : Int) (hk : k < total xs) :
    ∃ x ∈ positioned start xs, x.1 ≤ start + k ∧ start + k < x.1 + x.2.length := by
  induction xs generalizing start k with
  | nil => cases hk
  | cons x xs ih =>
    have htotal : total (x :: xs) = x.length + total xs := by
      rw [total, total, flatten_cons, length_append]
    rcases Nat.lt_or_ge k x.length with hlt | hge
    · refine ⟨(start, x), mem_cons_self, ?_⟩
      dsimp only
      omega
    · obtain ⟨y, hy, hin⟩ := ih (start + x.length) (k := k - x.length) (by omega)
      refine ⟨y, mem_cons_of_mem _ hy, ?_⟩
      omega

theorem mem_suffixesOf_of_paren (pos : Int) (hk : k < linksLength (linksAt s))
    (hparen : s[k]? = some '(') :
    ∃ x ∈ suffixesOf pos (linksAt s), x.1 ≤ pos + k ∧ pos + k < x.1 + x.2.length := by
  fun_induction linksAt s generalizing pos k with
  | case1 => cases hparen
  | case2 => cases hk
  | case3 c cs l hlink ih =>
    rw [drop_pred (heads_of_linkAt? hlink).length_pos c] at ih hk ⊢
    rw [linksLength_cons] at hk
    rw [suffixesOf_cons]
    rcases Nat.lt_or_ge k l.length with hlt | hge
    · have hfront : l.accessor + l.name.length ≤ k :=
        Nat.le_of_not_lt fun hlt => ne_paren_of_linkAt? hlink hlt hparen
      have hinside : k - (l.accessor + l.name.length) < total l.suffixes := by
        unfold Link.length at hlt
        omega
      obtain ⟨x, hx, hin⟩ := mem_positioned_of_lt (pos + l.accessor + l.name.length) hinside
      exact ⟨x, mem_append_left _ hx, by omega⟩
    · obtain ⟨x, hx, hin⟩ := ih (pos + l.length) (k := k - l.length) (by omega)
        (by rw [getElem?_drop]; rwa [Nat.add_sub_of_le hge])
      exact ⟨x, mem_append_right _ hx, by omega⟩

/-! ## Texts that go on behind a closer -/

/-- No bracket of the text is left open. -/
def Shut (t : List Char) : Prop := ∀ u v, t = u ++ v → depth v ≤ 0

theorem Shut.drop (h : Shut t) (n : Nat) : Shut (t.drop n) := fun u v huv =>
  h (t.take n ++ u) v (by rw [append_assoc, ← huv, take_append_drop])

theorem shut_of_balanced (h : Balanced t) : Shut t := by
  rintro u v rfl
  obtain ⟨hzero, hopen⟩ := h.depth_append
  have hu := hopen u v rfl
  rw [depth_append] at hzero
  omega

section Closer

variable {o d : Char} (hcloser : closerOf o = some d)
variable {t rest : List Char}
include hcloser

theorem accessorAt_append (t rest : List Char) : accessorAt (t ++ d :: rest) = accessorAt t := by
  unfold closerOf at hcloser
  rcases t with - | ⟨c, - | ⟨e, t⟩⟩
  · split at hcloser <;> cases hcloser <;> rfl
  · unfold accessorAt
    split at hcloser <;> cases hcloser <;> split <;> simp_all
  · unfold accessorAt
    split <;> simp_all

theorem nameAt_append (t rest : List Char) : nameAt (t ++ d :: rest) = nameAt t := by
  have hword := isWordChar_of_closerOf hcloser
  have htake : (t ++ d :: rest).takeWhile isWordChar = t.takeWhile isWordChar := by
    rw [takeWhile_append, takeWhile_cons_of_neg (by rw [hword]; decide), append_nil]
    split
    · rename_i hwhole
      exact ((List.takeWhile_prefix isWordChar).eq_of_length hwhole).symm
    · rfl
  rw [nameAt, htake]
  cases t with
  | nil =>
    exact (ite_self _).trans (ite_self _).symm
  | cons c cs => rfl

theorem blockLength_append {b e : Char} (hb : closerOf b = some e) (hplain : Plain (t ++ d :: rest))
    (hshut : Shut t) : code.blockLength b (t ++ d :: rest) = code.blockLength b t := by
  cases t with
  | nil =>
    refine if_neg ?_
    rintro rfl
    rw [closerOf_closer hcloser] at hb
    cases hb
  | cons c cs =>
    show (if c = b then _ else _) = if c = b then _ else _
    split
    · rename_i hc
      subst hc
      exact hplain.tokenLength_code_append hb (hshut [] _ rfl)
    · rfl

theorem suffixesAt_append (hplain : Plain (t ++ d :: rest)) (hshut : Shut t) :
    suffixesAt (t ++ d :: rest) = suffixesAt t := by
  have hfirst {t : List Char} (hplain : Plain (t ++ d :: rest)) (hshut : Shut t) :
      firstOf [code.blockLength '(', code.blockLength '['] (t ++ d :: rest) =
        firstOf [code.blockLength '(', code.blockLength '['] t := by
    simp only [firstOf, blockLength_append hcloser (show closerOf '(' = some ')' from rfl) hplain
      hshut, blockLength_append hcloser (show closerOf '[' = some ']' from rfl) hplain hshut]
  fun_induction suffixesAt t with
  | case1 =>
    rw [nil_append, suffixesAt, show firstOf _ (d :: rest) = _ from hfirst (t := []) hplain hshut]
    rfl
  | case2 c cs hn => rw [cons_append, suffixesAt, ← cons_append, hfirst hplain hshut, hn]
  | case3 c cs n hn ih =>
    have hle : n ≤ cs.length := by
      refine Nat.le_of_succ_le_succ (hn ▸ bounded_firstOf (fun r hr => ?_) (c :: cs))
      simp only [mem_cons, not_mem_nil, or_false] at hr
      rcases hr with rfl | rfl <;> exact Grammar.bounded_code_blockLength _
    rw [cons_append, suffixesAt, ← cons_append, hfirst hplain hshut, hn]
    dsimp only
    rw [take_append_of_le_length hle, drop_append_of_le_length hle,
      ih (hplain.append_drop (n + 1)) (hshut.drop (n + 1))]

/-- A link in a shut text does not reach over its end. -/
theorem linkAt?_append (hplain : Plain (t ++ d :: rest)) (hshut : Shut t) :
    linkAt? (t ++ d :: rest) = linkAt? t := by
  unfold linkAt?
  dsimp only
  rw [accessorAt_append hcloser]
  by_cases hzero : accessorAt t = 0
  · rw [hzero]
    rfl
  · have hle : accessorAt t ≤ t.length := by
      obtain ⟨front, mark, behind, hs, hlength, -⟩ := accessorAt_spec hzero
      rw [hlength, hs]
      exact (prefix_append _ behind).length_le
    have hname : nameAt ((t ++ d :: rest).drop (accessorAt t)) =
        nameAt (t.drop (accessorAt t)) := by
      rw [drop_append_of_le_length hle, nameAt_append hcloser]
    rw [hname]
    generalize hw : nameAt (t.drop (accessorAt t)) = w
    have hfront : accessorAt t + w.length ≤ t.length := by
      have hprefix : w.length ≤ (t.drop (accessorAt t)).length := by
        rw [← hw]
        unfold nameAt
        split
        · exact (List.takeWhile_prefix _).length_le
        · exact Nat.zero_le _
      rw [length_drop] at hprefix
      omega
    rw [drop_append_of_le_length hfront,
      suffixesAt_append hcloser (hplain.append_drop _) (hshut.drop _)]

theorem linksAt_append (hplain : Plain (t ++ d :: rest)) (hshut : Shut t) :
    linksAt (t ++ d :: rest) = linksAt t := by
  fun_induction linksAt t with
  | case1 => exact linksAt_of_eq_none (linkAt?_append hcloser hplain hshut)
  | case2 c cs hnone =>
    exact linksAt_of_eq_none ((linkAt?_append hcloser hplain hshut).trans hnone)
  | case3 c cs l hlink ih =>
    have hheads := heads_of_linkAt? hlink
    have hle : l.length ≤ (c :: cs).length := by
      obtain ⟨front, hs, hlength⟩ := hheads.drop
      rw [hs, length_append, hlength]
      exact Nat.le_add_right _ _
    rw [drop_pred hheads.length_pos c] at ih ⊢
    rw [linksAt_of_eq_some ((linkAt?_append hcloser hplain hshut).trans hlink),
      drop_append_of_le_length hle, ih (hplain.append_drop _) (hshut.drop _)]

theorem runs_append (pos : Nat) (before : List Char) (hplain : Plain (t ++ d :: rest))
    (hshut : Shut t) : ∃ late, runs pos before (t ++ d :: rest) = runs pos before t ++ late := by
  fun_induction runs pos before t with
  | case1 => exact ⟨_, rfl⟩
  | case2 pos before c cs hnone ih =>
    have hlinks := (linksAt_append hcloser hplain hshut).trans hnone
    rw [cons_append] at hlinks ⊢
    rw [runs_of_eq_nil hlinks]
    exact ih (hplain.append_drop 1) (hshut.drop 1)
  | case3 pos before c cs l ls hlink n ih =>
    obtain ⟨hpos, hle⟩ := linksLength_bounds hlink
    rw [drop_pred hpos c] at ih ⊢
    rw [runs_of_eq_cons ((linksAt_append hcloser hplain hshut).trans hlink),
      take_append_of_le_length hle, drop_append_of_le_length hle]
    obtain ⟨late, hlate⟩ := ih (hplain.append_drop _) (hshut.drop _)
    exact ⟨late, by rw [hlate, cons_append]⟩

end Closer

/-! ## Texts that start elsewhere -/

/-- A run, if more stands before the text. -/
def Run.shift (k : Nat) (front : List Char) (r : Run) : Run :=
  ⟨r.pos + k, r.before ++ front, r.links⟩

theorem runs_shift (k : Nat) (front : List Char) (pos : Nat) (before s : List Char) :
    runs (pos + k) (before ++ front) s = (runs pos before s).map (Run.shift k front) := by
  fun_induction runs pos before s with
  | case1 => rw [runs_nil, map_nil]
  | case2 pos before c cs hlinks ih =>
    rw [runs_of_eq_nil hlinks, ← ih, cons_append, Nat.add_right_comm]
  | case3 pos before c cs l ls hlinks n ih =>
    rw [runs, hlinks, map_cons, ← ih, append_assoc, Nat.add_right_comm pos n k]
    rfl

/-- No bracket is closed that was not opened in the text. -/
def Grounded (t : List Char) : Prop := ∀ u v, t = u ++ v → 0 ≤ depth u

/-- An operand, if more stands before the text. -/
def Holder.shift (k : Nat) (h : Holder) : Holder := ⟨h.pos + k, h.chars⟩

/-- A text read backwards from behind an opener, in which only brackets are closed that were opened.
-/
structure Enclosed (before front : List Char) : Prop where
  plain : Plain (before ++ '(' :: front).reverse
  grounded : Grounded before.reverse

theorem Enclosed.tokenLength_eq (h : Enclosed before front) :
    codeBack.tokenLength (before ++ '(' :: front) = codeBack.tokenLength before :=
  h.plain.tokenLength_codeBack_append rfl (h.grounded _ [] (append_nil _).symm)

theorem Enclosed.drop (h : Enclosed before front) (n : Nat) : Enclosed (before.drop n) front where
  plain := by
    refine h.plain.of_isInfix (List.reverse_infix.mpr ⟨before.take n, [], ?_⟩)
    rw [append_nil, ← append_assoc, take_append_drop]
  grounded u v huv := by
    refine h.grounded u (v ++ (before.take n).reverse) ?_
    rw [← append_assoc, ← huv, ← reverse_append, take_append_drop]

/-- Backward reading does not reach over the opener. -/
theorem Enclosed.cases (h : Enclosed before front) :
    (codeBack.tokenLength before = 0 ∧ codeBack.tokenLength (before ++ '(' :: front) = 0) ∨
    ∃ c cs n, before = c :: cs ∧ codeBack.tokenLength (c :: cs) = n + 1 ∧
      codeBack.tokenLength (c :: (cs ++ '(' :: front)) = n + 1 ∧
      (cs ++ '(' :: front).take n = cs.take n ∧
      (cs ++ '(' :: front).drop n = cs.drop n ++ '(' :: front ∧
      (c :: cs).length = (cs.drop n).length + (n + 1) ∧ Enclosed (cs.drop n) front := by
  have heq := h.tokenLength_eq
  cases hn : codeBack.tokenLength before with
  | zero => exact .inl ⟨rfl, heq.trans hn⟩
  | succ n =>
    cases before with
    | nil =>
      rw [Grammar.tokenLength_nil] at hn
      cases hn
    | cons c cs =>
      have hle : n ≤ cs.length := by
        have hbound := Grammar.bounded_codeBack_tokenLength (c :: cs)
        rw [hn] at hbound
        exact Nat.le_of_succ_le_succ hbound
      refine .inr ⟨c, cs, n, rfl, hn, heq.trans hn, take_append_of_le_length hle,
        drop_append_of_le_length hle, ?_, h.drop (n + 1)⟩
      rw [length_drop, length_cons]
      omega

theorem nothing_of_eq_zero (h : codeBack.tokenLength before = 0) (pos : Nat) :
    callee? pos before = none ∧ holder? pos before = none := by
  cases before with
  | nil => rw [callee?, holder?]; exact ⟨rfl, rfl⟩
  | cons c cs => rw [callee?, holder?, h]; exact ⟨rfl, rfl⟩

theorem searches_append (h : Enclosed before front) (k : Nat) :
    callee? (before.length + k) (before ++ '(' :: front) =
        (callee? before.length before).map (Holder.shift k) ∧
      holder? (before.length + k) (before ++ '(' :: front) =
        (holder? before.length before).map (Holder.shift k) := by
  induction hlen : before.length using Nat.strongRecOn generalizing before with
  | ind size ih =>
    subst hlen
    rcases h.cases with ⟨hzero, hzero'⟩ | ⟨c, cs, n, rfl, hn, htoken, htake, hdrop, hlength, hrest⟩
    · obtain ⟨hcallee, hholder⟩ := nothing_of_eq_zero hzero before.length
      rw [hcallee, hholder]
      exact nothing_of_eq_zero hzero' _
    · obtain ⟨hcallee, hholder⟩ := ih _ (by omega) hrest rfl
      rw [cons_append, callee?, callee?, holder?, holder?, htoken, hn]
      dsimp only
      rw [htake, hdrop, hlength, Nat.add_right_comm, Nat.add_sub_cancel, Nat.add_sub_cancel,
        hcallee]
      constructor
      · split <;> rfl
      · split
        all_goals first | exact hholder | rfl | skip
        cases callee? (cs.drop n).length (cs.drop n) <;> rfl

/-! ## Calls and indexes of plain texts -/

theorem block_of_mem_suffixesAt (hplain : Plain s) (hx : x ∈ suffixesAt s) : Block x := by
  fun_induction suffixesAt s with
  | case1 => cases hx
  | case2 => cases hx
  | case3 c cs n hn ih =>
    rcases mem_cons.mp hx with rfl | hx
    · have hblock {o d : Char} (ho : closerOf o = some d)
          (h : code.blockLength o (c :: cs) = n + 1) : Block (c :: cs.take n) := by
        change (if c = o then code.tokenLength (c :: cs) else 0) = n + 1 at h
        split at h
        · rename_i hc
          exact hplain.block_of_tokenLength (hc ▸ ho) h
        · cases h
      rw [firstOf_pair] at hn
      split at hn
      · exact hblock (show closerOf '[' = some ']' from rfl) hn
      · exact hblock (show closerOf '(' = some ')' from rfl) hn
    · have hrest : cs.drop n <:+ c :: cs := (drop_suffix n cs).trans (suffix_cons c cs)
      exact ih (hplain.of_isInfix hrest.isInfix) hx

theorem block_of_mem_linksAt (hplain : Plain s) (hl : l ∈ linksAt s) (hx : x ∈ l.suffixes) :
    Block x := by
  fun_induction linksAt s with
  | case1 => cases hl
  | case2 => cases hl
  | case3 c cs l' hlink ih =>
    have hsuffix : ∀ n, (c :: cs).drop n <:+ c :: cs := fun n => drop_suffix n _
    rcases mem_cons.mp hl with rfl | hl
    · obtain ⟨-, -, rfl⟩ := linkAt?_eq_some hlink
      exact block_of_mem_suffixesAt
        (hplain.of_isInfix ((drop_suffix _ _).trans (hsuffix _)).isInfix) hx
    · exact ih (hplain.of_isInfix ((drop_suffix _ _).trans (suffix_cons c cs)).isInfix) hl

theorem mem_of_mem_positioned {start : Int} {x : Int × List Char} (hx : x ∈ positioned start xs) :
    x.2 ∈ xs := by
  induction xs generalizing start with
  | nil => cases hx
  | cons y ys ih =>
    rcases mem_cons.mp hx with rfl | hx
    · exact mem_cons_self
    · exact mem_cons_of_mem y (ih hx)

theorem exists_of_mem_suffixesOf {pos : Int} {x : Int × List Char} (hx : x ∈ suffixesOf pos ls) :
    ∃ l ∈ ls, x.2 ∈ l.suffixes := by
  induction ls generalizing pos with
  | nil => cases hx
  | cons l ls ih =>
    rw [suffixesOf_cons] at hx
    rcases mem_append.mp hx with hx | hx
    · exact ⟨l, mem_cons_self, mem_of_mem_positioned hx⟩
    · obtain ⟨l', hl', hmem⟩ := ih hx
      exact ⟨l', mem_cons_of_mem l hl', hmem⟩

end AccessChain

end CBoundary
