import CBoundary.Proofs.Lex.Mirror

/-!
# Blocks of plain texts

In a plain text the same blocks are found from both ends.  Counting brackets shows that two of
them never cross: one stands inside the other, or apart from it.
-/

namespace CBoundary.Lex

open List

variable {c d o : Char} {w t u v rest cs : List Char} {n : Nat}

/-- A bracket, a balanced text, and what closes the bracket. -/
def Block (t : List Char) : Prop :=
  ∃ c inside d, t = c :: (inside ++ [d]) ∧ closerOf c = some d ∧ Balanced inside

theorem block_iff : Block t ↔ forth.Block t := by
  simp only [Block, Direction.Block, balanced_iff_closed]
  rfl

theorem block_reverse_iff : Block t.reverse ↔ back.Block t := by
  constructor
  · rintro ⟨c, inside, d, ht, hcloser, hinside⟩
    refine ⟨d, inside.reverse, c, ?_, closerOf_eq_some_iff.mp hcloser,
      balanced_reverse_iff_closed.mp (by rwa [reverse_reverse])⟩
    rw [← reverse_reverse t, ht]
    simp
  · rintro ⟨d, inside, c, rfl, hopener, hinside⟩
    exact ⟨c, inside.reverse, d, by simp, closerOf_eq_some_iff.mpr hopener,
      balanced_reverse_iff_closed.mpr hinside⟩

/-! ## Counting brackets -/

/-- How much deeper a character leads. -/
def bracketStep (c : Char) : Int :=
  if (closerOf c).isSome then 1 else if (openerOf c).isSome then -1 else 0

/-- How much deeper in brackets the end of a text is than its start. -/
def depth : List Char → Int
  | [] => 0
  | c :: cs => bracketStep c + depth cs

theorem depth_append (s t : List Char) : depth (s ++ t) = depth s + depth t := by
  induction s with
  | nil => exact (Int.zero_add _).symm
  | cons c cs ih =>
    rw [cons_append, depth, depth, ih]
    omega

theorem bracketStep_opener (h : closerOf c = some d) : bracketStep c = 1 := by
  rw [bracketStep, h]
  rfl

theorem bracketStep_closer (h : closerOf c = some d) : bracketStep d = -1 := by
  rw [bracketStep, closerOf_closer h, closerOf_eq_some_iff.mp h]
  rfl

theorem bracketStep_of_isLeafChar (h : isLeafChar c = true) : bracketStep c = 0 := by
  have hbracket := isBracket_eq_false h
  simp only [isBracket, Bool.or_eq_false_iff] at hbracket
  rw [bracketStep, hbracket.1, hbracket.2]
  rfl

theorem Balanced.depth_append (h : Balanced w) : depth w = 0 ∧ ∀ u v, w = u ++ v → 0 ≤ depth u := by
  induction balanced_iff_closed.mp h with
  | nil =>
    refine ⟨rfl, fun u v huv => ?_⟩
    rw [(append_eq_nil_iff.mp huv.symm).1]
    exact Int.le_refl _
  | @char w c hc hw ih =>
    obtain ⟨hzero, hopen⟩ := ih (balanced_iff_closed.mpr hw)
    have hstep := bracketStep_of_isLeafChar hc
    refine ⟨by rw [depth, hstep, hzero]; rfl, fun u v huv => ?_⟩
    cases u with
    | nil => exact Int.le_refl _
    | cons e u =>
      obtain ⟨rfl, hrest⟩ := List.cons.inj huv
      have hu := hopen u v hrest
      rw [depth, hstep]
      omega
  | @block inside w c d hcloser hinside hw ih ih' =>
    obtain ⟨hzero, hopen⟩ := ih (balanced_iff_closed.mpr hinside)
    obtain ⟨hzero', hopen'⟩ := ih' (balanced_iff_closed.mpr hw)
    have hstep := bracketStep_opener hcloser
    have hstep' := bracketStep_closer hcloser
    refine ⟨by rw [depth, Lex.depth_append, depth, hstep, hstep', hzero, hzero']; rfl,
      fun u v huv => ?_⟩
    cases u with
    | nil => exact Int.le_refl _
    | cons e u =>
      obtain ⟨rfl, hrest⟩ := List.cons.inj huv
      rw [depth, hstep]
      rcases append_eq_append_iff.mp hrest with ⟨e, rfl, he⟩ | ⟨e, he, rfl⟩
      · rw [Lex.depth_append, hzero]
        cases e with
        | nil => decide
        | cons e es =>
          obtain ⟨rfl, hes⟩ := List.cons.inj he
          have hrear := hopen' es v hes
          rw [depth, hstep']
          omega
      · have hinner := hopen u e he
        omega

theorem Block.balanced (h : Block t) : Balanced t := by
  obtain ⟨c, inside, d, rfl, hcloser, hinside⟩ := h
  exact .block .nil hcloser hinside

theorem Block.depth_eq_zero (h : Block t) : depth t = 0 := h.balanced.depth_append.1

theorem Block.depth_pos (h : Block (u ++ v)) (hu : u ≠ []) (hv : v ≠ []) : 0 < depth u := by
  obtain ⟨c, inside, d, hs, hcloser, hinside⟩ := h
  cases u with
  | nil => exact absurd rfl hu
  | cons e u =>
    rw [cons_append] at hs
    obtain ⟨rfl, huv⟩ := List.cons.inj hs
    have hlast : u ++ v.dropLast = inside := by
      have hdrop := congrArg dropLast huv
      rwa [dropLast_append_of_ne_nil hv, dropLast_concat] at hdrop
    have hinner := hinside.depth_append.2 u v.dropLast hlast.symm
    rw [depth, bracketStep_opener hcloser]
    omega

theorem Block.ne_nil (h : Block t) : t ≠ [] := by
  obtain ⟨c, inside, d, rfl, -⟩ := h
  exact cons_ne_nil _ _

/-- Two blocks never cross. -/
theorem Block.nested {t' rest' : List Char} (h : Block t) (h' : Block t')
    (hs : t ++ rest = u ++ (t' ++ rest')) (hlt : u.length < t.length) :
    (u = [] ∧ t = t' ∧ rest = rest') ∨
      (u ≠ [] ∧ ∃ e, e ≠ [] ∧ t = u ++ (t' ++ e) ∧ rest' = e ++ rest) := by
  obtain ⟨v, rfl, hv⟩ : ∃ v, t = u ++ v ∧ t' ++ rest' = v ++ rest := by
    rcases append_eq_append_iff.mp hs with ⟨e, rfl, -⟩ | ⟨e, rfl, he⟩
    · rw [length_append] at hlt
      omega
    · exact ⟨e, rfl, he⟩
  have hvne : v ≠ [] := by
    rintro rfl
    rw [append_nil] at hlt
    omega
  have hzero : depth u + depth v = 0 := by
    rw [← depth_append]
    exact h.depth_eq_zero
  rcases append_eq_append_iff.mp hv with ⟨e, rfl, rfl⟩ | ⟨e, rfl, rfl⟩
  · rw [depth_append, h'.depth_eq_zero, Int.zero_add] at hzero
    by_cases hu : u = []
    · subst hu
      by_cases he : e = []
      · subst he
        exact .inl ⟨rfl, by simp, rfl⟩
      · have hpos := Block.depth_pos (u := t') h h'.ne_nil he
        rw [h'.depth_eq_zero] at hpos
        exact absurd hpos (Int.lt_irrefl 0)
    · have hpos := h.depth_pos hu hvne
      refine .inr ⟨hu, e, ?_, rfl, rfl⟩
      rintro rfl
      rw [show depth ([] : List Char) = 0 from rfl] at hzero
      omega
  · by_cases he : e = []
    · subst he
      rw [append_nil] at h'
      rw [h'.depth_eq_zero] at hzero
      have hu : u = [] := by
        refine Classical.byContradiction fun hu => ?_
        have hpos := h.depth_pos hu hvne
        omega
      subst hu
      exact .inl ⟨rfl, by simp, rfl⟩
    · -- what both have in common would be open in one of them and closed in the other
      have hopen := h'.depth_pos hvne he
      by_cases hu : u = []
      · rw [hu, show depth ([] : List Char) = 0 from rfl] at hzero
        omega
      · have hpos := h.depth_pos hu hvne
        omega

/-- A block that ends in a balanced gap behind another one, and does not start behind it, is that
one. -/
theorem Block.eq_of_gap {gap rear : List Char} (h : Block t) (hw : Block w) (hgap : Balanced gap)
    (hs : t ++ rear = u ++ (w ++ (gap ++ rest))) (hlt : u.length < t.length)
    (hend : t.length ≤ (u ++ (w ++ gap)).length) : u = [] ∧ t = w := by
  rcases h.nested hw hs hlt with ⟨hu, ht, -⟩ | ⟨hu, e, he, rfl, hrest⟩
  · exact ⟨hu, ht⟩
  · exfalso
    have hpos := h.depth_pos hu (by simp [he])
    have hzero := h.depth_eq_zero
    rw [depth_append, depth_append, hw.depth_eq_zero] at hzero
    have hshort : e.length ≤ gap.length := by
      simp only [length_append] at hend
      omega
    obtain ⟨e', he'⟩ := prefix_of_prefix_length_le
      ⟨rear, hrest.symm⟩ (prefix_append gap rest) hshort
    have hground := hgap.depth_append.2 e e' he'.symm
    omega

/-! ## Blocks as they are read -/

theorem Plain.block_of_tokenLength (h : Plain (c :: cs)) (hcloser : closerOf c = some d)
    (htoken : code.tokenLength (c :: cs) = n + 1) : Block (c :: cs.take n) :=
  block_iff.mpr (h.sober.block_of_tokenLength hcloser htoken)

theorem Block.tokenLength_codeBack (h : Block t) (hplain : Plain (rest ++ t)) :
    codeBack.tokenLength (t.reverse ++ rest.reverse) = t.length := by
  have hblock : back.Block t.reverse := block_reverse_iff.mp (by rwa [reverse_reverse])
  rw [← length_reverse]
  refine hblock.tokenLength (Plain.sober_back ?_)
  rwa [reverse_append, reverse_reverse, reverse_reverse]

theorem Plain.append_drop (hplain : Plain (t ++ rest)) (n : Nat) : Plain (t.drop n ++ rest) := by
  refine hplain.of_isInfix ⟨t.take n, [], ?_⟩
  rw [append_nil, ← append_assoc, take_append_drop]

theorem Plain.tokenLength_code_append (hplain : Plain (c :: cs ++ rest))
    (hcloser : closerOf c = some d) (hdepth : depth (c :: cs) ≤ 0) :
    code.tokenLength (c :: cs ++ rest) = code.tokenLength (c :: cs) := by
  have hpart : Plain (c :: cs) := hplain.of_isInfix ⟨[], rest, rfl⟩
  refine hplain.sober.tokenLength_append_block hpart.sober hcloser fun u hu hblock => ?_
  -- the text would be open where it ends inside of the block
  have hpos := (block_iff.mpr hblock).depth_pos (cons_ne_nil c cs) hu
  omega

theorem Plain.tokenLength_codeBack_append {s front : List Char}
    (hplain : Plain (s ++ o :: front).reverse) (hcloser : closerOf o = some d)
    (hdepth : 0 ≤ depth s.reverse) :
    codeBack.tokenLength (s ++ o :: front) = codeBack.tokenLength s := by
  have hfull := hplain.sober_back
  have hpart : Plain s.reverse := hplain.of_isInfix (List.reverse_infix.mpr ⟨[], o :: front, rfl⟩)
  have hstop : back.Stops (o :: front) :=
    Direction.stops_closer (D := back) (closerOf_eq_some_iff.mp hcloser) front
  cases s with
  | nil => exact (hfull.tokenLength_stop hstop).trans (Grammar.tokenLength_nil _).symm
  | cons c cs =>
    cases hopener : openerOf c with
    | none => exact hfull.tokenLength_append_leaf hpart.sober_back hopener hstop
    | some e =>
      refine hfull.tokenLength_append_block hpart.sober_back hopener fun u hu hblock => ?_
      have hblock := block_reverse_iff.mpr hblock
      rw [reverse_append] at hblock
      have hzero := hblock.depth_eq_zero
      have hpos := hblock.depth_pos (by simpa using hu) (by simp)
      rw [depth_append] at hzero
      omega

end CBoundary.Lex
