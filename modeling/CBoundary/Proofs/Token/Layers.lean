import CBoundary.Proofs.Token.Place

/-!
# Tokens in layers

The tokens of a text stand in it one behind the other.  Each of them, read again on its own, is
one token, and the inside of each block is made up of tokens without a gap, and so on at any
depth.  A line break is never passed over, so that it stands in one of the tokens.
-/

namespace CBoundary

open Text List CBoundary.Lex

/-- The spans follow one another without a gap, from one offset to another. -/
def Span.Tile : Int → Int → List Span → Prop
  | i, j, [] => i = j
  | i, j, s :: ss => s.start = i ∧ Tile s.stop j ss

/-! ## Lexemes -/

namespace Lex

variable {r : Rule}

theorem start_le_of_mem_findings (hr : r.Bounded) {start : Nat} {s : List Char} {l : Lexeme}
    (h : l ∈ findings r start s) : start ≤ l.start := by
  obtain ⟨front, rear, _, hstart, _⟩ := found_of_mem_findings hr h
  omega

theorem findings_add (r : Rule) (start k : Nat) (s : List Char) :
    findings r (start + k) s = (findings r start s).map fun l => ⟨l.start + k, l.chars⟩ := by
  fun_induction findings r start s with
  | case1 start => simp [findings]
  | case2 start c cs hzero ih =>
    rw [findings, hzero, ← ih]
    simp only [Nat.add_right_comm]
  | case3 start c cs n hn ih =>
    rw [findings, hn, map_cons, ← ih]
    simp only [Nat.add_right_comm]

theorem findings_self {t : List Char} (hne : t ≠ []) (h : r t = t.length) (start : Nat) :
    findings r start t = [⟨start, t⟩] := by
  obtain ⟨c, cs, rfl⟩ := exists_cons_of_ne_nil hne
  rw [findings, h, length_cons]
  simp [findings]

theorem pairwise_findings (hr : r.Bounded) (start : Nat) (s : List Char) :
    (findings r start s).Pairwise fun a b => a.stop ≤ b.start := by
  fun_induction findings r start s with
  | case1 => exact .nil
  | case2 start c cs hzero ih => exact ih
  | case3 start c cs n hn ih =>
    refine .cons ?_ ih
    intro l hl
    have hstart := start_le_of_mem_findings hr hl
    simp only [Lexeme.stop, length_cons, length_take]
    omega

/-- The span of a lexeme, moved. -/
def Lexeme.spanFrom (base : Int) (l : Lexeme) : Span := ⟨base + l.start, base + l.stop⟩

/-- The fat tokens of a text leave no gap exactly when they are one run, by induction along the
search. -/
theorem tile_findings_iff (base : Int) (start : Nat) (s : List Char) :
    Span.Tile (base + start) (base + start + s.length)
        ((findings code.tokenLength start s).map (Lexeme.spanFrom base)) ↔
      code.runLength s = s.length := by
  fun_induction findings code.tokenLength start s with
  | case1 start => simp [Span.Tile]
  | case2 start c cs hzero ih =>
    have hrun : code.runLength (c :: cs) ≠ (c :: cs).length := by
      rw [Grammar.runLength_of_eq_zero hzero, length_cons]
      omega
    refine iff_of_false ?_ hrun
    cases hfound : findings code.tokenLength (start + 1) cs with
    | nil =>
      simp only [map_nil, Span.Tile, length_cons]
      omega
    | cons l ls =>
      have hmem : l ∈ findings code.tokenLength (start + 1) cs := by simp [hfound]
      have hstart := start_le_of_mem_findings Grammar.bounded_code_tokenLength hmem
      simp only [map_cons, Span.Tile, Lexeme.spanFrom, not_and]
      omega
  | case3 start c cs n hn ih =>
    have hbound := Grammar.bounded_code_tokenLength (c :: cs)
    rw [hn, length_cons] at hbound
    have hlen : (c :: cs.take n).length = n + 1 := by
      rw [length_cons, length_take]
      omega
    have hnext : base + ((start + n + 1 : Nat) : Int) = base + ((start + (n + 1) : Nat) : Int) := rfl
    have hstop : base + ((start + n + 1 : Nat) : Int) + ((cs.drop n).length : Int) =
        base + (start : Int) + ((c :: cs).length : Int) := by
      simp only [length_drop, length_cons]
      omega
    rw [hstop] at ih
    simp only [map_cons, Span.Tile, Lexeme.spanFrom, Lexeme.stop, hlen, true_and]
    rw [← hnext, ih, Grammar.runLength_of_eq_succ hn, drop_succ_cons, length_drop,
      length_cons]
    omega

end Lex

/-! ## Tokens -/

namespace Token

variable {s : List Char}

/-- The token that the first characters of a text form. -/
def ofFront (s : List Char) (n : Nat) (base : Int) : Token :=
  ⟨0, ⟨base, base + n⟩, String.ofList (s.take n), none⟩

section

variable (s : List Char) (n : Nat) (base : Int)

@[simp] theorem chars_ofFront : (ofFront s n base).chars = s.take n := by
  simp [ofFront, chars]

@[simp] theorem span_ofFront : (ofFront s n base).span = ⟨base, base + n⟩ := rfl

theorem scan_nil : scan [] base = [] := by
  simp [scan, ofLexemes, findings]

end

theorem scan_of_eq_succ {n : Nat} (h : code.tokenLength s = n + 1) (base : Int) :
    scan s base = ofFront s (n + 1) base ::
      (scan (s.drop (n + 1)) (base + (n + 1))).map fun t => { t with idx := t.idx + 1 } := by
  cases s with
  | nil => simp at h
  | cons c cs =>
    have hbound := Grammar.bounded_code_tokenLength (c :: cs)
    rw [h, length_cons] at hbound
    have hlen : (c :: cs.take n).length = n + 1 := by
      rw [length_cons, length_take]
      omega
    rw [scan, findings, h]
    simp only [Nat.zero_add]
    rw [show n + 1 = 0 + (n + 1) by omega, findings_add, ofLexemes, mapIdx_cons]
    simp only [Nat.zero_add, List.cons.injEq]
    refine ⟨by simp [ofFront, Lexeme.stop, hlen], ?_⟩
    apply ext_getElem
    · simp [scan, ofLexemes]
    · intro i hi hi'
      simp only [scan, ofLexemes, Lexeme.stop, getElem_mapIdx, getElem_map,
        drop_succ_cons, Token.mk.injEq, Span.mk.injEq, and_true, true_and]
      omega

theorem head?_scan (hpos : 0 < code.tokenLength s) (base : Int) :
    (scan s base).head? = some (ofFront s (code.tokenLength s) base) := by
  obtain ⟨n, hn⟩ := Nat.exists_eq_succ_of_ne_zero (Nat.ne_of_gt hpos)
  rw [scan_of_eq_succ hn, hn, head?_cons]

section

variable (s : List Char) (base : Int)

theorem map_span_scan : (scan s base).map Token.span =
      (findings code.tokenLength 0 s).map (Lexeme.spanFrom base) := by
  apply ext_getElem
  · simp [scan, ofLexemes]
  · intro i hi hi'
    simp [scan, ofLexemes, Lexeme.spanFrom]

theorem map_idx_scan : (scan s base).map Token.idx = List.range (scan s base).length := by
  apply ext_getElem
  · simp
  · intro i hi hi'
    simp [scan, ofLexemes]

theorem pairwise_scan : (scan s base).Pairwise fun a b => a.span.stop ≤ b.span.start := by
  have hpairs : ((scan s base).map Token.span).Pairwise fun a b => a.stop ≤ b.start := by
    rw [map_span_scan, pairwise_map]
    apply (pairwise_findings Grammar.bounded_code_tokenLength 0 s).imp
    intro a b hab
    simp only [Lexeme.spanFrom]
    omega
  exact pairwise_map.mp hpairs

theorem tile_scan_iff : Span.Tile base (base + s.length) ((scan s base).map Token.span) ↔
      code.runLength s = s.length := by
  have h := tile_findings_iff base 0 s
  simp only [Int.natCast_zero, Int.add_zero] at h
  rw [map_span_scan, h]

end

/-- The character that closes a token which starts like a block. -/
def closer? (t : Token) : Option Char := t.chars.head?.bind closerOf

theorem block_of_mem_scan {base : Int} {t : Token} (h : t ∈ scan s base) {d : Char}
    (hcloser : t.closer? = some d) :
    (∃ c, closerOf c = some d ∧ t.chars = c :: (Text.interior t.chars ++ [d])) ∧
      code.runLength (Text.interior t.chars) = (Text.interior t.chars).length := by
  obtain ⟨front, rear, _, _, hne, hlen, _⟩ := found_of_mem_scan h
  obtain ⟨c, cs, hchars⟩ := exists_cons_of_ne_nil hne
  have hc : closerOf c = some d := by simpa [closer?, hchars] using hcloser
  have hself := Grammar.tokenLength_self hne hlen
  rw [hchars] at hself
  obtain ⟨inside, rest, rfl, hrun, hblock⟩ :=
    Grammar.block_of_tokenLength hc (by rw [hself]; simp)
  -- the block takes the whole token, so that nothing stands behind its closer
  have hrest : rest = [] := by
    rw [hself] at hblock
    simp only [length_cons, length_append] at hblock
    exact eq_nil_of_length_eq_zero (by omega)
  subst hrest
  have hinterior : Text.interior t.chars = inside := by simp [hchars, Text.interior]
  rw [hinterior]
  exact ⟨⟨c, hc, hchars⟩, Grammar.runLength_self hrun⟩

/-- Tokens are numbered, not empty, one behind the other, the slices at their spans, and tokens on
their own. -/
structure Tokenized (s : List Char) (base : Int) : Prop where
  numbered : (scan s base).map Token.idx = List.range (scan s base).length
  nonempty : ∀ t ∈ scan s base, t.value ≠ ""
  ordered : (scan s base).Pairwise fun a b => a.span.stop ≤ b.span.start
  inText : ∀ t ∈ scan s base,
    base ≤ t.span.start ∧ t.span.start < t.span.stop ∧ t.span.stop ≤ base + s.length
  sliced : ∀ t ∈ scan s base, slice s (t.span.start - base) (t.span.stop - base) = t.chars
  alone : ∀ t ∈ scan s base, ∀ base' : Int,
    scan t.chars base' = [⟨0, ⟨base', base' + t.chars.length⟩, t.value, none⟩]

theorem tokenized (s : List Char) (base : Int) : Tokenized s base where
  numbered := map_idx_scan s base
  ordered := pairwise_scan s base
  nonempty := by
    intro t ht hempty
    obtain ⟨_, _, _, _, hne, _⟩ := found_of_mem_scan ht
    exact hne (by simp [chars, hempty])
  inText := by
    intro t ht
    obtain ⟨front, rear, rfl, hspan, hne, _⟩ := found_of_mem_scan ht
    have hpos := length_pos_iff.mpr hne
    simp only [hspan, length_append]
    omega
  sliced := by
    intro t ht
    obtain ⟨front, rear, hs, hspan, _⟩ := found_of_mem_scan ht
    have hplace : StandsAt s front.length t.chars := ⟨front, rear, hs, rfl⟩
    have hslice := hplace.slice_eq
    rwa [hspan, show base + (front.length : Int) - base = front.length by omega,
      show base + (front.length : Int) + t.chars.length - base = front.length + t.chars.length by
        omega]
  alone := by
    intro t ht base'
    obtain ⟨front, rear, _, _, hne, hlen, _⟩ := found_of_mem_scan ht
    have hself := Grammar.tokenLength_self hne hlen
    rw [scan, findings_self hne hself]
    simp [ofLexemes, Lexeme.stop, chars]

/-- Each block token ends with the closer and has an inside covered by tokens, of which all this
holds again. -/
inductive Layered : List Char → Int → Prop where
  | intro {s : List Char} {base : Int} (tokens : Tokenized s base)
      (closed : ∀ t ∈ scan s base, ∀ d, t.closer? = some d →
        ∃ c, closerOf c = some d ∧ t.chars = c :: (Text.interior t.chars ++ [d]))
      (covered : ∀ t ∈ scan s base, ∀ d, t.closer? = some d →
        Span.Tile (t.span.start + 1) (t.span.stop - 1)
          ((scan (Text.interior t.chars) (t.span.start + 1)).map Token.span))
      (inside : ∀ t ∈ scan s base, ∀ d, t.closer? = some d →
        Layered (Text.interior t.chars) (t.span.start + 1)) : Layered s base

/-- Every text is read in layers. The induction is on the length of the text, as insides are
shorter. -/
theorem layered_scan (s : List Char) (base : Int) : Layered s base := by
  induction hsize : s.length using Nat.strongRecOn generalizing s base with
  | ind size ih =>
    refine .intro (tokenized s base) ?_ ?_ ?_
    · intro t ht d hd
      exact (block_of_mem_scan ht hd).1
    · intro t ht d hd
      obtain ⟨⟨c, _, hchars⟩, hrun⟩ := block_of_mem_scan ht hd
      obtain ⟨front, rear, _, hspan, _⟩ := found_of_mem_scan ht
      have hstop : t.span.stop - 1 = t.span.start + 1 + (Text.interior t.chars).length := by
        have hlen := congrArg List.length hchars
        simp only [length_cons, length_append, length_nil] at hlen
        simp only [hspan]
        omega
      rw [hstop]
      exact (tile_scan_iff _ _).mpr hrun
    · intro t ht d hd
      obtain ⟨⟨c, _, hchars⟩, _⟩ := block_of_mem_scan ht hd
      obtain ⟨front, rear, hs, _⟩ := found_of_mem_scan ht
      have hlen := congrArg List.length hchars
      have htext := congrArg List.length hs
      simp only [length_cons, length_append, length_nil] at hlen htext
      exact ih _ (by omega) _ _ rfl

end Token

/-! ## Lines -/

theorem Text.forall_mem_of_runLength {p : Char → Bool} {piece rest : List Char}
    (h : runLength p (piece ++ rest) = piece.length) : ∀ c ∈ piece, p c = true := by
  have hrun : (piece ++ rest).takeWhile p = piece :=
    (prefix_of_prefix_length_le (List.takeWhile_prefix _)
      (prefix_append piece rest) (Nat.le_of_eq h)).eq_of_length h
  rw [← hrun]
  exact all_eq_true.mp all_takeWhile

namespace Lex

variable {c : Char}

/-- A character that is never passed over stands in front of a lexeme as often as in those before
it. -/
theorem count_take_findings {r : Rule} (hr : r.Bounded) (hc : ∀ cs, r (c :: cs) ≠ 0) {start : Nat}
    {s : List Char} {front rear : List Lexeme} {l : Lexeme}
    (h : findings r start s = front ++ l :: rear) :
    (s.take (l.start - start)).count c = (front.flatMap Lexeme.chars).count c := by
  fun_induction findings r start s generalizing front with
  | case1 start => exact absurd h.symm (by simp)
  | case2 start d ds hzero ih =>
    have hd : d ≠ c := by
      rintro rfl
      exact hc ds hzero
    have hmem : l ∈ findings r (start + 1) ds := by simp [h]
    obtain ⟨before, _, _, hstart, _⟩ := found_of_mem_findings hr hmem
    rw [show l.start - start = l.start - (start + 1) + 1 by omega, take_succ_cons,
      count_cons_of_ne hd]
    exact ih h
  | case3 start d ds n hn ih =>
    cases front with
    | nil =>
      obtain ⟨rfl, -⟩ := List.cons.inj h
      simp
    | cons x front =>
      obtain ⟨rfl, hrest⟩ := List.cons.inj h
      have hmem : l ∈ findings r (start + n + 1) (ds.drop n) := by simp [hrest]
      obtain ⟨before, _, _, hstart, _⟩ := found_of_mem_findings hr hmem
      have htake : (d :: ds).take (l.start - start) =
          (d :: ds.take n) ++ (ds.drop n).take (l.start - (start + n + 1)) := by
        rw [show l.start - start = n + (l.start - (start + n + 1)) + 1 by omega,
          take_succ_cons, take_add, cons_append]
      rw [htake, count_append, ih hrest, flatMap_cons, count_append]

theorem tokenLength_of_isBlank (hc : isBlank c = true) (cs : List Char) :
    code.tokenLength (c :: cs) = Text.runLength isBlank (c :: cs) := by
  have hrun : ∃ n, Text.runLength isBlank (c :: cs) = n + 1 := by
    simp [Text.runLength, hc]
  obtain ⟨n, hn⟩ := hrun
  have hlate : code.late (c :: cs) = n + 1 := by
    show firstOf [lineBreak, Text.runLength isBlank, escape, operator, word] (c :: cs) = n + 1
    have hlineBreak : lineBreak (c :: cs) = 0 := by
      simp only [isBlank, Bool.or_eq_true, beq_iff_eq] at hc
      rcases hc with (rfl | rfl) | rfl <;> rfl
    simp only [firstOf, hlineBreak, hn]
  rw [hn, Grammar.tokenLength_of_closerOf_eq_none, firstOf_pair, early_eq_zero, if_pos rfl, hlate]
  all_goals
    simp only [isBlank, Bool.or_eq_true, beq_iff_eq] at hc
    rcases hc with (rfl | rfl) | rfl
  all_goals decide

theorem tokenLength_lineBreak (cs : List Char) : code.tokenLength ('\n' :: cs) = 1 := by
  rw [Grammar.tokenLength_of_closerOf_eq_none rfl, firstOf_pair,
    early_eq_zero (by decide), if_pos rfl]
  rfl

end Lex

theorem Kind.exists_cons_of_space {text : String} (h : ofText text = .space) :
    ∃ c cs, text.toList = c :: cs ∧ (isBlank c = true ∨ c = '\n') := by
  obtain ⟨c, cs, htext, hc⟩ := exists_cons_of_ofText h (by decide)
  exact ⟨c, cs, htext, by simpa [mayStart] using hc⟩

namespace Token

variable {s : List Char} {base : Int} {front rear : List Token} {t : Token}

theorem flatMap_chars_ofLexemes (base : Int) (ls : List Lex.Lexeme) :
    (ofLexemes base ls).flatMap chars = ls.flatMap Lex.Lexeme.chars := by
  have hmap : (ofLexemes base ls).map chars = ls.map Lex.Lexeme.chars := by
    apply ext_getElem
    · simp [ofLexemes]
    · intro i hi hi'
      simp [ofLexemes, chars]
  rw [flatMap_def, flatMap_def, hmap]

theorem lineNumber_start (h : scan s base = front ++ t :: rear) :
    lineNumber s (some (t.span.start - base)) = (front.flatMap chars).count '\n' + 1 := by
  obtain ⟨before, behind, hfound, rfl, hbehind⟩ := mapIdx_eq_append_iff.mp h
  obtain ⟨l, behind, rfl, rfl, -⟩ := mapIdx_eq_cons_iff.mp hbehind
  have hmem : l ∈ Lex.findings Lex.code.tokenLength 0 s := by simp [hfound]
  obtain ⟨gap, rest, hs, hstart, _⟩ :=
    Lex.found_of_mem_findings Lex.Grammar.bounded_code_tokenLength hmem
  have hcount := Lex.count_take_findings Lex.Grammar.bounded_code_tokenLength (c := '\n')
    (fun cs => by rw [Lex.tokenLength_lineBreak]; decide) hfound
  have hbound : clampBound s.length (base + (l.start : Int) - base) = l.start - 0 := by
    have hlength := congrArg List.length hs
    simp only [length_append] at hlength
    rw [clampBound, if_neg (by omega)]
    omega
  rw [← ofLexemes, flatMap_chars_ofLexemes, ← hcount]
  simp only [lineNumber, hbound]

theorem lineNumber_stop (h : scan s base = front ++ t :: rear) :
    lineNumber s (some (t.span.stop - base)) = ((front ++ [t]).flatMap chars).count '\n' + 1 := by
  have hmem : t ∈ scan s base := by simp [h]
  have hfront := lineNumber_start h
  obtain ⟨before, behind, rfl, hspan, -⟩ := found_of_mem_scan hmem
  have hstart : clampBound (before ++ (t.chars ++ behind)).length (t.span.start - base) =
      before.length := by
    simp only [hspan, clampBound, length_append]
    rw [if_neg (by omega)]
    omega
  have hstop : clampBound (before ++ (t.chars ++ behind)).length (t.span.stop - base) =
      before.length + t.chars.length := by
    simp only [hspan, clampBound, length_append]
    rw [if_neg (by omega)]
    omega
  simp only [lineNumber, hstart, hstop, take_left, take_length_add_append] at hfront ⊢
  rw [count_append, flatMap_append, flatMap_singleton, count_append]
  omega

theorem value_eq_of_space (h : t ∈ scan s base) (hkind : t.kind = .space)
    (hbreak : '\n' ∈ t.chars) : t.value = "\n" := by
  obtain ⟨front, rear, -, -, -, hlen, -⟩ := found_of_mem_scan h
  rw [(standsIn_of_mem_scan h).kind_eq] at hkind
  obtain ⟨c, cs, hchars, hc⟩ := Kind.exists_cons_of_space hkind
  change t.chars = c :: cs at hchars
  rcases hc with hc | rfl
  · rw [hchars, cons_append, Lex.tokenLength_of_isBlank hc, ← cons_append] at hlen
    rw [hchars] at hbreak
    exact absurd (forall_mem_of_runLength hlen _ hbreak) (by decide)
  · rw [hchars, cons_append, Lex.tokenLength_lineBreak, length_cons] at hlen
    have hcs : cs = [] := eq_nil_of_length_eq_zero (by omega)
    rw [← String.ofList_toList (s := t.value), ← chars, hchars, hcs]

/-- A token starts on a later line than another one ends on exactly if one between them holds a line
break. -/
theorem lineNumber_lt_iff {mid : List Token} {u : Token}
    (h : (scan s base).map settled = front ++ t :: (mid ++ u :: rear)) :
    lineNumber s (some (t.span.stop - base)) < lineNumber s (some (u.span.start - base)) ↔
      ∃ v ∈ mid, '\n' ∈ v.chars := by
  obtain ⟨front, behind, hl, rfl, ht⟩ := map_eq_append_iff.mp h
  obtain ⟨t, behind, rfl, rfl, hmid⟩ := map_eq_cons_iff.mp ht
  obtain ⟨mid, behind, rfl, rfl, hu⟩ := map_eq_append_iff.mp hmid
  obtain ⟨u, rear, rfl, rfl, rfl⟩ := map_eq_cons_iff.mp hu
  have hu : scan s base = (front ++ [t]) ++ mid ++ u :: rear := by
    rw [hl, append_assoc, append_assoc, singleton_append]
  have hbreaks : (∃ v ∈ mid.map settled, '\n' ∈ v.chars) ↔ 0 < (mid.flatMap chars).count '\n' := by
    simp [count_pos_iff, settled, chars]
  have hsum : ((front ++ [t] ++ mid).flatMap chars).count '\n' =
      ((front ++ [t]).flatMap chars).count '\n' + (mid.flatMap chars).count '\n' := by
    rw [flatMap_append, count_append]
  rw [hbreaks]
  show lineNumber s (some (t.span.stop - base)) < lineNumber s (some (u.span.start - base)) ↔ _
  rw [lineNumber_stop hl, lineNumber_start hu, hsum]
  omega

end Token

end CBoundary
