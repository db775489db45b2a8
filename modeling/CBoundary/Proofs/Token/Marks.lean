import CBoundary.Proofs.Token.Layers

/-!
# Operators and comments

The rule for operators takes the first entry of its list that the text starts with.  Inside a block
comment a star takes its right neighbour with it, so that a run of stars in front of a slash is read
in pairs.
-/

namespace CBoundary

open List

/-! ## Operators -/

/-- The operator is the longest one that the text starts with. -/
structure Kind.IsLongest (s op : List Char) : Prop where
  mem : op ∈ operators.map String.toList
  starts : op <+: s
  longest : ∀ o ∈ operators.map String.toList, o <+: s → o.length ≤ op.length

namespace Lex

variable {s op o : List Char}

theorem pairwise_operators :
    operators.Pairwise fun op o => op <+: o → op = o ∨ op = ['!'] ∧ o = ['!', '='] := by
  decide +kernel

theorem mem_operators_of_kind : ∀ op ∈ Kind.operators.map String.toList, op ∈ operators := by
  decide +kernel

/-- The operator that is found is the longest, unless it starts the sign for inequality. -/
theorem length_le_of_find? (hfind : operators.find? (·.isPrefixOf s) = some op) (ho : o ∈ operators)
    (hstarts : o <+: s) (hne : ¬ ['!', '='] <+: s) : o.length ≤ op.length := by
  obtain ⟨hop, before, behind, hlist, hbefore⟩ := find?_eq_some_iff_append.mp hfind
  have hop : op <+: s := List.isPrefixOf_iff_prefix.mp hop
  by_contra hlonger
  have hpart : op <+: o := prefix_of_prefix_length_le hop hstarts (by omega)
  rw [hlist] at ho
  rcases mem_append.mp ho with hearlier | hlater
  · have hnot := hbefore o hearlier
    simp [List.isPrefixOf_iff_prefix.mpr hstarts] at hnot
  · rcases mem_cons.mp hlater with rfl | hlater
    · exact hlonger (Nat.le_refl _)
    · have hpairs := hlist ▸ pairwise_operators
      have hpair := (pairwise_cons.mp (pairwise_append.mp hpairs).2.1).1 o hlater hpart
      rcases hpair with rfl | ⟨-, rfl⟩
      · exact hlonger (Nat.le_refl _)
      · exact hne hstarts

theorem find?_of_tokenLength {rear : List Char} (hop : op ∈ operators)
    (h : code.tokenLength (op ++ rear) = op.length) :
    operators.find? (·.isPrefixOf (op ++ rear)) = some op := by
  have hothers : operators.all (fun op => op != [] && (op.head?.bind closerOf).isNone &&
      [code.early, lineBreak, blanks, escape, word].all (· op == 0)) = true := by decide +kernel
  have hnone := all_eq_true.mp hothers op hop
  simp only [Bool.and_eq_true, bne_iff_ne, Option.isNone_iff_eq_none, all_eq_true, beq_iff_eq] at hnone
  obtain ⟨⟨hne, hcloser⟩, hzero⟩ := hnone
  have hpos := length_pos_iff.mpr hne
  have hother (r : Rule) (hr : r ∈ [code.early, lineBreak, blanks, escape, word])
      (hsteady : r.Steady) (hfound : r (op ++ rear) = op.length) : False := by
    have hcut := hsteady.cut (by omega) (Nat.le_of_eq hfound)
    have := hzero r hr
    omega
  have hfound : operator (op ++ rear) = op.length := by
    obtain ⟨c, cs, rfl⟩ := exists_cons_of_ne_nil hne
    rw [cons_append, Grammar.tokenLength_of_closerOf_eq_none hcloser] at h
    obtain ⟨r, hr, hrule⟩ := exists_of_firstOf h
    simp only [mem_cons, not_mem_nil, or_false] at hr
    rcases hr with rfl | rfl
    · exact (hother _ (by simp) steady_code_early hrule).elim
    · obtain ⟨r, hr, hrule⟩ := exists_of_firstOf hrule
      simp only [mem_cons, not_mem_nil, or_false] at hr
      rcases hr with rfl | rfl | rfl | rfl | rfl
      · exact (hother _ (by simp) reads_lineBreak.steady hrule).elim
      · exact (hother blanks (by simp) (steady_runLength _) hrule).elim
      · exact (hother _ (by simp) reads_escape.steady hrule).elim
      · exact hrule
      · exact (hother word (by simp) (steady_runLength _) hrule).elim
  unfold operator spelling at hfound
  split at hfound
  · rename_i found hfind
    have hstarts : found <+: op ++ rear := by simpa using find?_some hfind
    have hpart := prefix_of_prefix_length_le hstarts (prefix_append op rear) (Nat.le_of_eq hfound)
    rw [hfind, hpart.eq_of_length hfound]
  · omega

end Lex

namespace Token

variable {s : List Char} {base : Int} {t : Token}

theorem value_mem_operators (h : t ∈ scan s base)
    (hkind : t.kind = .operator ∨ t.kind = .separator) :
    t.chars ∈ Kind.operators.map String.toList := by
  rw [(standsIn_of_mem_scan h).kind_eq] at hkind
  refine mem_map.mpr ⟨t.value, ?_, rfl⟩
  by_contra hnot
  have hseparator : (t.value == "," || t.value == ";") = false := by
    simp only [Bool.or_eq_false_iff, beq_eq_false_iff_ne]
    constructor <;> intro hvalue <;> exact hnot (hvalue ▸ by decide)
  have hoperator : Kind.operators.contains t.value = false := by simpa using hnot
  unfold Kind.ofText at hkind
  split at hkind
  · simp at hkind
  · simp only [hseparator, hoperator, Bool.false_eq_true, if_false] at hkind
    repeat' split at hkind
    all_goals simp at hkind

/-- An operator token is the longest at its place exactly if the sign for inequality is not there.
-/
theorem isLongest_iff_of_mem_scan (h : t ∈ scan s base)
    (hkind : t.kind = .operator ∨ t.kind = .separator) :
    Kind.IsLongest (s.drop (t.span.start - base).toNat) t.chars ↔
      ¬ "!=".toList <+: s.drop (t.span.start - base).toNat := by
  have hop := value_mem_operators h hkind
  obtain ⟨front, rear, rfl, hspan, -, hlen, -⟩ := found_of_mem_scan h
  have hplace : (t.span.start - base).toNat = front.length := by
    simp only [hspan]
    omega
  have hfind := Lex.find?_of_tokenLength (Lex.mem_operators_of_kind _ hop) hlen
  rw [hplace, drop_left]
  constructor
  · rintro hlongest ⟨rest, hrest⟩
    -- the exclamation mark comes first in the list
    have hmark : Lex.operators.find? (·.isPrefixOf ("!=".toList ++ rest)) = some ['!'] := rfl
    rw [hrest, hfind] at hmark
    have hle := hlongest.longest ['!', '='] (by decide) ⟨rest, hrest⟩
    rw [Option.some.inj hmark] at hle
    exact absurd hle (by decide)
  · exact fun hne => ⟨hop, prefix_append _ _, fun o ho hstarts =>
      Lex.length_le_of_find? hfind (Lex.mem_operators_of_kind o ho) hstarts hne⟩

/-- In `!a != b` the first operator is the longest one, and the second is not. -/
theorem isLongest_iff_of_mem_scan_unequal :
    (⟨0, ⟨0, 1⟩, "!", none⟩ ∈ scan "!a!=b".toList 0 ∧ Kind.IsLongest "!a!=b".toList ['!']) ∧
      ⟨2, ⟨2, 3⟩, "!", none⟩ ∈ scan "!a!=b".toList 0 ∧ ¬ Kind.IsLongest "!=b".toList ['!'] := by
  have hscan : scan "!a!=b".toList 0 = [⟨0, ⟨0, 1⟩, "!", none⟩, ⟨1, ⟨1, 2⟩, "a", none⟩,
      ⟨2, ⟨2, 3⟩, "!", none⟩, ⟨3, ⟨3, 4⟩, "=", none⟩, ⟨4, ⟨4, 5⟩, "b", none⟩] := by
    decide +kernel
  have hfirst : (⟨0, ⟨0, 1⟩, "!", none⟩ : Token) ∈ scan "!a!=b".toList 0 := by
    rw [hscan]
    exact mem_cons_self
  have hsecond : (⟨2, ⟨2, 3⟩, "!", none⟩ : Token) ∈ scan "!a!=b".toList 0 := by
    rw [hscan]
    simp
  exact ⟨⟨hfirst, (isLongest_iff_of_mem_scan hfirst (.inl (by decide))).mpr (by decide)⟩, hsecond,
    fun hlongest => (isLongest_iff_of_mem_scan hsecond (.inl (by decide))).mp hlongest (by decide)⟩

end Token

open CBoundary.Lex

namespace Lex

variable {inside : List Char}

/-! ## Inside a comment -/

theorem Commented.append {a b : List Char} (ha : Commented a) (hb : Commented b) :
    Commented (a ++ b) := by
  induction ha with
  | nil => exact hb
  | plain hstar _ ih => exact .plain hstar ih
  | pair hslash _ ih => exact .pair hslash ih

theorem commented_of_no_end {x : List Char} (hnone : ¬ ['*', '/'] <:+: x)
    (hlast : x.getLast? ≠ some '*') : Commented x := by
  fun_induction commentRun x with
  | case1 => exact .nil
  | case2 => simp at hlast
  | case3 c hc => exact .plain hc .nil
  | case4 cs => exact absurd (prefix_append ['*', '/'] cs).isInfix hnone
  | case5 d cs hslash ih =>
    apply Commented.pair hslash
    apply ih
    · intro h
      exact hnone (h.trans ⟨['*', d], [], by simp⟩)
    · cases cs <;> simp_all
  | case6 c d cs hstar ih =>
    apply Commented.plain hstar
    apply ih
    · intro h
      exact hnone (h.trans ⟨[c], [], by simp⟩)
    · simpa using hlast

theorem commented_replicate (k : Nat) : Commented (List.replicate (2 * k) '*') := by
  induction k with
  | zero => exact .nil
  | succ k ih =>
    rw [show 2 * (k + 1) = 2 * k + 1 + 1 by omega, replicate_succ, replicate_succ]
    exact .pair (by decide) ih

/-- How many stars end a text. -/
def starsAtEnd (s : List Char) : Nat := Text.runLength (· == '*') s.reverse

theorem exists_front_of_starsAtEnd (s : List Char) :
    ∃ front, s = front ++ List.replicate (starsAtEnd s) '*' ∧ front.getLast? ≠ some '*' := by
  refine ⟨(s.reverse.dropWhile (· == '*')).reverse, ?_, ?_⟩
  · have hstars : s.reverse.takeWhile (· == '*') = List.replicate (starsAtEnd s) '*' := by
      apply eq_replicate_iff.mpr
      refine ⟨rfl, ?_⟩
      intro c hc
      simpa using all_eq_true.mp all_takeWhile c hc
    calc s = (s.reverse.takeWhile (· == '*') ++ s.reverse.dropWhile (· == '*')).reverse := by
          rw [takeWhile_append_dropWhile, reverse_reverse]
      _ = _ := by rw [reverse_append, hstars, reverse_replicate]
  · rw [getLast?_reverse]
    intro hhead
    have hnot := head?_dropWhile_not (· == '*') s.reverse
    rw [hhead] at hnot
    simp at hnot

section

variable (hfirst : ¬ ['*', '/'] <:+: inside ++ ['*'])

include hfirst

/-- In front of the first `*/` all but the last stars are passed over, however many. -/
theorem exists_commented_front :
    ∃ front, Commented front ∧ inside = front ++ List.replicate (starsAtEnd inside) '*' := by
  obtain ⟨front, hinside, hlast⟩ := exists_front_of_starsAtEnd inside
  refine ⟨front, commented_of_no_end ?_ hlast, hinside⟩
  intro h
  apply hfirst
  rw [hinside, append_assoc]
  exact h.trans (prefix_append front _).isInfix

theorem commented_of_even (heven : starsAtEnd inside % 2 = 0) : Commented inside := by
  obtain ⟨front, hfront, hinside⟩ := exists_commented_front hfirst
  obtain ⟨k, hk⟩ : ∃ k, starsAtEnd inside = 2 * k := ⟨starsAtEnd inside / 2, by omega⟩
  rw [hinside, hk]
  exact hfront.append (commented_replicate k)

/-- The last of an odd number takes the star of the `*/` with it, and the slash is passed over. -/
theorem commented_of_odd (hodd : starsAtEnd inside % 2 = 1) :
    Commented (inside ++ ['*', '/']) := by
  obtain ⟨front, hfront, hinside⟩ := exists_commented_front hfirst
  obtain ⟨k, hk⟩ : ∃ k, starsAtEnd inside = 2 * k + 1 := ⟨starsAtEnd inside / 2, by omega⟩
  have hpair : Commented (['*'] ++ ['*', '/']) := .pair (by decide) (.plain (by decide) .nil)
  rw [hinside, hk, replicate_succ', append_assoc, append_assoc]
  exact hfront.append ((commented_replicate k).append hpair)

omit hfirst

/-- A comment whose inside goes on: it ends where one that is opened behind it ends. -/
theorem blockComment_append (h : Commented inside) (rest : List Char) :
    blockComment ('/' :: '*' :: (inside ++ rest)) =
      opened inside.length (blockComment ('/' :: '*' :: rest)) := by
  simp only [blockComment, h.commentRun_append, drop_length_add_append, and_self,
    if_true, opened]
  split
  · rw [if_neg (by omega)]
    omega
  · rfl

theorem four_le_blockComment {s : List Char} (h : blockComment s ≠ 0) : 4 ≤ blockComment s := by
  obtain ⟨n, hn⟩ := Nat.exists_eq_succ_of_ne_zero h
  obtain ⟨_, rest, _, hlen, inside, rfl, _⟩ := (reads_blockComment s n).mp hn
  simp only [length_cons, length_append, length_nil] at hlen
  omega

theorem tokenLength_blockComment (cs : List Char) : code.tokenLength ('/' :: '*' :: cs) =
      if blockComment ('/' :: '*' :: cs) = 0 then 1 else blockComment ('/' :: '*' :: cs) := by
  have hearly : code.early ('/' :: '*' :: cs) = blockComment ('/' :: '*' :: cs) := by
    have hnote : note ('/' :: '*' :: cs) = blockComment ('/' :: '*' :: cs) := by
      cases hn : blockComment ('/' :: '*' :: cs) <;>
        simp [note, firstOf, directive, lineComment, hn]
    have hliteral : literal ('/' :: '*' :: cs) = 0 := by
      simp [literal, firstOf, quoted]
    show firstOf [note, literal] _ = _
    rw [firstOf_pair, hnote, hliteral]
    split
    · rename_i hzero
      exact hzero.symm
    · rfl
  have hlate : code.late ('/' :: '*' :: cs) = 1 := rfl
  rw [Grammar.tokenLength_of_closerOf_eq_none rfl, firstOf_pair, hearly, hlate]

theorem tokenLength_blockComment_pos (cs : List Char) :
    0 < code.tokenLength ('/' :: '*' :: cs) := by
  rw [tokenLength_blockComment]
  split <;> omega

include hfirst

theorem tokenLength_of_even (heven : starsAtEnd inside % 2 = 0) (rest : List Char) :
    code.tokenLength ('/' :: '*' :: (inside ++ '*' :: '/' :: rest)) = inside.length + 4 := by
  have hcomment := blockComment_append (commented_of_even hfirst heven) ('*' :: '/' :: rest)
  have hempty : blockComment ('/' :: '*' :: '*' :: '/' :: rest) = 4 := by
    simp [blockComment]
  rw [hempty, opened, if_neg (by decide)] at hcomment
  rw [tokenLength_blockComment, hcomment, if_neg (by omega)]

theorem tokenLength_of_odd (hodd : starsAtEnd inside % 2 = 1) (rest : List Char) :
    code.tokenLength ('/' :: '*' :: (inside ++ '*' :: '/' :: rest)) =
      if blockComment ('/' :: '*' :: rest) = 0 then 1
        else inside.length + 2 + blockComment ('/' :: '*' :: rest) := by
  have hcomment := blockComment_append (commented_of_odd hfirst hodd) rest
  rw [append_assoc, cons_append, singleton_append, length_append] at hcomment
  rw [tokenLength_blockComment, hcomment, opened]
  split <;> simp_all

end

end Lex

/-! ## The first token -/

namespace Token

/-- A text that starts with `/*` starts with the comment up to its first `*/` exactly if an even
number of stars stands in front of that. Otherwise the comment ends where one opened behind that
`*/` would end, and without such an end the first token is a slash. -/
theorem head?_scan_blockComment (inside rest : List Char) (base : Int)
    (hfirst : ¬ ['*', '/'] <:+: inside ++ ['*']) :
    ((scan ('/' :: '*' :: (inside ++ '*' :: '/' :: rest)) base).head? =
        some ⟨0, ⟨base, base + (inside.length + 4)⟩,
          String.ofList ('/' :: '*' :: (inside ++ ['*', '/'])), none⟩ ↔
      Lex.starsAtEnd inside % 2 = 0) ∧
    (Lex.starsAtEnd inside % 2 = 1 →
      (scan ('/' :: '*' :: (inside ++ '*' :: '/' :: rest)) base).head? =
        some (ofFront ('/' :: '*' :: (inside ++ '*' :: '/' :: rest))
          (if Lex.blockComment ('/' :: '*' :: rest) = 0 then 1
            else inside.length + 2 + Lex.blockComment ('/' :: '*' :: rest)) base)) := by
  rw [head?_scan (tokenLength_blockComment_pos _)]
  refine ⟨⟨fun hcomment => ?_, fun heven => ?_⟩, fun hodd => by rw [tokenLength_of_odd hfirst hodd]⟩
  · rcases Nat.mod_two_eq_zero_or_one (starsAtEnd inside) with heven | hodd
    · exact heven
    -- with an odd number the first token ends before or behind the first `*/`
    rw [tokenLength_of_odd hfirst hodd, Option.some.injEq] at hcomment
    have hstop := congrArg (fun t => t.span.stop) hcomment
    simp only [span_ofFront] at hstop
    split at hstop
    · omega
    · rename_i hne
      have hfour := four_le_blockComment hne
      omega
  · rw [tokenLength_of_even hfirst heven]
    simp [ofFront, take_length_add_append]

/-- With three stars between its slashes a comment goes on to the end of the next one. -/
theorem head?_scan_blockComment_three : ¬ ['*', '/'] <:+: ['*'] ++ ['*'] ∧
      (scan "/***/ x /* y */".toList 0).head? ≠ some ⟨0, ⟨0, 5⟩, "/***/", none⟩ ∧
      (scan "/***/ x /* y */".toList 0).head? = some ⟨0, ⟨0, 15⟩, "/***/ x /* y */", none⟩ := by
  have hfirst : ¬ ['*', '/'] <:+: ['*'] ++ ['*'] := by decide
  obtain ⟨hends, hgoesOn⟩ := head?_scan_blockComment ['*'] " x /* y */".toList 0 hfirst
  refine ⟨hfirst, ?_, ?_⟩
  · intro h
    exact absurd (hends.mp h) (by decide)
  · exact hgoesOn (by decide)

end Token

end CBoundary
