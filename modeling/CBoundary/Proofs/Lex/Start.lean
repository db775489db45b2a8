import CBoundary.Lex.Fat

/-!
# Where leaves start and what they are made of

A leaf is known by the character that it starts with.  No leaf starts with a bracket, so a
bracket starts a block or nothing, and the fat token at a character that opens no block is the
leaf there.
-/

namespace CBoundary.Lex

open CBoundary.Text List

variable {s cs : List Char} {n : Nat} {spellings : List (List Char)} {c d : Char}

theorem firstOf_eq_zero {rs : List Rule} (h : ∀ r ∈ rs, r s = 0) : firstOf rs s = 0 := by
  induction rs with
  | nil => rfl
  | cons r rs ih =>
    rw [firstOf, h r mem_cons_self]
    exact ih fun q hq => h q (mem_cons_of_mem r hq)

theorem firstOf_pair (q r : Rule) (s : List Char) :
    firstOf [q, r] s = if q s = 0 then r s else q s := by
  cases hq : q s <;> cases hr : r s <;> simp [firstOf, hq, hr]

theorem eq_zero_of_firstOf {rs : List Rule} (h : firstOf rs s = 0) : ∀ r ∈ rs, r s = 0 := by
  induction rs with
  | nil => exact fun r hr => absurd hr not_mem_nil
  | cons q rs ih =>
    unfold firstOf at h
    split at h
    · rename_i hq
      exact forall_mem_cons.mpr ⟨hq, ih h⟩
    · cases h

/-! ## Leaves -/

theorem early_eq_zero (h : c ∉ ['#', '/', '\"', '\'']) (cs : List Char) :
    code.early (c :: cs) = 0 := by
  simp only [mem_cons, not_mem_nil, or_false, not_or] at h
  obtain ⟨hhash, hslash, hdouble, hsingle⟩ := h
  have hnote : note (c :: cs) = 0 := by
    apply firstOf_eq_zero
    intro r hr
    simp only [mem_cons, not_mem_nil, or_false] at hr
    rcases hr with rfl | rfl | rfl
    · simp [directive, hhash]
    · cases cs <;> simp [lineComment, hslash]
    · cases cs <;> simp [blockComment, hslash]
  have hliteral : literal (c :: cs) = 0 := by
    apply firstOf_eq_zero
    intro r hr
    simp only [mem_cons, not_mem_nil, or_false] at hr
    rcases hr with rfl | rfl
    · simp [quoted, hdouble]
    · simp [quoted, hsingle]
  apply firstOf_eq_zero
  simp [hnote, hliteral]

theorem spelling_eq_zero (hne : ∀ op ∈ spellings, op ≠ [])
    (h : ∀ op ∈ spellings, op.head? ≠ some c) (cs : List Char) :
    spelling spellings (c :: cs) = 0 := by
  have hnone : spellings.find? (·.isPrefixOf (c :: cs)) = none := by
    apply find?_eq_none.mpr
    intro op hop hprefix
    obtain ⟨d, ds, rfl⟩ := exists_cons_of_ne_nil (hne op hop)
    have hd : d = c := (cons_prefix_cons.mp (List.isPrefixOf_iff_prefix.mp hprefix)).1
    exact h _ hop (by simp [hd])
  simp [spelling, hnone]

theorem operator_eq_zero (h : ∀ op ∈ operators, op.head? ≠ some c) (cs : List Char) :
    operator (c :: cs) = 0 := spelling_eq_zero (by decide) h cs

/-! ## Brackets -/

/-- Is it a bracket? -/
def isBracket (c : Char) : Bool := (closerOf c).isSome || (openerOf c).isSome

theorem isBracket_iff : isBracket c = true ↔ c ∈ ['(', '[', '\x7b', ')', ']', '\x7d'] := by
  unfold isBracket closerOf openerOf
  grind

theorem isBracket_of_closerOf (h : closerOf c = some d) : isBracket c = true := by
  simp [isBracket, h]

theorem isBracket_of_openerOf (h : openerOf d = some c) : isBracket d = true := by
  simp [isBracket, h]

theorem closerOf_eq_some_iff : closerOf c = some d ↔ openerOf d = some c := by
  constructor
  · intro h
    unfold closerOf at h
    split at h <;> cases h <;> rfl
  · intro h
    unfold openerOf at h
    split at h <;> cases h <;> rfl

theorem closerOf_closer (h : closerOf c = some d) : closerOf d = none := by
  unfold closerOf at h
  split at h <;> cases h <;> rfl

theorem early_of_isBracket (h : isBracket c = true) (cs : List Char) :
    code.early (c :: cs) = 0 := by
  apply early_eq_zero
  revert c
  simp only [isBracket_iff, mem_cons, not_mem_nil, or_false, forall_eq_or_imp, forall_eq]
  decide

/-- No leaf starts with a bracket. -/
theorem late_of_isBracket (h : isBracket c = true) (cs : List Char) : code.late (c :: cs) = 0 := by
  have hmem := isBracket_iff.mp h
  apply firstOf_eq_zero
  intro r hr
  simp only [mem_cons, not_mem_nil, or_false] at hmem hr
  rcases hr with rfl | rfl | rfl | rfl | rfl
  · rcases hmem with rfl | rfl | rfl | rfl | rfl | rfl <;> rfl
  · rcases hmem with rfl | rfl | rfl | rfl | rfl | rfl <;> rfl
  · cases cs with
    | nil => rfl
    | cons d ds => rcases hmem with rfl | rfl | rfl | rfl | rfl | rfl <;> rfl
  · apply operator_eq_zero
    rcases hmem with rfl | rfl | rfl | rfl | rfl | rfl <;> decide
  · rcases hmem with rfl | rfl | rfl | rfl | rfl | rfl <;> rfl

/-! ## What a rule takes -/

theorem exists_of_firstOf {rs : List Rule} (h : firstOf rs s = n + 1) : ∃ r ∈ rs, r s = n + 1 := by
  induction rs with
  | nil => cases h
  | cons r rs ih =>
    unfold firstOf at h
    split at h
    · obtain ⟨q, hq, hfound⟩ := ih h
      exact ⟨q, mem_cons_of_mem r hq, hfound⟩
    · rename_i m hm
      exact ⟨r, mem_cons_self, hm.trans h⟩

theorem take_of_spelling (h : spelling spellings s = n + 1) : s.take (n + 1) ∈ spellings := by
  unfold spelling at h
  split at h
  · rename_i op hfind
    have hfront := find?_some hfind
    rw [← h, ← prefix_iff_eq_take.mp (List.isPrefixOf_iff_prefix.mp hfront)]
    exact mem_of_find?_eq_some hfind
  · cases h

theorem of_mem_take_runLength {p : Char → Bool} (h : c ∈ s.take (Text.runLength p s)) :
    p c = true := by
  have hrun : s.take (Text.runLength p s) = s.takeWhile p :=
    (prefix_iff_eq_take.mp (List.takeWhile_prefix p)).symm
  rw [hrun] at h
  exact all_eq_true.mp all_takeWhile c h

theorem take_of_lineBreak (h : lineBreak s = n + 1) : s.take (n + 1) = ['\n'] := by
  unfold lineBreak at h
  split at h
  · split at h
    · rename_i hbreak
      cases h
      rw [hbreak]
      rfl
    · cases h
  · cases h

/-! ## Leaf characters -/

/-- The characters of operators. -/
def operatorChars : List Char := operators.flatten

theorem singleton_mem_operators (hc : c ∈ operatorChars) : [c] ∈ operators := by
  have hsingle : operatorChars.all (fun d => operators.contains [d]) = true := by decide +kernel
  exact contains_iff_mem.mp (all_eq_true.mp hsingle c hc)

/-- A character of a leaf that is neither a note nor a literal nor an escape. -/
def isLeafChar (c : Char) : Bool :=
  c == '\n' || isBlank c || operatorChars.contains c || isWordChar c

theorem isLeafChar_iff : isLeafChar c = true ↔
    c = '\n' ∨ isBlank c = true ∨ c ∈ operatorChars ∨ isWordChar c = true := by
  simp only [isLeafChar, Bool.or_eq_true, beq_iff_eq, contains_iff_mem, or_assoc]

theorem isLeafChar_eq_false (h : c ∈ ['#', '\"', '\'', '\\', '(', '[', '\x7b', ')', ']', '\x7d']) :
    isLeafChar c = false := by
  revert c
  simp only [mem_cons, not_mem_nil, or_false, forall_eq_or_imp, forall_eq]
  decide

theorem isBracket_eq_false (h : isLeafChar c = true) : isBracket c = false := by
  apply Bool.eq_false_iff.mpr
  intro hbracket
  have hmem := isBracket_iff.mp hbracket
  rw [isLeafChar_eq_false (mem_append_right ['#', '\"', '\'', '\\'] hmem)] at h
  cases h

theorem brackets_of_isWordChar (h : isWordChar c = true) :
    closerOf c = none ∧ openerOf c = none := by
  have hbracket := isBracket_eq_false (isLeafChar_iff.mpr (.inr (.inr (.inr h))))
  simpa [isBracket] using hbracket

theorem isWordChar_eq_false (h : isBracket c = true) : isWordChar c = false := by
  apply Bool.eq_false_iff.mpr
  intro hword
  rw [isBracket_eq_false (isLeafChar_iff.mpr (.inr (.inr (.inr hword))))] at h
  cases h

theorem late_eq (h : c ≠ '\\') (cs : List Char) :
    code.late (c :: cs) = firstOf [lineBreak, blanks, operator, word] (c :: cs) := by
  have hescape : escape (c :: cs) = 0 := by
    cases cs <;> simp [escape, h]
  show firstOf [lineBreak, blanks, escape, operator, word] (c :: cs) = _
  simp only [firstOf, hescape]

theorem isLeafChar_of_mem (hspellings : ∀ op ∈ spellings, ∀ c ∈ op, c ∈ operatorChars)
    (h : firstOf [lineBreak, blanks, spelling spellings, word] s = n + 1)
    (hc : c ∈ s.take (n + 1)) : isLeafChar c = true := by
  obtain ⟨r, hr, hfound⟩ := exists_of_firstOf h
  simp only [mem_cons, not_mem_nil, or_false] at hr
  rw [isLeafChar_iff]
  rcases hr with rfl | rfl | rfl | rfl
  · rw [take_of_lineBreak hfound] at hc
    exact .inl (mem_singleton.mp hc)
  · rw [← hfound] at hc
    exact .inr (.inl (of_mem_take_runLength hc))
  · exact .inr (.inr (.inl (hspellings _ (take_of_spelling hfound) c hc)))
  · rw [← hfound] at hc
    exact .inr (.inr (.inr (of_mem_take_runLength hc)))

theorem isLeafChar_of_late (hc : c ≠ '\\') (h : code.late (c :: cs) = n + 1) :
    ∀ d ∈ (c :: cs).take (n + 1), isLeafChar d = true := by
  rw [late_eq hc] at h
  exact fun d hd => isLeafChar_of_mem (fun op hop d hd => mem_flatten.mpr ⟨op, hop, hd⟩) h hd

theorem not_mem_tail_of_late (hc : c ≠ '\\') (h : code.late (c :: cs) = n + 1) :
    ∀ d ∈ cs.take n, d ≠ '/' ∧ d ≠ '*' := by
  rw [late_eq hc] at h
  intro d hd
  have hmem : d ∈ (c :: cs).take (n + 1) := mem_cons_of_mem c hd
  obtain ⟨r, hr, hfound⟩ := exists_of_firstOf h
  simp only [mem_cons, not_mem_nil, or_false] at hr
  rcases hr with rfl | rfl | rfl | rfl
  · have htail := congrArg tail (take_of_lineBreak hfound)
    change cs.take n = [] at htail
    rw [htail] at hd
    cases hd
  · rw [← hfound] at hmem
    have hblank : isBlank d = true := of_mem_take_runLength hmem
    constructor <;> rintro rfl <;> exact absurd hblank (by decide)
  · have hop : c :: cs.take n ∈ operators := take_of_spelling hfound
    have htails : ∀ op ∈ operators, '/' ∉ op.tail ∧ '*' ∉ op.tail := by decide
    exact ⟨fun hslash => (htails _ hop).1 (hslash ▸ hd), fun hstar => (htails _ hop).2 (hstar ▸ hd)⟩
  · rw [← hfound] at hmem
    have hword : isWordChar d = true := of_mem_take_runLength hmem
    constructor <;> rintro rfl <;> exact absurd hword (by decide)

/-! ## Fat tokens -/

namespace Grammar

variable {g : Grammar}

@[simp] theorem tokenLength_nil (g : Grammar) : g.tokenLength [] = 0 := by
  rw [tokenLength]

@[simp] theorem runLength_nil (g : Grammar) : g.runLength [] = 0 := by
  rw [runLength]

theorem runLength_of_eq_zero (h : g.tokenLength s = 0) : g.runLength s = 0 := by
  cases s with
  | nil => exact runLength_nil g
  | cons c cs => rw [runLength, h]

theorem runLength_of_eq_succ (h : g.tokenLength s = n + 1) :
    g.runLength s = n + 1 + g.runLength (s.drop (n + 1)) := by
  cases s with
  | nil => simp at h
  | cons c cs => rw [runLength, h, drop_succ_cons]

theorem drop_runLength_of_eq_succ (h : g.tokenLength s = n + 1) :
    s.drop (g.runLength s) = (s.drop (n + 1)).drop (g.runLength (s.drop (n + 1))) := by
  rw [runLength_of_eq_succ h, drop_drop]

/-- A run takes as many tokens as it can. -/
theorem tokenLength_drop_runLength (g : Grammar) (s : List Char) :
    g.tokenLength (s.drop (g.runLength s)) = 0 := by
  induction hsize : s.length using Nat.strongRecOn generalizing s with
  | ind size ih =>
    subst hsize
    cases htoken : g.tokenLength s with
    | zero => rw [runLength_of_eq_zero htoken, drop_zero, htoken]
    | succ n =>
      cases s with
      | nil => simp at htoken
      | cons c cs =>
        rw [drop_runLength_of_eq_succ htoken]
        refine ih _ ?_ _ rfl
        simp only [drop_succ_cons, length_drop, length_cons]
        omega

theorem tokenLength_of_closerOf (h : closerOf c = some d) (cs : List Char) :
    code.tokenLength (c :: cs) =
      if (cs.drop (code.runLength cs)).head? = some d then code.runLength cs + 2 else 0 := by
  have hbracket := isBracket_of_closerOf h
  have hcloser : code.closer c = some d := h
  rw [tokenLength, early_of_isBracket hbracket, hcloser]
  simp only [late_of_isBracket hbracket]

theorem tokenLength_of_closerOf_eq_none (h : closerOf c = none) (cs : List Char) :
    code.tokenLength (c :: cs) = firstOf [code.early, code.late] (c :: cs) := by
  have hcloser : code.closer c = none := h
  rw [tokenLength, hcloser, firstOf_pair]
  cases code.early (c :: cs) <;> simp

theorem tokenLength_of_isBracket (hc : isBracket c = true) (h : closerOf c = none)
    (cs : List Char) : code.tokenLength (c :: cs) = 0 := by
  rw [tokenLength_of_closerOf_eq_none h, firstOf_pair, early_of_isBracket hc,
    late_of_isBracket hc]
  rfl

theorem tokenLength_closer (h : closerOf c = some d) (cs : List Char) :
    code.tokenLength (d :: cs) = 0 :=
  tokenLength_of_isBracket (isBracket_of_openerOf (closerOf_eq_some_iff.mp h))
    (closerOf_closer h) cs

theorem drop_runLength_block (h : closerOf c = some d) {rest : List Char}
    (hrest : cs.drop (code.runLength cs) = d :: rest) :
    (c :: cs).drop (code.runLength (c :: cs)) = rest.drop (code.runLength rest) := by
  have htoken : code.tokenLength (c :: cs) = code.runLength cs + 1 + 1 := by
    rw [tokenLength_of_closerOf h, if_pos (by simp [hrest])]
  have hdrop : (c :: cs).drop (code.runLength cs + 1 + 1) = rest := by
    rw [drop_succ_cons, ← drop_drop, hrest, drop_succ_cons, drop_zero]
  rw [drop_runLength_of_eq_succ htoken, hdrop]

/-! ## Words -/

/-- At a word character, the rules tried last come down to those for words and escapes. -/
theorem late_of_isWordChar {slash : Rule} (hc : isWordChar c = true)
    (hop : ∀ op ∈ spellings, op ≠ [] ∧ op.head?.any isWordChar = false) (cs : List Char) :
    firstOf [lineBreak, blanks, slash, spelling spellings, word] (c :: cs) =
      firstOf [slash, word] (c :: cs) := by
  have hne : ∀ d, isWordChar d = false → c ≠ d := by
    rintro d hd rfl
    simp [hc] at hd
  have hlineBreak : lineBreak (c :: cs) = 0 := by simp [lineBreak, hne '\n' (by decide)]
  have hblanks : blanks (c :: cs) = 0 := by
    simp [blanks, Text.runLength, isBlank, hne ' ' (by decide), hne '\t' (by decide),
      hne '\r' (by decide)]
  have hoperator : spelling spellings (c :: cs) = 0 := by
    refine spelling_eq_zero (fun op h => (hop op h).1) (fun op h hhead => ?_) cs
    have hany := (hop op h).2
    simp [hhead, hc] at hany
  simp only [firstOf, hlineBreak, hblanks, hoperator]

/-- A word reaches as far as word characters do. -/
theorem tokenLength_of_isWordChar (hc : isWordChar c = true) (cs : List Char) :
    code.tokenLength (c :: cs) = Text.runLength isWordChar (c :: cs) := by
  have hearly : code.early (c :: cs) = 0 := by
    apply early_eq_zero
    intro hmem
    simp only [mem_cons, not_mem_nil, or_false] at hmem
    rcases hmem with rfl | rfl | rfl | rfl <;> exact absurd hc (by decide)
  have hescape : escape (c :: cs) = 0 := by
    have hne : c ≠ '\\' := by rintro rfl; exact absurd hc (by decide)
    cases cs <;> simp [escape, hne]
  rw [tokenLength_of_closerOf_eq_none (brackets_of_isWordChar hc).1, firstOf_pair, hearly,
    if_pos rfl]
  show firstOf [lineBreak, blanks, escape, operator, word] (c :: cs) = _
  rw [operator, late_of_isWordChar hc (by decide), firstOf_pair, hescape]
  exact if_pos rfl

theorem tokenLength_codeBack_of_isWordChar (hc : isWordChar c = true) (cs : List Char) :
    codeBack.tokenLength (c :: cs) = firstOf [escapeBack, word] (c :: cs) := by
  have hearly : codeBack.early (c :: cs) = 0 := by
    have hne : ∀ d, isWordChar d = false → c ≠ d := by
      rintro d hd rfl
      simp [hc] at hd
    refine firstOf_eq_zero fun r hr => ?_
    simp only [mem_cons, not_mem_nil, or_false] at hr
    rcases hr with rfl | rfl | rfl
    · cases cs <;> simp [blockCommentBack, hne '/' (by decide)]
    · simp [quotedBack, hne '\"' (by decide)]
    · simp [quotedBack, hne '\'' (by decide)]
  have hopener : codeBack.closer c = none := (brackets_of_isWordChar hc).2
  rw [tokenLength, hearly, hopener]
  exact late_of_isWordChar hc (by decide) cs

theorem getLast?_of_isWordChar (hc : isWordChar c = true)
    (h : codeBack.tokenLength (c :: cs) = n + 1) : (c :: cs.take n).getLast? ≠ some '(' := by
  rw [tokenLength_codeBack_of_isWordChar hc, firstOf_pair] at h
  split at h
  · -- all characters of the word are word characters
    have hrun : c :: cs.take n = (c :: cs).takeWhile isWordChar := by
      rw [← take_succ_cons, ← h]
      exact (prefix_iff_eq_take.mp (List.takeWhile_prefix _)).symm
    intro hlast
    rw [hrun] at hlast
    have hall := all_eq_true.mp (all_takeWhile (p := isWordChar) (l := c :: cs))
    exact absurd (hall _ (mem_of_getLast? hlast)) (by decide)
  · cases cs with
    | nil => exact absurd h (by simp [escapeBack])
    | cons d ds =>
      change (if d = '\\' then 2 else 0) = n + 1 at h
      split at h
      · rename_i hd
        have hn : n = 1 := by omega
        subst hn hd
        simp
      · cases h

end Grammar

end CBoundary.Lex
