import CBoundary.Proofs.Lex.Cut

/-!
# Reading plain texts in both directions

In a text without literals, notes and escapes the fat tokens are blocks and leaves of leaf
characters, be it read from the left or from the right.  What both directions have in common is said
once, of any direction.
-/

namespace CBoundary.Lex

open CBoundary.Text List

variable {s cs w v t rest : List Char} {c d : Char} {n : Nat}

/-- Nothing in the text starts a literal, a directive or an escape, and no comment begins or
ends. -/
structure Plain (s : List Char) : Prop where
  unmarked : ∀ c ∈ s, c ∉ ['\"', '\'', '#', '\\']
  noLineComment : ¬ ['/', '/'] <:+: s
  noCommentStart : ¬ ['/', '*'] <:+: s
  noCommentEnd : ¬ ['*', '/'] <:+: s

theorem Plain.of_isInfix {piece : List Char} (h : Plain s) (hpiece : piece <:+: s) :
    Plain piece where
  unmarked c hc := h.unmarked c (hpiece.subset hc)
  noLineComment hmark := h.noLineComment (hmark.trans hpiece)
  noCommentStart hmark := h.noCommentStart (hmark.trans hpiece)
  noCommentEnd hmark := h.noCommentEnd (hmark.trans hpiece)

theorem Plain.ne_backslash (h : Plain s) (hc : c ∈ s) : c ≠ '\\' := by
  rintro rfl
  exact h.unmarked '\\' hc (by decide)

theorem Plain.early_eq_zero (h : Plain (c :: cs)) : code.early (c :: cs) = 0 := by
  have hmark := h.unmarked c mem_cons_self
  by_cases hslash : c = '/'
  · subst hslash
    have hnext : ∀ d ds, cs = d :: ds → d ≠ '/' ∧ d ≠ '*' := by
      rintro d ds rfl
      constructor <;> rintro rfl
      · exact h.noLineComment ⟨[], ds, rfl⟩
      · exact h.noCommentStart ⟨[], ds, rfl⟩
    cases cs with
    | nil => rfl
    | cons d ds =>
      obtain ⟨hline, hblock⟩ := hnext d ds rfl
      simp [code, firstOf, note, literal, directive, lineComment, blockComment, quoted, hline,
        hblock]
  · refine Lex.early_eq_zero ?_ cs
    simp only [mem_cons, not_mem_nil, or_false, not_or] at hmark ⊢
    exact ⟨hmark.2.2.1, hslash, hmark.1, hmark.2.1⟩

/-! ## Directions -/

/-- A direction of reading: its grammar, and the operators as they are spelled in it. -/
structure Direction where
  grammar : Grammar
  spellings : List (List Char)
  spelled : ∀ op ∈ spellings, op ≠ [] ∧ ∀ c ∈ op, c ∈ operatorChars
  single : ∀ c ∈ operatorChars, [c] ∈ spellings
  brackets : ∀ c d, grammar.closer c = some d →
    isBracket c = true ∧ isBracket d = true ∧ grammar.closer d = none
  bounded : grammar.early.Bounded ∧ grammar.late.Bounded

namespace Direction

variable {D : Direction}

/-- A line break, blanks, an operator or a word. -/
def leaf (D : Direction) : Rule := firstOf [lineBreak, blanks, spelling D.spellings, word]

theorem isLeafChar_of_leaf (h : D.leaf s = n + 1) : ∀ c ∈ s.take (n + 1), isLeafChar c = true :=
  fun _ hc => isLeafChar_of_mem (fun op hop => (D.spelled op hop).2) h hc

theorem leaf_ne_zero (D : Direction) (hc : isLeafChar c = true) (cs : List Char) :
    D.leaf (c :: cs) ≠ 0 := by
  intro hzero
  have hnone := eq_zero_of_firstOf hzero
  have hrun : ∀ p : Char → Bool, p c = true → Text.runLength p (c :: cs) ≠ 0 := by
    intro p hp
    simp [Text.runLength, hp]
  rcases isLeafChar_iff.mp hc with rfl | hblank | hoperator | hword
  · exact absurd (hnone lineBreak (by simp)) (by simp [lineBreak])
  · exact hrun isBlank hblank (hnone blanks (by simp))
  · have hfind : (D.spellings.find? (·.isPrefixOf (c :: cs))).isSome = true :=
      find?_isSome.mpr ⟨[c], D.single c hoperator, by simp⟩
    obtain ⟨op, hop⟩ := Option.isSome_iff_exists.mp hfind
    have hlength : op.length = 0 := by
      have hfound := hnone (spelling D.spellings) (by simp)
      simpa [spelling, hop] using hfound
    exact (D.spelled op (mem_of_find?_eq_some hop)).1 (eq_nil_of_length_eq_zero hlength)
  · exact hrun isWordChar hword (hnone word (by simp))

theorem leaf_of_isBracket (D : Direction) (h : isBracket c = true) (cs : List Char) :
    D.leaf (c :: cs) = 0 := by
  cases hleaf : D.leaf (c :: cs) with
  | zero => rfl
  | succ n =>
    rw [isBracket_eq_false (isLeafChar_of_leaf hleaf c mem_cons_self)] at h
    cases h

theorem steady_leaf (D : Direction) : D.leaf.Steady := by
  refine steady_firstOf ?_
  simp only [forall_mem_cons]
  exact ⟨reads_lineBreak.steady, steady_runLength _, steady_spelling fun op hop =>
    (D.spelled op hop).1, steady_runLength _, forall_mem_nil _⟩

/-- Nothing but leaves and blocks is read at the places of a text. -/
def Sober (D : Direction) (s : List Char) : Prop := ∀ c cs, c :: cs <:+ s →
  D.grammar.early (c :: cs) = 0 ∧ D.grammar.late (c :: cs) = D.leaf (c :: cs)

theorem Sober.of_suffix (h : D.Sober s) (hpiece : t <:+ s) : D.Sober t :=
  fun c cs hcs => h c cs (hcs.trans hpiece)

theorem Sober.tokenLength_leaf (h : D.Sober (c :: cs)) (hcloser : D.grammar.closer c = none) :
    D.grammar.tokenLength (c :: cs) = D.leaf (c :: cs) := by
  obtain ⟨hearly, hlate⟩ := h c cs suffix_rfl
  rw [Grammar.tokenLength, hearly, hcloser]
  exact hlate

theorem Sober.tokenLength_block (h : D.Sober (c :: cs)) (hcloser : D.grammar.closer c = some d) :
    D.grammar.tokenLength (c :: cs) = if (cs.drop (D.grammar.runLength cs)).head? = some d then
      D.grammar.runLength cs + 2 else 0 := by
  obtain ⟨hearly, hlate⟩ := h c cs suffix_rfl
  rw [Grammar.tokenLength, hearly, hcloser]
  rw [hlate, D.leaf_of_isBracket (D.brackets c d hcloser).1]

/-- What stands behind a run: nothing, or a bracket that closes something. -/
def Stops (D : Direction) (rest : List Char) : Prop :=
  ∀ c ∈ rest.head?, isBracket c = true ∧ D.grammar.closer c = none

theorem stops_closer (hcloser : D.grammar.closer c = some d) (rest : List Char) :
    D.Stops (d :: rest) := by
  intro e he
  obtain rfl := Option.some.inj he
  exact (D.brackets c d hcloser).2

theorem Sober.tokenLength_stop (h : D.Sober rest) (hstop : D.Stops rest) :
    D.grammar.tokenLength rest = 0 := by
  cases rest with
  | nil => exact Grammar.tokenLength_nil _
  | cons c cs =>
    obtain ⟨hbracket, hcloser⟩ := hstop c rfl
    rw [h.tokenLength_leaf hcloser, D.leaf_of_isBracket hbracket]

/-! ## Closed texts -/

/-- A text of leaf characters and blocks, taken apart in the direction of reading. -/
inductive Closed (D : Direction) : List Char → Prop where
  | nil : D.Closed []
  | char {w : List Char} {c : Char} (hc : isLeafChar c = true) (rest : D.Closed w) :
      D.Closed (c :: w)
  | block {v w : List Char} {c d : Char} (hcloser : D.grammar.closer c = some d)
      (inside : D.Closed v) (rest : D.Closed w) : D.Closed (c :: (v ++ d :: w))

theorem Closed.append (hw : D.Closed w) (hv : D.Closed v) : D.Closed (w ++ v) := by
  induction hw with
  | nil => exact hv
  | char hc _ ih => exact .char hc ih
  | block hcloser inside _ _ ih =>
    rw [cons_append, append_assoc, cons_append]
    exact .block hcloser inside ih

theorem closed_of_isLeafChar (h : ∀ c ∈ w, isLeafChar c = true) : D.Closed w := by
  induction w with
  | nil => exact .nil
  | cons c w ih =>
    obtain ⟨hc, hw⟩ := forall_mem_cons.mp h
    exact .char hc (ih hw)

theorem Closed.of_append (h : D.Closed (v ++ w)) (hv : ∀ c ∈ v, isLeafChar c = true) :
    D.Closed w := by
  induction v with
  | nil => exact h
  | cons c v ih =>
    obtain ⟨hc, hv⟩ := forall_mem_cons.mp hv
    rw [cons_append] at h
    generalize v ++ w = s at h ih
    cases h with
    | char _ hrest => exact ih hrest hv
    | block hcloser =>
      have hbracket := (D.brackets _ _ hcloser).1
      rw [isBracket_eq_false hc] at hbracket
      cases hbracket

/-- A bracket, a closed text, and what closes the bracket. -/
def Block (D : Direction) (t : List Char) : Prop :=
  ∃ c inside d, t = c :: (inside ++ [d]) ∧ D.grammar.closer c = some d ∧ D.Closed inside

/-! ## What is read is closed -/

theorem Sober.take_of_tokenLength (h : D.Sober (c :: cs)) (hcloser : D.grammar.closer c = some d)
    (htoken : D.grammar.tokenLength (c :: cs) = n + 1) :
    cs.take n = cs.take (D.grammar.runLength cs) ++ [d] := by
  rw [h.tokenLength_block hcloser] at htoken
  split at htoken
  · rename_i hhead
    obtain ⟨rest, hrest⟩ := head?_eq_some_iff.mp hhead
    obtain rfl : n = D.grammar.runLength cs + 1 := by omega
    rw [take_add, hrest]
    rfl
  · cases htoken

theorem Sober.closed_token (h : D.Sober (c :: cs))
    (hinside : D.Closed (cs.take (D.grammar.runLength cs)))
    (htoken : D.grammar.tokenLength (c :: cs) = n + 1) : D.Closed (c :: cs.take n) := by
  cases hcloser : D.grammar.closer c with
  | none =>
    rw [h.tokenLength_leaf hcloser] at htoken
    exact closed_of_isLeafChar (isLeafChar_of_leaf htoken)
  | some d =>
    rw [h.take_of_tokenLength hcloser htoken]
    exact .block hcloser hinside .nil

/-- **A run is closed.**  The induction is on the length of the text, token by token. -/
theorem Sober.closed_run (h : D.Sober s) : D.Closed (s.take (D.grammar.runLength s)) := by
  induction hsize : s.length using Nat.strongRecOn generalizing s with
  | ind size ih =>
    subst hsize
    cases s with
    | nil =>
      rw [take_nil]
      exact .nil
    | cons c cs =>
      cases htoken : D.grammar.tokenLength (c :: cs) with
      | zero =>
        rw [Grammar.runLength_of_eq_zero htoken]
        exact .nil
      | succ n =>
        have hinside := ih _ (Nat.lt_succ_self _) (h.of_suffix (suffix_cons c cs)) rfl
        rw [Grammar.runLength_of_eq_succ htoken, take_add]
        refine (h.closed_token hinside htoken).append (ih _ ?_ (h.of_suffix (drop_suffix _ _)) rfl)
        rw [length_drop, length_cons]
        omega

theorem Sober.block_of_tokenLength (h : D.Sober (c :: cs)) (hcloser : D.grammar.closer c = some d)
    (htoken : D.grammar.tokenLength (c :: cs) = n + 1) : D.Block (c :: cs.take n) := by
  rw [h.take_of_tokenLength hcloser htoken]
  exact ⟨c, _, d, rfl, hcloser, (h.of_suffix (suffix_cons c cs)).closed_run⟩

/-! ## What is closed is read -/

theorem length_le_of_isLeafChar (hstop : D.Stops rest) (hbound : n ≤ (w ++ rest).length)
    (hchars : ∀ d ∈ (w ++ rest).take n, isLeafChar d = true) : n ≤ w.length := by
  refine Nat.le_of_not_lt fun hlt => ?_
  cases rest with
  | nil =>
    rw [append_nil] at hbound
    omega
  | cons o front =>
    have hmem : o ∈ (w ++ o :: front).take n := by
      obtain ⟨m, rfl⟩ : ∃ m, n = w.length + (m + 1) := ⟨n - w.length - 1, by omega⟩
      rw [take_length_add_append, take_succ_cons]
      exact mem_append_right _ mem_cons_self
    have hfree := isBracket_eq_false (hchars o hmem)
    rw [(hstop o rfl).1] at hfree
    cases hfree

theorem tokenLength_le (D : Direction) (s : List Char) : D.grammar.tokenLength s ≤ s.length :=
  (Grammar.lengths_le D.bounded.1 D.bounded.2 s).1

theorem closer_of_isLeafChar (hc : isLeafChar c = true) : D.grammar.closer c = none := by
  cases hcloser : D.grammar.closer c with
  | none => rfl
  | some d =>
    have hbracket := (D.brackets c d hcloser).1
    rw [isBracket_eq_false hc] at hbracket
    cases hbracket

theorem Closed.leaf (h : D.Closed cs) (hc : isLeafChar c = true)
    (hsober : D.Sober (c :: (cs ++ rest))) (hstop : D.Stops rest) :
    ∃ v cs', cs = v ++ cs' ∧ D.Closed cs' ∧
      D.grammar.tokenLength (c :: v ++ (cs' ++ rest)) = (c :: v).length := by
  obtain ⟨n, hn⟩ := Nat.exists_eq_succ_of_ne_zero (D.leaf_ne_zero hc (cs ++ rest))
  have htoken := (hsober.tokenLength_leaf (closer_of_isLeafChar hc)).trans hn
  have hchars : ∀ d ∈ (cs ++ rest).take n, isLeafChar d = true :=
    fun d hd => isLeafChar_of_leaf hn d (mem_cons_of_mem c hd)
  have hle : n ≤ cs.length := by
    have hbound := D.tokenLength_le (c :: (cs ++ rest))
    rw [htoken] at hbound
    exact length_le_of_isLeafChar hstop (Nat.le_of_succ_le_succ hbound) hchars
  rw [take_append_of_le_length hle] at hchars
  refine ⟨cs.take n, cs.drop n, (take_append_drop n cs).symm, ?_, ?_⟩
  · refine Closed.of_append ?_ hchars
    rwa [take_append_drop]
  · rw [cons_append, ← append_assoc, take_append_drop, htoken, length_cons,
      length_take_of_le hle]

theorem runLength_append {g : Grammar} (hne : v ≠ []) (h : g.tokenLength (v ++ t) = v.length) :
    g.runLength (v ++ t) = v.length + g.runLength t := by
  obtain ⟨n, hn⟩ := Nat.exists_eq_succ_of_ne_zero (mt length_eq_zero_iff.mp hne)
  rw [Grammar.runLength_of_eq_succ (h.trans hn), ← Nat.succ_eq_add_one, ← hn, drop_left]

theorem tokenLength_of_runLength {inside : List Char} (hcloser : D.grammar.closer c = some d)
    (hsober : D.Sober (c :: (inside ++ d :: rest)))
    (hrun : D.grammar.runLength (inside ++ d :: rest) = inside.length) :
    D.grammar.tokenLength (c :: (inside ++ [d]) ++ rest) = (c :: (inside ++ [d])).length := by
  have hwhole : c :: (inside ++ [d]) ++ rest = c :: (inside ++ d :: rest) := by simp
  rw [hwhole, hsober.tokenLength_block hcloser, hrun, drop_left, length_cons, length_append]
  exact if_pos rfl

/-- **A closed text is one run**, up to a closer or the end. The induction is on its length. -/
theorem Closed.runLength (h : D.Closed w) (hsober : D.Sober (w ++ rest)) (hstop : D.Stops rest) :
    D.grammar.runLength (w ++ rest) = w.length := by
  induction hsize : w.length using Nat.strongRecOn generalizing w rest with
  | ind size ih =>
    subst hsize
    cases h with
    | nil => exact Grammar.runLength_of_eq_zero (hsober.tokenLength_stop hstop)
    | @char cs c hc hcs =>
      obtain ⟨v, cs', rfl, hcs', htoken⟩ := hcs.leaf hc hsober hstop
      have hbehind : D.grammar.runLength (cs' ++ rest) = cs'.length := by
        refine ih _ ?_ hcs' (hsober.of_suffix ⟨c :: v, by simp⟩) hstop rfl
        simp only [length_append, length_cons]
        omega
      rw [← cons_append, append_assoc, runLength_append (cons_ne_nil c v) htoken, hbehind,
        length_append]
    | @block inside further c d hcloser hinside hfurther =>
      have hassoc : c :: (inside ++ d :: further) ++ rest =
          c :: (inside ++ d :: (further ++ rest)) := by simp
      rw [hassoc] at hsober
      have hrun : D.grammar.runLength (inside ++ d :: (further ++ rest)) = inside.length := by
        refine ih _ ?_ hinside (hsober.of_suffix (suffix_cons c _)) (stops_closer hcloser _) rfl
        simp only [length_append, length_cons]
        omega
      have hbehind : D.grammar.runLength (further ++ rest) = further.length := by
        refine ih _ ?_ hfurther (hsober.of_suffix ⟨c :: (inside ++ [d]), by simp⟩) hstop rfl
        simp only [length_append, length_cons]
        omega
      have hwhole : c :: (inside ++ d :: further) = c :: (inside ++ [d]) ++ further := by simp
      rw [hwhole, append_assoc, runLength_append (cons_ne_nil c _)
        (tokenLength_of_runLength hcloser hsober hrun), hbehind, length_append]

theorem Block.tokenLength (h : D.Block t) (hsober : D.Sober (t ++ rest)) :
    D.grammar.tokenLength (t ++ rest) = t.length := by
  obtain ⟨c, inside, d, rfl, hcloser, hinside⟩ := h
  have hwhole : c :: (inside ++ [d]) ++ rest = c :: (inside ++ d :: rest) := by simp
  rw [hwhole] at hsober
  exact tokenLength_of_runLength hcloser hsober
    (hinside.runLength (hsober.of_suffix (suffix_cons c _)) (stops_closer hcloser _))

/-! ## Texts that go on -/

theorem Sober.tokenLength_append_leaf (hfull : D.Sober (c :: cs ++ rest))
    (hpart : D.Sober (c :: cs)) (hcloser : D.grammar.closer c = none) (hstop : D.Stops rest) :
    D.grammar.tokenLength (c :: cs ++ rest) = D.grammar.tokenLength (c :: cs) := by
  have htoken := Sober.tokenLength_leaf hfull hcloser
  rw [hpart.tokenLength_leaf hcloser]
  refine htoken.trans ?_
  cases hleaf : D.leaf (c :: cs ++ rest) with
  | zero => exact hleaf.trans (D.steady_leaf.eq_zero hleaf).symm
  | succ n =>
    have hle : n + 1 ≤ (c :: cs).length := by
      refine length_le_of_isLeafChar hstop ?_ (isLeafChar_of_leaf hleaf)
      exact hleaf ▸ htoken ▸ D.tokenLength_le (c :: cs ++ rest)
    exact (D.steady_leaf.cut (hleaf ▸ Nat.succ_pos n) (hleaf ▸ hle)).symm

theorem Sober.tokenLength_append_block (hfull : D.Sober (c :: cs ++ rest))
    (hpart : D.Sober (c :: cs)) (hcloser : D.grammar.closer c = some d)
    (hopen : ∀ u, u ≠ [] → ¬ D.Block (c :: cs ++ u)) :
    D.grammar.tokenLength (c :: cs ++ rest) = D.grammar.tokenLength (c :: cs) := by
  cases htoken : D.grammar.tokenLength (c :: cs ++ rest) with
  | zero =>
    cases hshort : D.grammar.tokenLength (c :: cs) with
    | zero => rfl
    | succ n =>
      have hblock := hpart.block_of_tokenLength hcloser hshort
      have hsplit : c :: cs ++ rest = c :: cs.take n ++ (cs.drop n ++ rest) := by
        rw [cons_append, cons_append, ← append_assoc, take_append_drop]
      rw [hsplit, hblock.tokenLength (hsplit ▸ hfull)] at htoken
      cases htoken
  | succ n =>
    have hblock : D.Block (c :: (cs ++ rest).take n) :=
      Sober.block_of_tokenLength hfull hcloser htoken
    have hle : n ≤ cs.length := by
      refine Nat.le_of_not_lt fun hlt => ?_
      -- the block would end behind the text
      have hbound := D.tokenLength_le (c :: cs ++ rest)
      rw [htoken, cons_append, length_cons, length_append] at hbound
      obtain ⟨m, rfl⟩ := Nat.exists_eq_add_of_lt hlt
      rw [Nat.add_assoc, take_length_add_append, ← cons_append] at hblock
      refine hopen _ ?_ hblock
      rw [← length_pos_iff, length_take]
      omega
    rw [take_append_of_le_length hle] at hblock
    have hsplit : c :: cs = c :: cs.take n ++ cs.drop n := by rw [cons_append, take_append_drop]
    rw [hsplit, hblock.tokenLength (hsplit ▸ hpart), length_cons, length_take_of_le hle]

end Direction

/-! ## From the left and from the right -/

theorem openerOf_opener (h : openerOf d = some c) : openerOf c = none := by
  unfold openerOf at h
  split at h <;> cases h <;> rfl

/-- Reading from left to right. -/
def forth : Direction where
  grammar := code
  spellings := operators
  spelled op hop := ⟨(by decide : ∀ op ∈ operators, op ≠ []) op hop,
    fun _ hc => mem_flatten.mpr ⟨op, hop, hc⟩⟩
  single _ hc := singleton_mem_operators hc
  brackets _ _ h := ⟨isBracket_of_closerOf h, isBracket_of_openerOf (closerOf_eq_some_iff.mp h),
    closerOf_closer h⟩
  bounded := ⟨bounded_code_early, bounded_code_late⟩

/-- Reading from right to left. -/
def back : Direction where
  grammar := codeBack
  spellings := operators.map List.reverse
  spelled := by
    intro op hop
    refine ⟨(by decide : ∀ op ∈ operators.map List.reverse, op ≠ []) op hop, fun c hc => ?_⟩
    obtain ⟨forth, hforth, rfl⟩ := mem_map.mp hop
    exact mem_flatten.mpr ⟨forth, hforth, mem_reverse.mp hc⟩
  single c hc := mem_map.mpr ⟨[c], singleton_mem_operators hc, rfl⟩
  brackets _ _ h := ⟨isBracket_of_openerOf h, isBracket_of_closerOf (closerOf_eq_some_iff.mpr h),
    openerOf_opener h⟩
  bounded := ⟨bounded_codeBack_early, bounded_codeBack_late⟩

theorem Plain.sober (h : Plain s) : forth.Sober s := by
  intro c cs hcs
  have hpart := h.of_isInfix hcs.isInfix
  exact ⟨hpart.early_eq_zero, late_eq (hpart.ne_backslash mem_cons_self) cs⟩

theorem escapeBack_eq_zero (h : cs.head? ≠ some '\\') : escapeBack (c :: cs) = 0 := by
  cases cs with
  | nil => rfl
  | cons d ds =>
    have hd : d ≠ '\\' := fun heq => h (congrArg some heq)
    simp [escapeBack, hd]

theorem Plain.sober_back (h : Plain s.reverse) : back.Sober s := by
  intro c cs hcs
  have hpart : Plain (c :: cs).reverse := h.of_isInfix (List.reverse_infix.mpr hcs.isInfix)
  have hmark := hpart.unmarked c (mem_reverse.mpr mem_cons_self)
  simp only [mem_cons, not_mem_nil, or_false, not_or] at hmark
  constructor
  · refine firstOf_eq_zero ?_
    simp only [forall_mem_cons]
    refine ⟨?_, by simp [quotedBack, hmark.1], by simp [quotedBack, hmark.2.1], forall_mem_nil _⟩
    cases cs with
    | nil => rfl
    | cons d ds =>
      have hcomment : ¬ (c = '/' ∧ d = '*') := by
        rintro ⟨rfl, rfl⟩
        exact hpart.noCommentEnd ⟨ds.reverse, [], by simp⟩
      simp [blockCommentBack, hcomment]
  · have hescape : escapeBack (c :: cs) = 0 := escapeBack_eq_zero fun hhead =>
      hpart.ne_backslash (mem_reverse.mpr (mem_cons_of_mem c (mem_of_mem_head? hhead))) rfl
    show firstOf [lineBreak, blanks, escapeBack, operatorBack, word] (c :: cs) = _
    simp only [firstOf, hescape]
    rfl

/-! ## Balanced texts -/

/-- A text of leaf characters and blocks, taken apart from its end. -/
inductive Balanced : List Char → Prop where
  | nil : Balanced []
  | char {w : List Char} {c : Char} (front : Balanced w) (hc : isLeafChar c = true) :
      Balanced (w ++ [c])
  | block {w inside : List Char} {c d : Char} (front : Balanced w) (hcloser : closerOf c = some d)
      (inner : Balanced inside) : Balanced (w ++ (c :: (inside ++ [d])))

theorem Balanced.append (hw : Balanced w) (hv : Balanced v) : Balanced (w ++ v) := by
  induction hv with
  | nil => rwa [append_nil]
  | char front hc ih =>
    rw [← append_assoc]
    exact .char ih hc
  | block front hcloser inner ih _ =>
    rw [← append_assoc]
    exact .block ih hcloser inner

/-- A balanced text is the same in both directions. -/
theorem balanced_iff_closed : Balanced w ↔ forth.Closed w := by
  constructor
  · intro h
    induction h with
    | nil => exact .nil
    | char _ hc ih => exact ih.append (.char hc .nil)
    | block _ hcloser _ ih ih' => exact ih.append (.block hcloser ih' .nil)
  · intro h
    induction h with
    | nil => exact .nil
    | char hc _ ih => exact Balanced.append (.char .nil hc) ih
    | block hcloser _ _ ih ih' =>
      have hwhole := (Balanced.block .nil hcloser ih).append ih'
      simpa using hwhole

theorem balanced_reverse_iff_closed : Balanced w.reverse ↔ back.Closed w := by
  constructor
  · intro h
    generalize hs : w.reverse = s at h
    obtain rfl : w = s.reverse := by rw [← hs, reverse_reverse]
    clear hs
    induction h with
    | nil => exact .nil
    | char _ hc ih =>
      rw [reverse_append]
      exact .char hc ih
    | block _ hcloser _ ih ih' =>
      have hwhole := Direction.Closed.block (D := back) (closerOf_eq_some_iff.mp hcloser) ih' ih
      simpa using hwhole
  · intro h
    induction h with
    | nil => exact .nil
    | char hc _ ih =>
      rw [reverse_cons]
      exact .char ih hc
    | block hcloser _ _ ih ih' =>
      have hwhole := Balanced.block ih' (closerOf_eq_some_iff.mpr hcloser) ih
      simpa using hwhole

end CBoundary.Lex
