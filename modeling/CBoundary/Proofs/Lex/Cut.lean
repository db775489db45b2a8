import CBoundary.Proofs.Lex.Start

/-!
# Bounds and cuts

What a rule finds at the front of a text may depend on all that follows: a comment needs its
end, a block its closer.  But what it has found it finds again when the text is cut anywhere
behind it.  So a token, and the inside of a block, may be read again on their own.
-/

namespace CBoundary.Lex

open List

variable {r : Rule} {stop c : Char}

/-- The rule finds no more than there is. -/
def Rule.Bounded (r : Rule) : Prop := ∀ s, r s ≤ s.length

section

variable {rs : List Rule} {P : List Char → Prop} {mark : Char} (p : Char → Bool)

theorem bounded_firstOf (h : ∀ r ∈ rs, Rule.Bounded r) : Rule.Bounded (firstOf rs) := by
  intro s
  induction rs with
  | nil => exact Nat.zero_le _
  | cons r rs ih =>
    have hr : r s ≤ s.length := h r mem_cons_self s
    unfold firstOf
    split
    · exact ih fun q hq => h q (mem_cons_of_mem r hq)
    · rename_i n hn
      rwa [hn] at hr

/-- A finding is found in every cut that keeps it, and does not vanish when the text goes on. -/
structure Rule.Steady (r : Rule) : Prop where
  cut : ∀ {t u : List Char}, 0 < r (t ++ u) → r (t ++ u) ≤ t.length → r t = r (t ++ u)
  lasts : ∀ {t u : List Char}, 0 < r t → 0 < r (t ++ u)

theorem Rule.Steady.eq_zero (h : r.Steady) {t u : List Char} (hz : r (t ++ u) = 0) : r t = 0 := by
  rcases Nat.eq_zero_or_pos (r t) with hzero | hpos
  · exact hzero
  · have hfull : 0 < r (t ++ u) := h.lasts hpos
    omega

/-- The first of steady rules is steady. -/
theorem steady_firstOf (h : ∀ r ∈ rs, Rule.Steady r) : Rule.Steady (firstOf rs) := by
  induction rs with
  | nil => constructor <;> intro t u hpos <;> simp [firstOf] at hpos
  | cons r rs ih =>
    have hr : r.Steady := h r mem_cons_self
    have hrs : Rule.Steady (firstOf rs) := ih fun q hq => h q (mem_cons_of_mem r hq)
    refine ⟨?_, ?_⟩
    · intro t u
      cases hfull : r (t ++ u) with
      | zero =>
        -- the first rule finds nothing in the cut, so that the others decide there too
        simp only [firstOf, hfull, hr.eq_zero hfull]
        exact hrs.cut
      | succ n =>
        intro _ hle
        simp only [firstOf, hfull] at hle ⊢
        have hcut : r t = r (t ++ u) := hr.cut (by omega) (by omega)
        simp only [hcut, hfull]
    · intro t u hpos
      cases hfull : r (t ++ u) with
      | zero =>
        simp only [firstOf, hfull, hr.eq_zero hfull] at hpos ⊢
        exact hrs.lasts hpos
      | succ n => simp [firstOf, hfull]

/-! ## Rules that read a piece up to its end -/

/-- The rule finds exactly the pieces with a property, whatever follows them. -/
def Rule.Reads (r : Rule) (P : List Char → Prop) : Prop :=
  ∀ s n, r s = n + 1 ↔ ∃ piece rest, s = piece ++ rest ∧ piece.length = n + 1 ∧ P piece

theorem Rule.Reads.steady (h : r.Reads P) : r.Steady := by
  refine ⟨?_, ?_⟩
  · intro t u hpos hle
    obtain ⟨n, hn⟩ := Nat.exists_eq_succ_of_ne_zero (Nat.ne_of_gt hpos)
    obtain ⟨piece, rest, hsplit, hlen, hP⟩ := (h _ _).mp hn
    have hpiece : piece <+: t ++ u := by
      rw [hsplit]
      exact prefix_append piece rest
    obtain ⟨rear, hrear⟩ : piece <+: t :=
      prefix_of_prefix_length_le hpiece (prefix_append t u) (by omega)
    rw [hn]
    exact (h _ _).mpr ⟨piece, rear, hrear.symm, hlen, hP⟩
  · intro t u hpos
    obtain ⟨n, hn⟩ := Nat.exists_eq_succ_of_ne_zero (Nat.ne_of_gt hpos)
    obtain ⟨piece, rest, hsplit, hlen, hP⟩ := (h _ _).mp hn
    have hfull : r (t ++ u) = n + 1 :=
      (h _ _).mpr ⟨piece, rest ++ u, by rw [hsplit, append_assoc], hlen, hP⟩
    omega

theorem Rule.Reads.bounded (h : r.Reads P) : r.Bounded := by
  intro s
  cases hn : r s with
  | zero => exact Nat.zero_le _
  | succ n =>
    obtain ⟨piece, rest, rfl, hlen, -⟩ := (h s n).mp hn
    rw [length_append]
    omega

/-- Plain characters and backslash pairs, none of them the `stop`. -/
inductive Escaped (stop : Char) : List Char → Prop where
  | nil : Escaped stop []
  | plain {c : Char} {cs : List Char} (hslash : c ≠ '\\') (hstop : c ≠ stop)
      (rest : Escaped stop cs) : Escaped stop (c :: cs)
  | pair {d : Char} {cs : List Char} (rest : Escaped stop cs) : Escaped stop ('\\' :: d :: cs)

theorem escapedRun_plain (hslash : c ≠ '\\') (hstop : c ≠ stop) (cs : List Char) :
    escapedRun stop (c :: cs) = 1 + escapedRun stop cs := by
  cases cs <;> simp [escapedRun, hslash, hstop]

theorem escapedRun_pair (stop d : Char) (cs : List Char) :
    escapedRun stop ('\\' :: d :: cs) = 2 + escapedRun stop cs := by
  simp [escapedRun]

theorem escapedRun_stop (hstop : stop ≠ '\\') (cs : List Char) :
    escapedRun stop (stop :: cs) = 0 := by
  cases cs <;> simp [escapedRun, hstop]

theorem Escaped.escapedRun_append (hstop : stop ≠ '\\') {body : List Char} (h : Escaped stop body)
    (rest : List Char) : escapedRun stop (body ++ stop :: rest) = body.length := by
  induction h with
  | nil => exact escapedRun_stop hstop rest
  | plain hslash hne _ ih =>
    rw [cons_append, escapedRun_plain hslash hne, ih, length_cons]
    omega
  | pair _ ih =>
    rw [cons_append, cons_append, escapedRun_pair, ih, length_cons, length_cons]
    omega

theorem escaped_take_escapedRun (stop : Char) (s : List Char) :
    Escaped stop (s.take (escapedRun stop s)) := by
  fun_induction escapedRun stop s with
  | case1 => exact .nil
  | case2 => exact .nil
  | case3 c h =>
    simp only [not_or] at h
    exact .plain h.1 h.2 .nil
  | case4 d cs ih =>
    rw [Nat.add_comm]
    exact .pair ih
  | case5 => exact .nil
  | case6 c d cs hslash hstop ih =>
    rw [Nat.add_comm]
    exact .plain hslash hstop ih

theorem bounded_escapedRun (stop : Char) : Rule.Bounded (escapedRun stop) := by
  intro s
  fun_induction escapedRun stop s with
  | case1 => exact Nat.zero_le _
  | case2 => exact Nat.zero_le _
  | case3 => simp
  | case4 d cs ih => simp only [length_cons]; omega
  | case5 => exact Nat.zero_le _
  | case6 c d cs _ _ ih => simp only [length_cons] at ih ⊢; omega

theorem closedRun_eq_succ_iff (hstop : stop ≠ '\\') {s : List Char} {n : Nat} :
    closedRun stop s = n + 1 ↔
      ∃ body rest, s = body ++ stop :: rest ∧ body.length = n ∧ Escaped stop body := by
  unfold closedRun
  dsimp only
  constructor
  · intro h
    split at h
    · rename_i hhead
      have hn : escapedRun stop s = n := by omega
      obtain ⟨rest, hrest⟩ : ∃ rest, s.drop (escapedRun stop s) = stop :: rest :=
        head?_eq_some_iff.mp hhead
      refine ⟨s.take (escapedRun stop s), rest, ?_, ?_, escaped_take_escapedRun stop s⟩
      · rw [← hrest, take_append_drop]
      · rw [length_take, Nat.min_eq_left (bounded_escapedRun stop s), hn]
    · omega
  · rintro ⟨body, rest, rfl, rfl, hbody⟩
    simp [hbody.escapedRun_append hstop rest]

theorem reads_enclosed {opener : List Char} (hstop : stop ≠ '\\')
    (hfind : ∀ cs, r (opener ++ cs) = opened opener.length (closedRun stop cs))
    (hnone : ∀ s, ¬ opener <+: s → r s = 0) :
    r.Reads fun piece => ∃ body, piece = opener ++ (body ++ [stop]) ∧ Escaped stop body := by
  intro s n
  constructor
  · intro h
    have hprefix : opener <+: s := by
      apply Classical.byContradiction
      intro hnot
      rw [hnone s hnot] at h
      omega
    obtain ⟨cs, rfl⟩ := hprefix
    rw [hfind, opened] at h
    split at h
    · omega
    · rename_i hne
      obtain ⟨m, hm⟩ := Nat.exists_eq_succ_of_ne_zero hne
      obtain ⟨body, rest, rfl, rfl, hbody⟩ := (closedRun_eq_succ_iff hstop).mp hm
      refine ⟨opener ++ (body ++ [stop]), rest, by simp, ?_, body, rfl, hbody⟩
      simp only [length_append, length_cons, length_nil]
      omega
  · rintro ⟨_, rest, rfl, hlen, body, rfl, hbody⟩
    have hclosed : closedRun stop (body ++ stop :: rest) = body.length + 1 :=
      (closedRun_eq_succ_iff hstop).mpr ⟨body, rest, rfl, rfl, hbody⟩
    simp only [length_append, length_cons, length_nil] at hlen
    rw [append_assoc, append_assoc, hfind, singleton_append, hclosed, opened,
      if_neg (by omega)]
    omega

theorem reads_directive : Rule.Reads directive
    fun piece => ∃ body, piece = ['#'] ++ (body ++ ['\n']) ∧ Escaped '\n' body := by
  apply reads_enclosed (by decide)
  · intro cs
    simp [directive]
  · intro s hnot
    cases s with
    | nil => rfl
    | cons c cs =>
      have hc : c ≠ '#' := by
        rintro rfl
        exact hnot (prefix_append ['#'] cs)
      simp [directive, hc]

theorem reads_lineComment : Rule.Reads lineComment
    fun piece => ∃ body, piece = ['/', '/'] ++ (body ++ ['\n']) ∧ Escaped '\n' body := by
  apply reads_enclosed (by decide)
  · intro cs
    simp [lineComment]
  · intro s hnot
    cases s with
    | nil => rfl
    | cons c cs =>
      cases cs with
      | nil => rfl
      | cons d cs =>
        have hcd : ¬ (c = '/' ∧ d = '/') := by
          rintro ⟨rfl, rfl⟩
          exact hnot (prefix_append ['/', '/'] cs)
        simp [lineComment, hcd]

theorem reads_quoted (hmark : mark ≠ '\\') : Rule.Reads (quoted mark)
    fun piece => ∃ body, piece = [mark] ++ (body ++ [mark]) ∧ Escaped mark body := by
  apply reads_enclosed hmark
  · intro cs
    simp [quoted]
  · intro s hnot
    cases s with
    | nil => rfl
    | cons c cs =>
      have hc : c ≠ mark := by
        rintro rfl
        exact hnot (prefix_append [c] cs)
      simp [quoted, hc]

/-! ## Block comments -/

/-- The inside of a block comment: a star takes its right neighbour with it, which is
no slash. -/
inductive Commented : List Char → Prop where
  | nil : Commented []
  | plain {c : Char} {cs : List Char} (hstar : c ≠ '*') (rest : Commented cs) : Commented (c :: cs)
  | pair {d : Char} {cs : List Char} (hslash : d ≠ '/') (rest : Commented cs) :
      Commented ('*' :: d :: cs)

theorem commentRun_plain (hstar : c ≠ '*') (cs : List Char) :
    commentRun (c :: cs) = 1 + commentRun cs := by
  cases cs <;> simp [commentRun, hstar]

theorem commentRun_pair {d : Char} (hslash : d ≠ '/') (cs : List Char) :
    commentRun ('*' :: d :: cs) = 2 + commentRun cs := by
  simp [commentRun, hslash]

@[simp] theorem commentRun_end (cs : List Char) : commentRun ('*' :: '/' :: cs) = 0 := by
  simp [commentRun]

theorem Commented.commentRun_append {inside : List Char} (h : Commented inside)
    (rest : List Char) : commentRun (inside ++ rest) = inside.length + commentRun rest := by
  induction h with
  | nil => simp
  | plain hstar _ ih =>
    rw [cons_append, commentRun_plain hstar, ih, length_cons]
    omega
  | pair hslash _ ih =>
    rw [cons_append, cons_append, commentRun_pair hslash, ih, length_cons,
      length_cons]
    omega

theorem commented_take_commentRun (s : List Char) : Commented (s.take (commentRun s)) := by
  fun_induction commentRun s with
  | case1 => exact .nil
  | case2 => exact .nil
  | case3 c h => exact .plain h .nil
  | case4 => exact .nil
  | case5 d cs hslash ih =>
    rw [Nat.add_comm]
    exact .pair hslash ih
  | case6 c d cs hstar ih =>
    rw [Nat.add_comm]
    exact .plain hstar ih

/-- What a block comment is made of. -/
theorem reads_blockComment : Rule.Reads blockComment
    fun piece => ∃ inside, piece = '/' :: '*' :: (inside ++ ['*', '/']) ∧ Commented inside := by
  intro s n
  constructor
  · intro h
    unfold blockComment at h
    split at h
    · rename_i c d cs
      dsimp only at h
      split at h
      · rename_i hopen
        obtain ⟨rfl, rfl⟩ := hopen
        split at h
        · rename_i hend
          obtain ⟨rest, hrest⟩ : ∃ rest, cs.drop (commentRun cs) = '*' :: '/' :: rest := by
            refine ⟨(cs.drop (commentRun cs)).drop 2, ?_⟩
            rw [← take_append_drop 2 (cs.drop (commentRun cs)), hend]
            simp
          have hlen : (cs.drop (commentRun cs)).length = rest.length + 2 := by rw [hrest]; rfl
          rw [length_drop] at hlen
          refine ⟨'/' :: '*' :: (cs.take (commentRun cs) ++ ['*', '/']), rest, ?_, ?_, _, rfl,
            commented_take_commentRun cs⟩
          · rw [cons_append, cons_append, append_assoc, cons_append,
              singleton_append, ← hrest, take_append_drop]
          · simp only [length_cons, length_append, length_take, length_nil]
            omega
        · omega
      · omega
    · omega
  · rintro ⟨_, rest, rfl, hlen, inside, rfl, hinside⟩
    simp only [length_cons, length_append, length_nil] at hlen
    have hrun : commentRun (inside ++ '*' :: '/' :: rest) = inside.length := by
      rw [hinside.commentRun_append, commentRun_end, Nat.add_zero]
    simp [blockComment, hrun]
    omega

/-! ## Runs and spellings -/

theorem bounded_runLength : Rule.Bounded (Text.runLength p) := by
  intro s
  exact (takeWhile_sublist p).length_le

theorem steady_runLength : Rule.Steady (Text.runLength p) := by
  refine ⟨?_, ?_⟩
  · intro t u _ hle
    unfold Text.runLength at hle ⊢
    rw [takeWhile_append] at hle ⊢
    split at hle
    · rename_i hall
      rw [if_pos hall, hall]
      simp only [length_append] at hle ⊢
      omega
    · rename_i hall
      rw [if_neg hall]
  · intro t u hpos
    unfold Text.runLength at hpos ⊢
    rw [takeWhile_append]
    split
    · rw [length_append]
      omega
    · exact hpos

theorem bounded_spelling (spellings : List (List Char)) : Rule.Bounded (spelling spellings) := by
  intro s
  unfold spelling
  split
  · rename_i op hfind
    have hprefix := find?_some hfind
    exact (List.isPrefixOf_iff_prefix.mp hprefix).length_le
  · exact Nat.zero_le _

theorem steady_spelling {spellings : List (List Char)} (hne : ∀ op ∈ spellings, op ≠ []) :
    Rule.Steady (spelling spellings) := by
  refine ⟨?_, ?_⟩
  · intro t u hpos hle
    unfold spelling at hpos hle ⊢
    cases hfind : spellings.find? (·.isPrefixOf (t ++ u)) with
    | none => simp [hfind] at hpos
    | some op =>
      rw [hfind] at hle
      have hlen : op.length ≤ t.length := hle
      obtain ⟨hop, before, after, hsplit, hbefore⟩ := find?_eq_some_iff_append.mp hfind
      have hprefix : op <+: t :=
        prefix_of_prefix_length_le (List.isPrefixOf_iff_prefix.mp hop)
          (prefix_append t u) hlen
      -- a spelling before it that starts the cut would start the text
      have hcut : spellings.find? (·.isPrefixOf t) = some op := by
        apply find?_eq_some_iff_append.mpr
        refine ⟨List.isPrefixOf_iff_prefix.mpr hprefix, before, after, hsplit, ?_⟩
        intro op' hop'
        have hnot := hbefore op' hop'
        simp only [Bool.not_eq_true', ← Bool.not_eq_true, isPrefixOf_iff_prefix] at hnot ⊢
        exact fun hpre => hnot (hpre.trans (prefix_append t u))
      rw [hcut]
  · intro t u hpos
    unfold spelling at hpos ⊢
    cases hfind : spellings.find? (·.isPrefixOf t) with
    | none => simp [hfind] at hpos
    | some op =>
      have hfound := find?_some hfind
      have hop : op <+: t := isPrefixOf_iff_prefix.mp hfound
      cases hfull : spellings.find? (·.isPrefixOf (t ++ u)) with
      | none =>
        have hnot := find?_eq_none.mp hfull op (mem_of_find?_eq_some hfind)
        exact absurd (List.isPrefixOf_iff_prefix.mpr (hop.trans (prefix_append t u))) hnot
      | some op' =>
        exact length_pos_iff.mpr (hne op' (mem_of_find?_eq_some hfull))

theorem reads_lineBreak : Rule.Reads lineBreak fun piece => piece = ['\n'] := by
  intro s n
  constructor
  · intro h
    unfold lineBreak at h
    split at h
    · rename_i c cs
      split at h
      · rename_i hc
        exact ⟨['\n'], cs, by simp [hc], by simpa using h, rfl⟩
      · omega
    · omega
  · rintro ⟨_, rest, rfl, hlen, rfl⟩
    simpa [lineBreak] using hlen

theorem reads_escape : Rule.Reads escape fun piece => ∃ d, piece = ['\\', d] := by
  intro s n
  constructor
  · intro h
    unfold escape at h
    split at h
    · rename_i c d cs
      split at h
      · rename_i hc
        exact ⟨['\\', d], cs, by simp [hc], by simpa using h, d, rfl⟩
      · omega
    · omega
  · rintro ⟨_, rest, rfl, hlen, d, rfl⟩
    simpa [escape] using hlen

/-! ## Reading backwards -/

theorem length_lt_of_escapedReach? {s : List Char} {n : Nat} (h : escapedReach? mark s = some n) :
    n < s.length := by
  fun_induction escapedReach? mark s generalizing n with
  | case1 => cases h
  | case2 =>
    cases h
    exact Nat.one_pos
  | case3 => cases h
  | case4 c d cs hplain ih =>
    obtain ⟨k, hk, rfl⟩ := Option.map_eq_some_iff.mp h
    have := ih hk
    simp only [length_cons] at this ⊢
    omega
  | case5 c d cs hplain k hk ih =>
    cases h
    split at hk
    · have := ih hk
      simp only [length_cons]
      omega
    · cases hk
  | case6 =>
    cases h
    exact Nat.succ_pos _
  | case7 => cases h

end

theorem bounded_quotedBack (mark : Char) : Rule.Bounded (quotedBack mark) := by
  intro s
  unfold quotedBack
  split
  · split
    · split
      · rename_i n hn
        have := length_lt_of_escapedReach? hn
        simp only [length_cons]
        omega
      · exact Nat.zero_le _
    · exact Nat.zero_le _
  · exact Nat.zero_le _

theorem bounded_blockCommentBack : Rule.Bounded blockCommentBack := by
  intro s
  unfold blockCommentBack
  split
  · rename_i c d cs
    dsimp only
    split
    · split
      · rename_i hend
        have hlen : ((cs.drop (commentRunBack cs)).take 2).length = 2 := by rw [hend]; rfl
        rw [length_take, length_drop] at hlen
        simp only [length_cons]
        omega
      · exact Nat.zero_le _
    · exact Nat.zero_le _
  · exact Nat.zero_le _

theorem bounded_escapeBack : Rule.Bounded escapeBack := by
  intro s
  unfold escapeBack
  split
  · split <;> simp
  · exact Nat.zero_le _

/-! ## Fat tokens -/

theorem early_of_reads {P : Rule → Prop} (hreads : ∀ {r Q}, Rule.Reads r Q → P r)
    (hfirst : ∀ {rs : List Rule}, (∀ r ∈ rs, P r) → P (firstOf rs)) : P code.early := by
  refine hfirst ?_
  simp only [note, literal, forall_mem_cons]
  refine ⟨hfirst ?_, hfirst ?_, forall_mem_nil _⟩
  · simp only [forall_mem_cons]
    exact ⟨hreads reads_directive, hreads reads_lineComment, hreads reads_blockComment,
      forall_mem_nil _⟩
  · simp only [forall_mem_cons]
    exact ⟨hreads (reads_quoted (by decide)), hreads (reads_quoted (by decide)), forall_mem_nil _⟩

theorem bounded_code_early : Rule.Bounded code.early :=
  early_of_reads Rule.Reads.bounded bounded_firstOf

theorem steady_code_early : Rule.Steady code.early :=
  early_of_reads Rule.Reads.steady steady_firstOf

theorem bounded_code_late : Rule.Bounded code.late := by
  refine bounded_firstOf ?_
  simp only [forall_mem_cons]
  exact ⟨reads_lineBreak.bounded, bounded_runLength _, reads_escape.bounded, bounded_spelling _,
    bounded_runLength _, forall_mem_nil _⟩

theorem steady_code_late : Rule.Steady code.late := by
  refine steady_firstOf ?_
  simp only [forall_mem_cons]
  exact ⟨reads_lineBreak.steady, steady_runLength _, reads_escape.steady, steady_spelling (by decide),
    steady_runLength _, forall_mem_nil _⟩

theorem steady_code_leaf : Rule.Steady (firstOf [code.early, code.late]) := by
  refine steady_firstOf ?_
  simp only [forall_mem_cons]
  exact ⟨steady_code_early, steady_code_late, forall_mem_nil _⟩

theorem bounded_codeBack_early : Rule.Bounded codeBack.early := by
  refine bounded_firstOf ?_
  simp only [forall_mem_cons]
  exact ⟨bounded_blockCommentBack, bounded_quotedBack _, bounded_quotedBack _, forall_mem_nil _⟩

theorem bounded_codeBack_late : Rule.Bounded codeBack.late := by
  refine bounded_firstOf ?_
  simp only [forall_mem_cons]
  exact ⟨reads_lineBreak.bounded, bounded_runLength _, bounded_escapeBack, bounded_spelling _,
    bounded_runLength _, forall_mem_nil _⟩

namespace Grammar

variable {c : Char} {cs u t : List Char}

/-- Fat tokens and runs stay inside the text if leaves do, by induction on its length. -/
theorem lengths_le {g : Grammar} (hearly : Rule.Bounded g.early) (hlate : Rule.Bounded g.late)
    (s : List Char) : g.tokenLength s ≤ s.length ∧ g.runLength s ≤ s.length := by
  induction hlen : s.length using Nat.strongRecOn generalizing s with
  | ind size ih =>
    subst hlen
    cases s with
    | nil =>
      constructor
      · rw [tokenLength]; exact Nat.le_refl 0
      · rw [runLength]; exact Nat.le_refl 0
    | cons c cs =>
      have htoken : g.tokenLength (c :: cs) ≤ (c :: cs).length := by
        have he := hearly (c :: cs)
        have hl := hlate (c :: cs)
        rw [tokenLength]
        split
        · rename_i n hn
          rwa [hn] at he
        · split
          · dsimp only
            split
            · rename_i hhead
              have hrun := (ih cs.length (by simp) cs rfl).2
              have hlt : g.runLength cs < cs.length := by
                refine Nat.lt_of_le_of_ne hrun fun heq => ?_
                rw [drop_eq_nil_of_le (Nat.le_of_eq heq.symm)] at hhead
                exact absurd hhead (by simp)
              simp only [length_cons]
              omega
            · exact hl
          · exact hl
      refine ⟨htoken, ?_⟩
      rw [runLength]
      split
      · exact Nat.zero_le _
      · rename_i n hn
        have hrest := (ih (cs.drop n).length (by
          simp only [length_drop, length_cons]; omega) (cs.drop n) rfl).2
        rw [hn] at htoken
        simp only [length_drop, length_cons] at hrest htoken ⊢
        omega

theorem bounded_code_tokenLength : Rule.Bounded code.tokenLength :=
  fun s => (lengths_le bounded_code_early bounded_code_late s).1

theorem bounded_code_blockLength (opener : Char) : Rule.Bounded (code.blockLength opener) := by
  intro s
  unfold blockLength
  split
  · split
    · exact bounded_code_tokenLength _
    · exact Nat.zero_le _
  · exact Nat.zero_le _

theorem bounded_codeBack_tokenLength : Rule.Bounded codeBack.tokenLength :=
  fun s => (lengths_le bounded_codeBack_early bounded_codeBack_late s).1

/-- A run of fat tokens is found in a cut that keeps it, if no token starts behind it
there. -/
def RunCut (t u : List Char) : Prop :=
  code.runLength (t ++ u) ≤ t.length → code.tokenLength (t.drop (code.runLength (t ++ u))) = 0 →
    code.runLength t = code.runLength (t ++ u)

/-- A token is found again when the text is cut behind it. -/
theorem tokenLength_cut_cons (hinside : RunCut cs u) (hpos : 0 < code.tokenLength (c :: cs ++ u))
    (hle : code.tokenLength (c :: cs ++ u) ≤ (c :: cs).length) :
    code.tokenLength (c :: cs) = code.tokenLength (c :: cs ++ u) := by
  rw [cons_append] at hpos hle ⊢
  cases hcloser : closerOf c with
  | none =>
    rw [tokenLength_of_closerOf_eq_none hcloser] at hpos hle ⊢
    rw [tokenLength_of_closerOf_eq_none hcloser]
    exact steady_code_leaf.cut (t := c :: cs) hpos hle
  | some d =>
    rw [tokenLength_of_closerOf hcloser] at hpos hle ⊢
    rw [tokenLength_of_closerOf hcloser]
    split at hpos
    · rename_i hhead
      rw [if_pos hhead] at hle ⊢
      simp only [length_cons] at hle
      have hlt : code.runLength (cs ++ u) < cs.length := by omega
      -- the closer of the block stands in the cut
      have hdrop : (cs.drop (code.runLength (cs ++ u))).head? = some d := by
        rw [head?_drop] at hhead ⊢
        rwa [getElem?_append_left hlt] at hhead
      obtain ⟨rest, hrest⟩ := head?_eq_some_iff.mp hdrop
      have hrun := hinside (by omega) (by rw [hrest]; exact tokenLength_closer hcloser rest)
      rw [hrun, if_pos hdrop]
    · omega

/-- The induction is on the length of the cut: a run asks for a token, and a block for the run
inside it. -/
theorem runCut (t u : List Char) : RunCut t u := by
  induction hsize : t.length using Nat.strongRecOn generalizing t with
  | ind size ih =>
    subst hsize
    intro hle hstop
    cases t with
    | nil =>
      simp only [length_nil] at hle
      rw [runLength_nil]
      omega
    | cons c cs =>
      cases hfull : code.tokenLength (c :: cs ++ u) with
      | zero =>
        have hzero := runLength_of_eq_zero hfull
        rw [hzero, drop_zero] at hstop
        rw [hzero, runLength_of_eq_zero hstop]
      | succ n =>
        have hrun := runLength_of_eq_succ hfull
        have hn : n + 1 ≤ (c :: cs).length := by omega
        have hcut : code.tokenLength (c :: cs) = n + 1 := by
          have hinside : RunCut cs u := ih cs.length (by simp) cs rfl
          rw [tokenLength_cut_cons hinside (by omega) (by omega), hfull]
        -- behind the first token the run goes on in the cut as in the text
        have hrest : (c :: cs ++ u).drop (n + 1) = (c :: cs).drop (n + 1) ++ u :=
          drop_append_of_le_length hn
        rw [hrest] at hrun
        rw [hrun, ← drop_drop] at hstop
        have hlater : RunCut ((c :: cs).drop (n + 1)) u := by
          refine ih _ ?_ _ rfl
          simp only [length_drop, length_cons]
          omega
        rw [hrun, runLength_of_eq_succ hcut, hlater (by rw [length_drop]; omega) hstop]

theorem tokenLength_cut (hpos : 0 < code.tokenLength (t ++ u))
    (hle : code.tokenLength (t ++ u) ≤ t.length) :
    code.tokenLength t = code.tokenLength (t ++ u) := by
  cases t with
  | nil =>
    simp only [length_nil] at hle
    omega
  | cons c cs => exact tokenLength_cut_cons (runCut cs u) hpos hle

theorem tokenLength_self (hne : t ≠ []) (h : code.tokenLength (t ++ u) = t.length) :
    code.tokenLength t = t.length := by
  have hpos : 0 < t.length := length_pos_iff.mpr hne
  rw [tokenLength_cut (u := u) (by omega) (by omega), h]

theorem runLength_self (h : code.runLength (t ++ u) = t.length) : code.runLength t = t.length := by
  rw [runCut t u (by omega) (by rw [h, drop_length, tokenLength_nil]), h]

theorem block_of_tokenLength {d : Char} (hcloser : closerOf c = some d)
    (hpos : 0 < code.tokenLength (c :: cs)) :
    ∃ inside rest, cs = inside ++ d :: rest ∧ code.runLength (inside ++ d :: rest) = inside.length ∧
      code.tokenLength (c :: cs) = inside.length + 2 := by
  have hlength := tokenLength_of_closerOf hcloser cs
  split at hlength
  · rename_i hhead
    obtain ⟨rest, hrest⟩ := head?_eq_some_iff.mp hhead
    have hle := (lengths_le bounded_code_early bounded_code_late cs).2
    have hsplit : cs.take (code.runLength cs) ++ d :: rest = cs := by
      rw [← hrest, take_append_drop]
    have hlen : (cs.take (code.runLength cs)).length = code.runLength cs := by
      rw [length_take, Nat.min_eq_left hle]
    exact ⟨_, rest, hsplit.symm, by rw [hsplit, hlen], by rw [hlength, hlen]⟩
  · omega

end Grammar

end CBoundary.Lex
