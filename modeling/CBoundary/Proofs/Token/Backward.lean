import CBoundary.Proofs.Lex.Blocks
import CBoundary.Proofs.Token.Layers

/-!
# Operands from their ends

In a plain text that its tokens cover, each word and each block, at whatever depth, is found
again from its end.
-/

namespace CBoundary

open Text List CBoundary.Lex

namespace Lex

/-! ## Words end where they end -/

theorem Plain.wordAt_getLast? {c : Char} {cs : List Char} (h : Plain (c :: cs)) {n : Nat}
    (htoken : code.tokenLength (c :: cs) = n + 1) (hc : isWordChar c = false) :
    wordAt ((c :: cs).take (n + 1)).getLast? = false := by
  cases hcloser : closerOf c with
  | none =>
    rw [show code.tokenLength (c :: cs) = _ from h.sober.tokenLength_leaf hcloser] at htoken
    have hnone : ∀ d ∈ (c :: cs).take (n + 1), isWordChar d = false := by
      intro d hd
      obtain ⟨r, hr, hfound⟩ := exists_of_firstOf htoken
      simp only [mem_cons, not_mem_nil, or_false] at hr
      rcases hr with rfl | rfl | rfl | rfl
      · rw [take_of_lineBreak hfound] at hd
        rw [mem_singleton.mp hd]
        rfl
      · rw [← hfound] at hd
        have hblank : isBlank d = true := of_mem_take_runLength hd
        simp only [isBlank, Bool.or_eq_true, beq_iff_eq] at hblank
        rcases hblank with (rfl | rfl) | rfl <;> rfl
      · have hchars : operators.all (fun op => op.all fun d => !isWordChar d) = true := by decide
        have hop := all_eq_true.mp hchars _ (take_of_spelling hfound)
        simpa using all_eq_true.mp hop d hd
      · have hzero : word (c :: cs) = 0 := by simp [word, Text.runLength, hc]
        omega
    cases hlast : ((c :: cs).take (n + 1)).getLast? with
    | none => rfl
    | some d => exact hnone d (mem_of_getLast? hlast)
  | some d =>
    obtain ⟨inside, rest, rfl, -, hblock⟩ :=
      Grammar.block_of_tokenLength hcloser (by rw [htoken]; exact Nat.succ_pos n)
    obtain rfl : n = inside.length + 1 := Nat.succ.inj (htoken.symm.trans hblock)
    have htake : (c :: (inside ++ d :: rest)).take (inside.length + 1 + 1) =
        (c :: inside) ++ [d] := by
      rw [take_succ_cons, take_length_add_append, take_succ_cons, take_zero,
        cons_append]
    rw [htake, getLast?_concat]
    exact isWordChar_eq_false (isBracket_of_openerOf (closerOf_eq_some_iff.mp hcloser))

theorem Plain.wordAt_drop {s : List Char} (h : Plain s) {n : Nat}
    (htoken : code.tokenLength s = n + 1) (hlast : wordAt (s.take (n + 1)).getLast? = true) :
    wordAt (s.drop (n + 1)).head? = false := by
  cases s with
  | nil => simp at htoken
  | cons c cs =>
    cases hc : isWordChar c with
    | false =>
      rw [h.wordAt_getLast? htoken hc] at hlast
      cases hlast
    | true =>
      rw [Grammar.tokenLength_of_isWordChar hc] at htoken
      have hdrop : (c :: cs).drop (n + 1) = (c :: cs).dropWhile isWordChar := by
        rw [← htoken, Text.runLength]
        nth_rewrite 2 [← takeWhile_append_dropWhile (p := isWordChar) (l := c :: cs)]
        exact drop_left
      have hhead := head?_dropWhile_not isWordChar (c :: cs)
      rw [hdrop]
      cases hrest : ((c :: cs).dropWhile isWordChar).head? with
      | none => rfl
      | some d =>
        rwa [hrest] at hhead

end Lex

namespace Token

variable {base : Int} {t : Token} {s : List Char} {before : Option Char}

/-! ## Where tokens stand -/

/-- The tokens of a text and, layer by layer, of the insides of its blocks. -/
inductive Among (s : List Char) (base : Int) : Token → Prop where
  | outer {t : Token} (h : t ∈ scan s base) : Among s base t
  | inner {t u : Token} {d : Char} (h : Among s base u) (hblock : u.closer? = some d)
      (ht : t ∈ scan (Text.interior u.chars) (u.span.start + 1)) : Among s base t

/-- The token stands in a text behind a character. It is one token on its own, and a word does not
go on to its left. -/
def Placed (s : List Char) (base : Int) (before : Option Char) (t : Token) : Prop :=
  ∃ front rear, s = front ++ (t.chars ++ rear) ∧
    t.span = ⟨base + front.length, base + front.length + t.chars.length⟩ ∧
    t.chars ≠ [] ∧ code.tokenLength t.chars = t.chars.length ∧
    (wordAt t.chars.head? = true → wordAt (front.getLast?.or before) = false)

theorem Placed.within {front piece : List Char} (hne : front ≠ [])
    (h : Placed piece (base + front.length) front.getLast? t) (rear : List Char)
    (before : Option Char) : Placed (front ++ (piece ++ rear)) base before t := by
  obtain ⟨front', rear', rfl, hspan, hchars, hself, hword⟩ := h
  refine ⟨front ++ front', rear' ++ rear, ?_, ?_, hchars, hself, fun hstart => ?_⟩
  · simp only [append_assoc]
  · rw [hspan, length_append]
    simp only [Span.mk.injEq]
    omega
  · have hlast := hword hstart
    rw [getLast?_eq_some_getLast hne] at hlast
    rw [getLast?_append, getLast?_eq_some_getLast hne]
    cases hfront : front'.getLast? with
    | none =>
      rwa [hfront] at hlast
    | some e =>
      rwa [hfront] at hlast

theorem placed_ofFront {n : Nat} (htoken : code.tokenLength s = n + 1)
    (hbefore : wordAt before = true → wordAt s.head? = false) (base : Int) :
    Placed s base before (ofFront s (n + 1) base) := by
  have hbound := Grammar.bounded_code_tokenLength s
  rw [htoken] at hbound
  have hsplit : s.take (n + 1) ++ s.drop (n + 1) = s := take_append_drop _ _
  have hlength : (s.take (n + 1)).length = n + 1 := length_take_of_le hbound
  have hne : s.take (n + 1) ≠ [] := ne_nil_of_length_eq_add_one hlength
  refine ⟨[], s.drop (n + 1), ?_, ?_, ?_, ?_, fun hword => ?_⟩
  · rw [chars_ofFront, nil_append, hsplit]
  · rw [chars_ofFront, hlength]
    simp [ofFront]
  · rwa [chars_ofFront]
  · rw [chars_ofFront]
    refine Grammar.tokenLength_self (u := s.drop (n + 1)) hne ?_
    rw [hsplit, htoken, hlength]
  · rw [chars_ofFront, head?_take, if_neg (Nat.succ_ne_zero n)] at hword
    cases hb : wordAt before with
    | false => exact hb
    | true =>
      rw [hbefore hb] at hword
      cases hword

/-- The tokens of a plain text that is one run are placed in it. -/
theorem placed_of_mem_scan (hplain : Plain s) (hrun : code.runLength s = s.length)
    (hbefore : wordAt before = true → wordAt s.head? = false) (ht : t ∈ scan s base) :
    Placed s base before t := by
  induction hsize : s.length using Nat.strongRecOn generalizing s base before t with
  | ind size ih =>
    cases htoken : code.tokenLength s with
    | zero =>
      rw [Grammar.runLength_of_eq_zero htoken] at hrun
      rw [eq_nil_of_length_eq_zero hrun.symm, scan_nil] at ht
      cases ht
    | succ n =>
      have hbound := Grammar.bounded_code_tokenLength s
      rw [htoken] at hbound
      have hlength : (s.take (n + 1)).length = n + 1 := length_take_of_le hbound
      rw [scan_of_eq_succ htoken] at ht
      rcases mem_cons.mp ht with rfl | ht
      · exact placed_ofFront htoken hbefore base
      · obtain ⟨u, hu, rfl⟩ := mem_map.mp ht
        have hrest : Placed (s.drop (n + 1)) (base + (s.take (n + 1)).length)
            (s.take (n + 1)).getLast? u := by
          rw [hlength]
          refine ih (s.drop (n + 1)).length ?_ (hplain.of_isInfix (drop_suffix _ _).isInfix)
            ?_ (fun hlast => hplain.wordAt_drop htoken hlast) hu rfl
          · rw [length_drop]
            omega
          · rw [Grammar.runLength_of_eq_succ htoken] at hrun
            rw [length_drop]
            omega
        have hplaced := hrest.within (ne_nil_of_length_eq_add_one hlength) [] before
        rwa [append_nil, take_append_drop] at hplaced

theorem Among.exists_scan (h : Among s base t) : ∃ s' base', t ∈ scan s' base' := by
  cases h with
  | outer h => exact ⟨_, _, h⟩
  | inner _ _ ht => exact ⟨_, _, ht⟩

theorem Among.placed (h : Among s base t) (hplain : Plain s)
    (hrun : code.runLength s = s.length) : Placed s base none t := by
  induction h with
  | outer h => exact placed_of_mem_scan hplain hrun (fun h => by cases h) h
  | @inner t u d h hblock ht ih =>
    obtain ⟨s', base', hu⟩ := h.exists_scan
    obtain ⟨⟨c, hcloser, hchars⟩, hinside⟩ := block_of_mem_scan hu hblock
    obtain ⟨front, rear, hs, hspan, -⟩ := ih
    have hwhole : s = (front ++ [c]) ++ (Text.interior u.chars ++ (d :: rear)) := by
      rw [hs]
      nth_rewrite 1 [hchars]
      simp
    have hopener : wordAt (some c) = false :=
      isWordChar_eq_false (isBracket_of_closerOf hcloser)
    have hplaced : Placed (Text.interior u.chars) (base + (front ++ [c]).length)
        (front ++ [c]).getLast? t := by
      rw [getLast?_concat]
      refine placed_of_mem_scan ?_ hinside (fun hword => ?_) ?_
      · exact hplain.of_isInfix ⟨front ++ [c], d :: rear, by rw [hwhole, append_assoc]⟩
      · rw [hopener] at hword
        cases hword
      · rw [hspan, Int.add_assoc] at ht
        rwa [length_append]
    rw [hwhole]
    exact hplaced.within (by simp) (d :: rear) none

end Token

/-! ## Back from the end -/

theorem Lex.tokenLength_codeBack_word {piece front : List Char} (hne : piece ≠ [])
    (hpiece : ∀ c ∈ piece, isWordChar c = true) (hfront : wordAt front.getLast? = false)
    (hescape : '\\' ∉ front) :
    codeBack.tokenLength (piece.reverse ++ front.reverse) = piece.length := by
  have hlength : Text.runLength isWordChar (piece.reverse ++ front.reverse) = piece.length := by
    have hstop : front.reverse.takeWhile isWordChar = [] := by
      rw [← head?_reverse] at hfront
      cases hleft : front.reverse with
      | nil => rfl
      | cons d ds =>
        rw [hleft] at hfront
        exact takeWhile_cons_of_neg (Bool.eq_false_iff.mp hfront)
    rw [Text.runLength, takeWhile_append_of_pos fun c hc => hpiece c (mem_reverse.mp hc),
      hstop, append_nil, length_reverse]
  cases hpieces : piece.reverse with
  | nil => exact absurd (reverse_eq_nil_iff.mp hpieces) hne
  | cons c cs =>
    have hword : ∀ d ∈ c :: cs, isWordChar d = true := by
      intro d hd
      rw [← hpieces] at hd
      exact hpiece d (mem_reverse.mp hd)
    have hnext : (cs ++ front.reverse).head? ≠ some '\\' := by
      intro hhead
      rcases mem_append.mp (mem_of_mem_head? hhead) with hmem | hmem
      · exact absurd (hword _ (mem_cons_of_mem c hmem)) (by decide)
      · exact hescape (mem_reverse.mp hmem)
    rw [hpieces] at hlength
    rw [cons_append,
      Grammar.tokenLength_codeBack_of_isWordChar (hword c mem_cons_self), firstOf_pair,
      escapeBack_eq_zero hnext, if_pos rfl]
    exact hlength

namespace Token

theorem tokenBefore?_of_tokenLength {front piece rear : List Char} (hne : piece ≠ [])
    (h : codeBack.tokenLength (piece.reverse ++ front.reverse) = piece.length) :
    tokenBefore? (front ++ (piece ++ rear)) (front.length + piece.length) =
      some (front.length, front.length + piece.length) := by
  obtain ⟨n, hn⟩ := Nat.exists_eq_succ_of_ne_zero (length_pos_iff.mpr hne).ne'
  have hmin : min (front.length + piece.length) (front ++ (piece ++ rear)).length =
      (front ++ piece).length := by
    simp only [length_append]
    omega
  have htake : (front ++ (piece ++ rear)).take (front ++ piece).length = front ++ piece := by
    rw [← append_assoc, take_left]
  unfold tokenBefore?
  dsimp only
  rw [hmin, htake, reverse_append, h, hn, length_append, hn]
  simp

/-- **Backward reading finds the operands of forward reading.** In a plain text that its tokens
cover, the token before the end of a word or a block, at any depth, is that word or block. -/
theorem tokenBefore?_of_among (s : List Char) (hplain : Lex.Plain s)
    (hcovered : Span.Tile 0 (0 + s.length) ((scan s 0).map Token.span)) (t : Token)
    (ht : Among s 0 t) (hkind : t.kind = .word ∨ t.closer?.isSome = true) :
    Lex.tokenBefore? s t.span.stop.toNat = some (t.span.start.toNat, t.span.stop.toNat) := by
  obtain ⟨front, rear, rfl, hspan, hne, hself, hword⟩ :=
    ht.placed hplain ((tile_scan_iff s 0).mp hcovered)
  obtain ⟨s', base', hscan⟩ := ht.exists_scan
  have hstart : t.span.start.toNat = front.length := by
    rw [hspan]
    simp
  have hstop : t.span.stop.toNat = front.length + t.chars.length := by
    rw [hspan]
    simp only
    omega
  have hescape : '\\' ∉ front := fun hmem =>
    hplain.ne_backslash (mem_append_left _ hmem) rfl
  rw [hstart, hstop]
  refine tokenBefore?_of_tokenLength hne ?_
  rcases hkind with hkind | hblock
  · obtain ⟨_, _, _, _, _, _, hnone⟩ := found_of_mem_scan hscan
    rw [kind, hnone] at hkind
    obtain ⟨c, cs, hchars, hc⟩ := Kind.exists_cons_of_word hkind
    change t.chars = c :: cs at hchars
    have hpiece : ∀ d ∈ t.chars, isWordChar d = true := by
      rw [hchars, Grammar.tokenLength_of_isWordChar hc] at hself
      have hwhole : Text.runLength isWordChar (c :: cs ++ []) = (c :: cs).length := by
        rw [append_nil, hself]
      rw [hchars]
      exact Text.forall_mem_of_runLength hwhole
    have hleft := hword (by rw [hchars]; exact hc)
    rw [Option.or_none] at hleft
    exact tokenLength_codeBack_word hne hpiece hleft hescape
  · obtain ⟨d, hcloser⟩ := Option.isSome_iff_exists.mp hblock
    obtain ⟨⟨c, hc, hchars⟩, -⟩ := block_of_mem_scan hscan hcloser
    have hpiece : Plain (front ++ t.chars) := hplain.of_isInfix ⟨[], rear, by simp⟩
    have hwhole : Plain t.chars := hpiece.of_isInfix (suffix_append _ _).isInfix
    refine Block.tokenLength_codeBack ?_ hpiece
    rw [hchars] at hself hwhole ⊢
    have htoken := hwhole.block_of_tokenLength hc hself
    rwa [take_of_length_le (by simp)] at htoken

/-- An index inside a call: `i---j` is cut differently from the left and from the right. -/
theorem tokenBefore?_of_among_index :
    Lex.Plain "f(a[i---j])".toList ∧ Lex.tokenBefore? "f(a[i---j])".toList 10 = some (3, 10) := by
  have hmarks : "f(a[i---j])".toList.all (fun c => !(['\"', '\'', '#', '\\'].contains c)) =
      true := by decide +kernel
  have hplain : Plain "f(a[i---j])".toList := by
    refine ⟨fun c hc hmark => ?_, by decide +kernel, by decide +kernel, by decide +kernel⟩
    have hfree := all_eq_true.mp hmarks c hc
    rw [contains_iff_mem.mpr hmark] at hfree
    cases hfree
  have hcovered : code.runLength "f(a[i---j])".toList = "f(a[i---j])".toList.length := by
    decide +kernel
  have hcall : Among "f(a[i---j])".toList 0 ⟨1, ⟨1, 11⟩, "(a[i---j])", none⟩ :=
    .outer (by decide +kernel)
  have hindex : Among "f(a[i---j])".toList 0 ⟨1, ⟨3, 10⟩, "[i---j]", none⟩ :=
    .inner hcall (d := ')') (by decide +kernel) (by decide +kernel)
  exact ⟨hplain, tokenBefore?_of_among _ hplain ((tile_scan_iff _ _).mpr hcovered) _ hindex
    (.inr (by decide +kernel))⟩

end Token

end CBoundary
