import CBoundary.Access.Chain
import CBoundary.Proofs.Text.Clean

/-!
# Where the members of access chains stand

Every member of a chain that is found backwards from its accesses is a whole word of the text,
right behind an arrow or a dot.  This holds in the text in which the chain was found, and from
there in every text around it.
-/

namespace CBoundary

open Text List

namespace AccessChain

variable {piece w s cs before : List Char} {j i pos' : Int} {d c : Char} {n pos : Nat} {l : Link}
  {ls : List Link} {m : String × Span} {x : Int × List Char} {h : Holder}

/-- A whole word stands at an offset, right behind an arrow or a dot. -/
structure MemberAt (s : List Char) (i : Int) (w : List Char) : Prop where
  nonempty : w ≠ []
  word : ∀ c ∈ w, isWordChar c = true
  place : ∃ front mark rear, s = front ++ mark :: (w ++ rear) ∧ i = front.length + 1 ∧
    (mark = '.' ∨ mark = '>') ∧ wordAt rear.head? = false

theorem MemberAt.within (h : MemberAt piece j w) (front : List Char) {rear : List Char}
    (hrear : wordAt rear.head? = false) :
    MemberAt (front ++ (piece ++ rear)) (front.length + j) w := by
  obtain ⟨front', mark, rear', rfl, rfl, hmark, hrear'⟩ := h.place
  refine ⟨h.nonempty, h.word, front ++ front', mark, rear' ++ rear, ?_, ?_, hmark, ?_⟩
  · simp only [append_assoc, cons_append]
  · rw [length_append, Int.natCast_add]
    omega
  · cases rear' with
    | nil => exact hrear
    | cons c cs => exact hrear'

theorem MemberAt.of_standsAt (h : MemberAt piece j w) (hs : StandsAt s i (piece ++ [d]))
    (hd : isWordChar d = false) : MemberAt s (i + j) w := by
  obtain ⟨front, rear, rfl, rfl⟩ := hs
  rw [append_assoc]
  exact h.within front (show wordAt ([d] ++ rear).head? = false from hd)

theorem MemberAt.of_cleaned {t : List Char} (hclean : Cleaned s t) (h : MemberAt t i w) :
    MemberAt s i w := by
  obtain ⟨front, mark, rear, rfl, rfl, hmark, hrear⟩ := h.place
  obtain ⟨front', behind, rfl, hlength, hbehind⟩ := hclean.split
    (by rcases hmark with rfl | rfl <;> decide) (by rcases hmark with rfl | rfl <;> decide)
  obtain ⟨rear', rfl, hrear'⟩ := hbehind.word h.word hrear
  exact ⟨h.nonempty, h.word, front', mark, rear', rfl, by rw [hlength], hmark, hrear'⟩

/-! ## Calls and indexes -/

/-- The text ends with no word character. -/
def Bracketed (s : List Char) : Prop :=
  ∃ c inside d, s = c :: (inside ++ [d]) ∧ isWordChar d = false

theorem Bracketed.standsAt (h : Bracketed piece) (hs : StandsAt s i piece) :
    ∃ d, isWordChar d = false ∧ StandsAt s (i + 1) (Text.interior piece ++ [d]) := by
  obtain ⟨c, inside, d, rfl, hd⟩ := h
  refine ⟨d, hd, hs.trans ⟨[c], [], ?_, rfl⟩⟩
  rw [Text.interior, drop_succ_cons, drop_zero, dropLast_concat, append_nil]
  rfl

theorem isWordChar_of_closerOf (h : Lex.closerOf c = some d) : isWordChar d = false := by
  unfold Lex.closerOf at h
  split at h <;> cases h <;> rfl

theorem block_of_blockLength {o : Char} (ho : (Lex.closerOf o).isSome = true)
    (h : Lex.code.blockLength o (c :: cs) = n + 1) :
    ∃ rest, c :: cs = (c :: cs.take n) ++ rest ∧ rest = cs.drop n ∧ Bracketed (c :: cs.take n) := by
  change (if c = o then Lex.code.tokenLength (c :: cs) else 0) = n + 1 at h
  split at h
  · rename_i hc
    subst hc
    obtain ⟨d, hd⟩ := Option.isSome_iff_exists.mp ho
    have hpos : 0 < Lex.code.tokenLength (c :: cs) := by omega
    obtain ⟨inside, rest, rfl, -, hlength⟩ := Lex.Grammar.block_of_tokenLength hd hpos
    have hn : n = (inside ++ [d]).length := by
      rw [length_append, length_singleton]
      omega
    have happend : inside ++ d :: rest = (inside ++ [d]) ++ rest := by simp
    refine ⟨rest, ?_, ?_, c, inside, d, ?_, isWordChar_of_closerOf hd⟩
    · rw [happend, hn, take_left, cons_append]
    · rw [happend, hn, drop_left]
    · rw [happend, hn, take_left]
  · cases h

theorem suffixesAt_spec (s : List Char) :
    (∃ rest, s = (suffixesAt s).flatten ++ rest) ∧ ∀ x ∈ suffixesAt s, Bracketed x := by
  fun_induction suffixesAt s with
  | case1 => exact ⟨⟨[], rfl⟩, fun x hx => absurd hx not_mem_nil⟩
  | case2 c cs hzero => exact ⟨⟨c :: cs, rfl⟩, fun x hx => absurd hx not_mem_nil⟩
  | case3 c cs n hn ih =>
    obtain ⟨⟨rest, hrest⟩, hall⟩ := ih
    have hblock : ∃ rest, c :: cs = (c :: cs.take n) ++ rest ∧ rest = cs.drop n ∧
        Bracketed (c :: cs.take n) := by
      rw [Lex.firstOf_pair] at hn
      split at hn <;> exact block_of_blockLength (by decide) hn
    obtain ⟨_, hsplit, rfl, hbracketed⟩ := hblock
    refine ⟨⟨rest, ?_⟩, fun x hx => ?_⟩
    · rwa [flatten_cons, append_assoc, ← hrest]
    · rcases mem_cons.mp hx with rfl | hx
      · exact hbracketed
      · exact hall x hx

/-! ## Links -/

/-- A link at the front of a text: an arrow or a dot, a whole word, and what is bracketed. -/
structure Link.Heads (l : Link) (s : List Char) : Prop where
  member : MemberAt s l.accessor l.name
  split : ∃ front rest, s = front ++ (l.suffixes.flatten ++ rest) ∧
    front.length = l.accessor + l.name.length
  suffixes : ∀ x ∈ l.suffixes, Bracketed x

theorem accessorAt_spec (h : accessorAt s ≠ 0) :
    ∃ front mark rest, s = front ++ [mark] ++ rest ∧ accessorAt s = (front ++ [mark]).length ∧
      (mark = '.' ∨ mark = '>') ∧ '(' ∉ front ++ [mark] := by
  unfold accessorAt at h ⊢
  split at h
  · exact ⟨['-'], '>', _, rfl, rfl, .inr rfl, by decide⟩
  · exact ⟨[], '.', _, rfl, rfl, .inl rfl, by decide⟩
  · exact absurd rfl h

theorem nameAt_spec (h : nameAt s ≠ []) :
    ∃ rest, s = nameAt s ++ rest ∧ (∀ c ∈ nameAt s, isWordChar c = true) ∧
      wordAt rest.head? = false := by
  unfold nameAt at h ⊢
  split at h
  · rename_i hstart
    rw [if_pos hstart]
    refine ⟨s.dropWhile isWordChar, takeWhile_append_dropWhile.symm,
      all_eq_true.mp all_takeWhile, ?_⟩
    cases hrest : (s.dropWhile isWordChar).head? with
    | none => rfl
    | some c =>
      have := head?_dropWhile_not isWordChar s
      rw [hrest] at this
      simpa [wordAt] using this
  · exact absurd rfl h

theorem linkAt?_eq_some (h : linkAt? s = some l) :
    accessorAt s ≠ 0 ∧ nameAt (s.drop (accessorAt s)) ≠ [] ∧
      l = ⟨accessorAt s, nameAt (s.drop (accessorAt s)),
        suffixesAt ((s.drop (accessorAt s)).drop (nameAt (s.drop (accessorAt s))).length)⟩ := by
  unfold linkAt? at h
  dsimp only at h
  split at h
  · cases h
  · rename_i hsome
    simp only [Bool.or_eq_true, decide_eq_true_eq, not_or, List.isEmpty_iff] at hsome
    cases h
    exact ⟨hsome.1, hsome.2, by rw [drop_drop]⟩

theorem heads_of_linkAt? (h : linkAt? s = some l) : l.Heads s := by
  obtain ⟨haccessor, hname, rfl⟩ := linkAt?_eq_some h
  obtain ⟨front, mark, rest, rfl, hlength, hmark, -⟩ := accessorAt_spec haccessor
  rw [hlength, drop_left] at hname ⊢
  obtain ⟨behind, hrest, hword, hbehind⟩ := nameAt_spec hname
  have hsuffixes : rest.drop (nameAt rest).length = behind := by
    nth_rewrite 2 [hrest]
    exact drop_left
  rw [hsuffixes]
  obtain ⟨⟨further, hfurther⟩, hall⟩ := suffixesAt_spec behind
  refine ⟨⟨hname, hword, front, mark, behind, ?_, ?_, hmark, hbehind⟩,
    ⟨front ++ [mark] ++ nameAt rest, further, ?_, ?_⟩, hall⟩
  · rw [← hrest, append_assoc, singleton_append]
  · rw [length_append]
    rfl
  · rw [← hfurther, append_assoc (front ++ [mark]), ← hrest]
  · rw [length_append]

theorem Link.Heads.drop (h : l.Heads s) :
    ∃ front, s = front ++ s.drop l.length ∧ front.length = l.length := by
  obtain ⟨front, rest, hs, hlength⟩ := h.split
  have hfront : (front ++ l.suffixes.flatten).length = l.length := by
    rw [length_append, hlength]
    rfl
  refine ⟨front ++ l.suffixes.flatten, ?_, hfront⟩
  rw [← append_assoc] at hs
  rw [hs, ← hfront, drop_left]

theorem Link.Heads.length_pos (h : l.Heads s) : 0 < l.length := by
  have := length_pos_iff.mpr h.member.nonempty
  unfold Link.length
  omega

/-- Links that stand at the front of a text, one right after the other. -/
inductive Chained : List Char → List Link → Prop
  | nil (s : List Char) : Chained s []
  | cons {l : Link} {s : List Char} {ls : List Link} : l.Heads s → Chained (s.drop l.length) ls →
      Chained s (l :: ls)

theorem chained_linksAt (s : List Char) : Chained s (linksAt s) := by
  fun_induction linksAt s with
  | case1 => exact .nil _
  | case2 c cs hnone => exact .nil _
  | case3 c cs l hl ih =>
    have hheads := heads_of_linkAt? hl
    have hpos := hheads.length_pos
    refine .cons hheads ?_
    rwa [show l.length = l.length - 1 + 1 by omega, drop_succ_cons]

theorem linksLength_cons (l : Link) (ls : List Link) :
    linksLength (l :: ls) = l.length + linksLength ls := by
  have hshift (ls : List Link) (n : Nat) : ls.foldl (fun n l => n + l.length) n =
      n + linksLength ls := by
    induction ls generalizing n with
    | nil => rfl
    | cons l ls ih =>
      rw [linksLength, foldl_cons, foldl_cons, ih, ih, Nat.zero_add, Nat.add_assoc]
  rw [linksLength, foldl_cons, hshift, Nat.zero_add]

theorem Chained.linksLength_le (h : Chained s ls) : linksLength ls ≤ s.length := by
  induction h with
  | nil s => exact Nat.zero_le _
  | cons hl hls ih =>
    obtain ⟨front, hs, hlength⟩ := hl.drop
    rw [linksLength_cons, hs, length_append, hlength]
    exact Nat.add_le_add_left ih _

/-- The name of a member stands at its span. -/
def Named (s : List Char) (pos : Int) (m : String × Span) : Prop :=
  MemberAt s (m.2.start - pos) m.1.toList ∧ m.2.stop = m.2.start + m.1.toList.length

theorem Named.within {pos : Int} (h : Named piece pos' m)
    (hs : StandsAt s (pos' - pos) (piece ++ [d])) (hd : isWordChar d = false) : Named s pos m := by
  have hmember := h.1.of_standsAt hs hd
  rw [show pos' - pos + (m.2.start - pos') = m.2.start - pos by omega] at hmember
  exact ⟨hmember, h.2⟩

theorem Named.behind {front : List Char} {pos : Int} (h : Named s pos' m)
    (hpos : pos' = pos + front.length) : Named (front ++ s) pos m := by
  have hmember := h.1.within front (show wordAt ([] : List Char).head? = false from rfl)
  rw [append_nil, show front.length + (m.2.start - pos') = m.2.start - pos by omega] at hmember
  exact ⟨hmember, h.2⟩

theorem Chained.named_membersOf (h : Chained s ls) {pos : Int} (hm : m ∈ membersOf pos ls) :
    Named s pos m := by
  induction h generalizing pos with
  | nil s => cases hm
  | @cons l s ls hl hls ih =>
    rcases mem_cons.mp hm with rfl | hm
    · refine ⟨?_, ?_⟩
      · have hmember := hl.member
        rw [String.toList_ofList]
        rwa [show pos + l.accessor - pos = (l.accessor : Int) by omega]
      · rw [String.toList_ofList]
    · obtain ⟨front, hs, hlength⟩ := hl.drop
      rw [hs]
      exact (ih hm).behind (by rw [hlength])

theorem mem_suffixes {suffixes : List (List Char)} {start : Int} {found : List (Int × List Char)}
    (hx : x ∈ (suffixes.foldl (fun (acc : List (Int × List Char) × Int) x =>
      (acc.1 ++ [(acc.2, x)], acc.2 + x.length)) (found, start)).1) :
    x ∈ found ∨ x.2 ∈ suffixes ∧ StandsAt suffixes.flatten (x.1 - start) x.2 := by
  induction suffixes generalizing start found with
  | nil => exact .inl hx
  | cons y ys ih =>
    rcases ih hx with hfound | ⟨hmem, hstands⟩
    · rcases mem_append.mp hfound with hfound | hfound
      · exact .inl hfound
      · cases mem_singleton.mp hfound
        refine .inr ⟨mem_cons_self, [], ys.flatten, rfl, ?_⟩
        exact Int.sub_self start
    · refine .inr ⟨mem_cons_of_mem y hmem, ?_⟩
      have hrest : StandsAt (y :: ys).flatten y.length ys.flatten :=
        ⟨y, [], by rw [append_nil, flatten_cons], rfl⟩
      have htrans := hrest.trans hstands
      rwa [show (y.length : Int) + (x.1 - (start + y.length)) = x.1 - start by omega] at htrans

theorem Chained.suffixesOf (h : Chained s ls) {pos : Int} (hx : x ∈ suffixesOf pos ls) :
    Bracketed x.2 ∧ StandsAt s (x.1 - pos) x.2 := by
  induction h generalizing pos with
  | nil s => cases hx
  | @cons l s ls hl hls ih =>
    rcases mem_append.mp hx with hx | hx
    · rcases mem_suffixes hx with hx | ⟨hmem, hstands⟩
      · cases hx
      · obtain ⟨front, rest, rfl, hlength⟩ := hl.split
        have hflat : StandsAt (front ++ (l.suffixes.flatten ++ rest)) front.length
            l.suffixes.flatten := ⟨front, rest, rfl, rfl⟩
        have htrans := hflat.trans hstands
        rw [hlength, show ((l.accessor + l.name.length : Nat) : Int) +
          (x.1 - (pos + l.accessor + l.name.length)) = x.1 - pos by omega] at htrans
        exact ⟨hl.suffixes _ hmem, htrans⟩
    · obtain ⟨hbracketed, hstands⟩ := ih hx
      obtain ⟨front, hs, hlength⟩ := hl.drop
      have hrest : StandsAt s l.length (s.drop l.length) :=
        ⟨front, [], by rw [append_nil]; exact hs, by rw [hlength]⟩
      have htrans := hrest.trans hstands
      rw [show (l.length : Int) + (x.1 - (pos + l.length)) = x.1 - pos by omega] at htrans
      exact ⟨hbracketed, htrans⟩

/-! ## Runs of links -/

theorem linksLength_bounds (h : linksAt s = l :: ls) :
    0 < linksLength (l :: ls) ∧ linksLength (l :: ls) ≤ s.length := by
  have hchained : Chained s (l :: ls) := h ▸ chained_linksAt s
  refine ⟨?_, hchained.linksLength_le⟩
  cases hchained with
  | cons hl hls =>
    have hpos := hl.length_pos
    rw [linksLength_cons]
    omega

/-- A run holds the links of the text behind it. -/
theorem linksAt_of_mem_runs {r : Run} (h : r ∈ runs pos before s) (hpos : pos = before.length) :
    ∃ rest, before.reverse ++ s = r.before.reverse ++ rest ∧ r.pos = r.before.length ∧
      linksAt rest = r.links ∧ r.links ≠ [] := by
  fun_induction runs pos before s with
  | case1 => cases h
  | case2 pos before c cs hnone ih =>
    obtain ⟨rest, hrest, hr⟩ := ih h (by rw [hpos, length_cons])
    refine ⟨rest, ?_, hr⟩
    rw [← hrest, reverse_cons, append_assoc]
    rfl
  | case3 pos before c cs l ls hlinks n ih =>
    rcases mem_cons.mp h with rfl | h
    · exact ⟨c :: cs, rfl, hpos, hlinks, cons_ne_nil l ls⟩
    · obtain ⟨hn, hle⟩ : 0 < n ∧ n ≤ (c :: cs).length := linksLength_bounds hlinks
      have hdrop : cs.drop (n - 1) = (c :: cs).drop n := by
        rw [show n = n - 1 + 1 by omega, drop_succ_cons]
        rfl
      obtain ⟨rest, hrest, hr⟩ := ih h (by
        rw [length_append, length_reverse, length_take]
        omega)
      refine ⟨rest, ?_, hr⟩
      rw [← hrest, hdrop, reverse_append, reverse_reverse, append_assoc,
        take_append_drop]

/-! ## Operands -/

theorem bracketed_of_tokenLength (hn : Lex.codeBack.tokenLength (c :: cs) = n + 1)
    (hhead : (c :: cs.take n).reverse.head? = some '(') :
    (c :: cs.take n).reverse = ['('] ∨ Bracketed (c :: cs.take n).reverse := by
  have hc : isWordChar c = false := by
    refine Bool.eq_false_iff.mpr fun hc => Lex.Grammar.getLast?_of_isWordChar hc hn ?_
    rwa [head?_reverse] at hhead
  rw [reverse_cons] at hhead ⊢
  cases hinside : (cs.take n).reverse with
  | nil =>
    rw [hinside] at hhead
    cases hhead
    exact .inl rfl
  | cons d inside => exact .inr ⟨d, inside, c, rfl, hc⟩

theorem standsAt_of_tokenLength (hn : Lex.codeBack.tokenLength (c :: cs) = n + 1)
    (hpos : pos = (c :: cs).length) :
    pos - (n + 1) = (cs.drop n).length ∧
      (c :: cs).reverse = (cs.drop n).reverse ++ (c :: cs.take n).reverse := by
  have hle := Lex.Grammar.bounded_codeBack_tokenLength (c :: cs)
  simp only [length_cons] at hle hpos
  refine ⟨?_, ?_⟩
  · rw [length_drop]
    omega
  · rw [← reverse_append, cons_append, take_append_drop]

/-- The operand is one of the tokens that are found backwards in a text. -/
inductive FoundBack : List Char → Holder → Prop
  | here {c : Char} {cs : List Char} {n : Nat} (hn : Lex.codeBack.tokenLength (c :: cs) = n + 1) :
      FoundBack (c :: cs) ⟨(cs.drop n).length, (c :: cs.take n).reverse⟩
  | further {c : Char} {cs : List Char} {n : Nat} {h : Holder}
      (hn : Lex.codeBack.tokenLength (c :: cs) = n + 1) (hrest : FoundBack (cs.drop n) h) :
      FoundBack (c :: cs) h

theorem foundBack_token (hn : Lex.codeBack.tokenLength (c :: cs) = n + 1)
    (hpos : pos = (c :: cs).length) :
    FoundBack (c :: cs) ⟨pos - (n + 1), (c :: cs.take n).reverse⟩ := by
  rw [(standsAt_of_tokenLength hn hpos).1]
  exact .here hn

theorem foundBack_callee? (hcallee : callee? pos before = some h) (hpos : pos = before.length) :
    FoundBack before h := by
  fun_induction callee? pos before with
  | case1 | case2 | case8 => cases hcallee
  | case3 pos c cs n hn chars hkind ih | case4 pos c cs n hn chars hkind ih
  | case5 pos c cs n hn chars hkind ih | case6 pos c cs n hn chars hkind ih =>
    exact .further hn (ih hcallee (standsAt_of_tokenLength hn hpos).1)
  | case7 pos c cs n hn chars hkind =>
    cases hcallee
    exact foundBack_token hn hpos

/-- An operand is found token by token. -/
theorem foundBack_holder? (hholder : holder? pos before = some h) (hpos : pos = before.length) :
    FoundBack before h := by
  fun_induction holder? pos before with
  | case1 | case2 | case10 => cases hholder
  | case3 pos c cs n hn found hkind ih | case4 pos c cs n hn found hkind ih
  | case5 pos c cs n hn found hkind ih | case6 pos c cs n hn found hkind ih
  | case7 pos c cs n hn found hkind ih =>
    exact .further hn (ih hholder (standsAt_of_tokenLength hn hpos).1)
  | case8 pos c cs n hn found hkind =>
    exact Option.some.inj hholder ▸ foundBack_token hn hpos
  | case9 pos c cs n hn found hkind =>
    cases hcallee : callee? found.pos (cs.drop n) with
    | some callee =>
      rw [hcallee] at hholder
      cases hholder
      exact .further hn (foundBack_callee? hcallee (standsAt_of_tokenLength hn hpos).1)
    | none =>
      rw [hcallee] at hholder
      exact Option.some.inj hholder ▸ foundBack_token hn hpos

theorem standsAt_append_left (h : StandsAt s i piece) (t : List Char) :
    StandsAt (s ++ t) i piece := by
  obtain ⟨front, rear, rfl, rfl⟩ := h
  exact ⟨front, rear ++ t, by simp only [append_assoc], rfl⟩

/-- What is found backwards stands where it says. -/
theorem FoundBack.standsAt (hfound : FoundBack before h) :
    StandsAt before.reverse h.pos h.chars := by
  induction hfound with
  | @here c cs n hn =>
    refine ⟨(cs.drop n).reverse, [], ?_, by rw [length_reverse]⟩
    rw [append_nil]
    exact (standsAt_of_tokenLength hn rfl).2
  | further hn _ ih =>
    rw [(standsAt_of_tokenLength hn rfl).2]
    exact standsAt_append_left ih _

theorem FoundBack.bracketed (hfound : FoundBack before h) (hhead : h.chars.head? = some '(') :
    h.chars = ['('] ∨ Bracketed h.chars := by
  induction hfound with
  | here hn => exact bracketed_of_tokenLength hn hhead
  | further _ _ ih => exact ih hhead

/-! ## Chains -/

/-- The name of every member stands at its span. -/
theorem named_of_mem_scanBack {offset : Int} {chain : AccessChain}
    (hchain : chain ∈ scanBack offset s) (hm : m ∈ chain.members) : Named s offset m := by
  induction hlen : s.length using Nat.strongRecOn generalizing s offset with
  | ind size ih =>
    subst hlen
    rw [scanBack] at hchain
    obtain ⟨r, hr, hchain⟩ := mem_flatMap.mp hchain
    obtain ⟨rest, hrest, hpos, hrun, -⟩ := linksAt_of_mem_runs hr rfl
    have hlinks : Chained rest r.links := hrun ▸ chained_linksAt rest
    rw [reverse_nil, nil_append] at hrest
    have hbehind : StandsAt s r.pos rest :=
      ⟨r.before.reverse, [], by rw [append_nil]; exact hrest,
        by rw [length_reverse, hpos]⟩
    -- the inside of what is bracketed and stands in the text
    have hinside {start : Int} {piece : List Char} (hpiece : Bracketed piece)
        (hstands : StandsAt s (start - offset) piece) (hlt : (Text.interior piece).length < s.length)
        (hmem : chain ∈ scanBack (start + 1) (Text.interior piece)) : Named s offset m := by
      obtain ⟨d, hd, hplace⟩ := hpiece.standsAt hstands
      rw [show start - offset + 1 = start + 1 - offset by omega] at hplace
      exact (ih _ hlt hmem rfl).within hplace hd
    split at hchain
    · cases hchain
    · rename_i h hholder
      rcases mem_append.mp hchain with hchain | hchain
      · rcases mem_cons.mp hchain with rfl | hchain
        · have hnamed := hlinks.named_membersOf hm
          rw [hrest]
          exact hnamed.behind (by rw [length_reverse, hpos])
        · split at hchain
          · rename_i hparen
            have hfound := foundBack_holder? hholder hpos
            rcases hfound.bracketed hparen.1 with halone | hbracketed
            · rw [halone] at hchain
              change chain ∈ scanBack _ [] at hchain
              rw [scanBack, runs, flatMap_nil] at hchain
              cases hchain
            · have hbefore : StandsAt s (offset + h.pos - offset) h.chars := by
                obtain ⟨front, rear, hs, hfront⟩ := hfound.standsAt
                refine ⟨front, rear ++ rest, ?_, by omega⟩
                rw [hrest, hs]
                simp only [append_assoc]
              exact hinside hbracketed hbefore hparen.2 hchain
          · cases hchain
      · obtain ⟨x, hx, hchain⟩ := mem_flatMap.mp hchain
        obtain ⟨hbracketed, hstands⟩ := hlinks.suffixesOf hx
        dsimp only at hchain
        split at hchain
        · rename_i hlt
          refine hinside hbracketed ?_ hlt hchain
          have htrans := hbehind.trans hstands
          rwa [show (r.pos : Int) + (x.1 - (offset + r.pos)) = x.1 - offset by omega] at htrans
        · cases hchain

end AccessChain

end CBoundary
