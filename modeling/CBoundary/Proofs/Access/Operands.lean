import CBoundary.Proofs.Access.Inside

/-!
# What is found inside operands

The search for chains comes by what is inside parentheses, and looks once more into an operand
in parentheses.  In a plain text it finds there what it has found already.
-/

namespace CBoundary

open CBoundary.Lex List

namespace AccessChain

variable {c : Char} {cs : List Char} {h : Holder}

/-! ## Operands of plain texts -/

theorem balanced_token {n : Nat} (hplain : Plain (c :: cs).reverse)
    (hn : codeBack.tokenLength (c :: cs) = n + 1) : Balanced (c :: cs.take n).reverse := by
  have hsober := hplain.sober_back
  refine balanced_reverse_iff_closed.mpr (hsober.closed_token ?_ hn)
  exact (hsober.of_suffix (suffix_cons c cs)).closed_run

theorem block_token {n : Nat} (hplain : Plain (c :: cs).reverse)
    (hn : codeBack.tokenLength (c :: cs) = n + 1)
    (hhead : (c :: cs.take n).reverse.head? = some '(') : Block (c :: cs.take n).reverse := by
  cases hopener : openerOf c with
  | none =>
    have hleaf := (hplain.sober_back.tokenLength_leaf hopener).symm.trans hn
    have hmem : '(' ∈ (c :: cs).take (n + 1) := mem_reverse.mp (mem_of_mem_head? hhead)
    exact absurd (Direction.isLeafChar_of_leaf hleaf '(' hmem) (by decide)
  | some o => exact block_reverse_iff.mpr (hplain.sober_back.block_of_tokenLength hopener hn)

/-- A block at a place, with balanced text behind it. -/
def BlockBefore (h : Holder) (text : List Char) : Prop :=
  ∃ front gap, text = front ++ (h.chars ++ gap) ∧ h.pos = front.length ∧
    Block h.chars ∧ Balanced gap

theorem BlockBefore.append {text more : List Char} (hblock : BlockBefore h text)
    (hmore : Balanced more) : BlockBefore h (text ++ more) := by
  obtain ⟨front, gap, rfl, hfront, hblock, hgap⟩ := hblock
  exact ⟨front, gap ++ more, by simp only [append_assoc], hfront, hblock, hgap.append hmore⟩

/-- An operand in parentheses is a block, with balanced text up to its accesses. -/
theorem FoundBack.blockBefore {before : List Char} (hfound : FoundBack before h)
    (hplain : Plain before.reverse) (hhead : h.chars.head? = some '(') :
    BlockBefore h before.reverse := by
  induction hfound with
  | @here c cs n hn =>
    refine ⟨(cs.drop n).reverse, [], ?_, by rw [length_reverse], block_token hplain hn hhead,
      .nil⟩
    rw [append_nil]
    exact (standsAt_of_tokenLength hn rfl).2
  | further hn _ ih =>
    obtain ⟨-, hsplit⟩ := standsAt_of_tokenLength hn rfl
    rw [hsplit]
    exact (ih (hplain.of_isInfix ⟨[], _, hsplit.symm⟩) hhead).append (balanced_token hplain hn)

/-! ## Operands are searched twice -/

namespace Area

variable {a b : Area}
variable {front rest w : List Char} {r : Run}

/-- No call stands behind an access that has no operand. -/
def Anchored (a : Area) : Prop :=
  ∀ r ∈ runs 0 [] a.chars, holder? r.pos r.before = none →
    ∀ l ∈ r.links, ∀ x ∈ l.suffixes, x.head? ≠ some '('

/-- If the search comes by a balanced text in parentheses, it finds all that is found in there. -/
theorem outside_subset_of_runs {t : List Char}
    (hchars : a.chars = front ++ '(' :: (t ++ ')' :: rest)) (hplain : Plain a.chars)
    (ht : Balanced t) {early : List Run} (hruns : runs 0 [] a.chars =
      early ++ runs (front.length + 1) ('(' :: front.reverse) (t ++ ')' :: rest)) :
    outside ⟨a.offset + front.length + 1, t⟩ ⊆ a.outside := by
  intro m hm
  obtain ⟨g, hg, hm⟩ := mem_flatMap.mp hm
  obtain ⟨r, hr, h, hholder, rfl⟩ := mem_sightings.mp hg
  dsimp only at hr
  have hshift : r.shift (front.length + 1) ('(' :: front.reverse) ∈ runs 0 [] a.chars := by
    have hrest : Plain (t ++ ')' :: rest) := hplain.of_isInfix
      ⟨front ++ ['('], [], by rw [hchars]; simp⟩
    obtain ⟨late, hlate⟩ := runs_append (show closerOf '(' = some ')' from rfl)
      (front.length + 1) ('(' :: front.reverse) hrest (shut_of_balanced ht)
    have hall := runs_shift (front.length + 1) ('(' :: front.reverse) 0 [] t
    rw [Nat.zero_add, nil_append] at hall
    rw [hruns, hlate, hall]
    exact mem_append_right _ (mem_append_left _ (mem_map_of_mem hr))
  have hsame : holder? (r.pos + (front.length + 1)) (r.before ++ '(' :: front.reverse) =
      some (h.shift (front.length + 1)) := by
    obtain ⟨behind, hsplit, hpos, -⟩ := linksAt_of_mem_runs hr rfl
    rw [reverse_nil, nil_append] at hsplit
    have henclosed : Enclosed r.before front.reverse := by
      refine ⟨hplain.of_isInfix ⟨[], behind ++ ')' :: rest, ?_⟩, fun u v huv => ?_⟩
      · rw [hchars, hsplit]
        simp
      · refine ht.depth_append.2 u (v ++ behind) ?_
        rw [hsplit, huv, append_assoc]
    rw [hpos, (searches_append henclosed _).2, ← hpos, hholder]
    rfl
  refine mem_flatMap.mpr ⟨_, mem_sightings.mpr ⟨_, hshift, _, hsame, rfl⟩, ?_⟩
  have hplace : a.offset + ((r.shift (front.length + 1) ('(' :: front.reverse)).pos : Int) =
      a.offset + front.length + 1 + r.pos := by
    unfold Run.shift
    push_cast
    omega
  unfold Sighting.outside sighting AccessChain.places at hm ⊢
  rwa [hplace]

theorem le_pos_of_mem_runs {r' : Run} (hr : r ∈ runs 0 [] a.chars) (hr' : r' ∈ runs 0 [] a.chars)
    (hlt : r.pos < r'.pos) : r.pos + linksLength r.links ≤ r'.pos := by
  have hpairwise := (pairwise_runs 0 [] a.chars).2
  refine List.Pairwise.forall_of_forall_of_flip
    (R := fun r r' => r.pos < r'.pos → r.pos + linksLength r.links ≤ r'.pos)
    (fun r _ hlt => absurd hlt (Nat.lt_irrefl _)) ?_ ?_ hr hr' hlt
  · refine hpairwise.imp ?_
    intro r r' hle _
    exact hle
  · refine hpairwise.imp ?_
    intro r r' hle hlt
    omega

/-- A run over the start of a block in parentheses calls it, if it ends in a balanced gap behind it.
-/
theorem mem_suffixesOf_of_block (hplain : Plain a.chars) (hr : r ∈ runs 0 [] a.chars)
    {gap : List Char} (hchars : a.chars = front ++ (w ++ (gap ++ rest))) (hw : Block w)
    (hhead : w.head? = some '(') (hgap : Balanced gap) (hstart : r.pos ≤ front.length)
    (hin : front.length < r.pos + linksLength r.links)
    (hend : r.pos + linksLength r.links ≤ (front ++ (w ++ gap)).length) :
    (a.offset + front.length, w) ∈ suffixesOf (a.offset + r.pos) r.links := by
  obtain ⟨behind, hsplit, hpos, hlinks, -⟩ := linksAt_of_mem_runs hr rfl
  rw [reverse_nil, nil_append] at hsplit
  have hparen : behind[front.length - r.pos]? = some '(' := by
    have hat : a.chars[front.length]? = some '(' := by
      rw [hchars, getElem?_append_right (Nat.le_refl _), Nat.sub_self,
        ← head?_eq_getElem?, head?_append_of_ne_nil _ hw.ne_nil]
      exact hhead
    rwa [hsplit, getElem?_append_right (by rwa [length_reverse, ← hpos]),
      length_reverse, ← hpos] at hat
  rw [← hlinks] at hin hend ⊢
  obtain ⟨x, hx, hle, hlt⟩ := mem_suffixesOf_of_paren (a.offset + r.pos)
    (show front.length - r.pos < linksLength (linksAt behind) by omega) hparen
  obtain ⟨l, hl, hmem⟩ := exists_of_mem_suffixesOf hx
  have hblock : Block x.2 := block_of_mem_linksAt
    (hplain.of_isInfix ⟨r.before.reverse, [], by rw [hsplit, append_nil]⟩) hl hmem
  obtain ⟨-, ⟨f, rear, hf, hflength⟩⟩ := (chained_linksAt behind).suffixesOf hx
  have hbounds := (bounds_of_mem_suffixesOf hx).2
  -- both blocks in the whole text
  have hboth : r.before.reverse ++ f ++ (x.2 ++ rear) = front ++ (w ++ (gap ++ rest)) := by
    rw [← hchars, hsplit, hf, append_assoc]
  have hlength : (r.before.reverse ++ f).length ≤ front.length := by
    rw [length_append, length_reverse, ← hpos]
    omega
  obtain ⟨u, rfl, hu⟩ : ∃ u, front = r.before.reverse ++ f ++ u ∧
      x.2 ++ rear = u ++ (w ++ (gap ++ rest)) := by
    obtain ⟨u, hfront⟩ := prefix_of_prefix_length_le
      ⟨x.2 ++ rear, hboth⟩ (prefix_append front (w ++ (gap ++ rest))) hlength
    refine ⟨u, hfront.symm, ?_⟩
    rw [← hfront, append_assoc _ u] at hboth
    exact append_cancel_left hboth
  simp only [length_append, length_reverse, ← hpos] at hlt hend hle ⊢
  obtain ⟨rfl, hsame⟩ := hblock.eq_of_gap hw hgap hu (by omega) (by
    simp only [length_append]
    omega)
  have hat : (a.offset + (r.pos + f.length + 0 : Nat), w) = x := by
    refine Prod.ext ?_ hsame.symm
    omega
  rwa [length_nil, hat]

theorem outside_subset_of_suffix (hanchored : a.Anchored) (hr : r ∈ runs 0 [] a.chars) {pos : Int}
    (hcall : (pos, w) ∈ suffixesOf (a.offset + r.pos) r.links) (hhead : w.head? = some '(') :
    outside ⟨pos + 1, Text.interior w⟩ ⊆ a.outside := by
  cases hholder : holder? r.pos r.before with
  | none =>
    obtain ⟨l, hl, hmem⟩ := exists_of_mem_suffixesOf hcall
    exact absurd hhead (hanchored r hr hholder l hl _ hmem)
  | some h =>
    have hmem : (⟨pos + 1, Text.interior w⟩ : Area) ∈ (a.sighting r h).suffixes :=
      mem_map.mpr ⟨_, hcall, rfl⟩
    intro m hm
    refine mem_flatMap.mpr ⟨_, mem_sightings.mpr ⟨r, hr, h, hholder, rfl⟩, ?_⟩
    refine mem_append_right _ (mem_flatMap.mpr ⟨_, hmem, ?_⟩)
    exact (perm_places _).subset (mem_append_left _ hm)

/-- **What is found inside an operand is found outside too**, by the search that has found the run.
-/
theorem outside_subset (hplain : Plain a.chars) (hanchored : a.Anchored) {g : Sighting}
    (hg : g ∈ a.sightings) (hb : g.operand = some b) : b.outside ⊆ a.outside := by
  obtain ⟨r, hr, h, hholder, rfl⟩ := mem_sightings.mp hg
  change (if h.chars.head? = some '(' then _ else none) = some b at hb
  split at hb
  · rename_i hhead
    cases hb
    obtain ⟨rest, hsplit, hpos, -⟩ := linksAt_of_mem_runs hr rfl
    rw [reverse_nil, nil_append] at hsplit
    obtain ⟨front, gap, hbefore, hfront, hblock, hgap⟩ :=
      (foundBack_holder? hholder hpos).blockBefore (hplain.of_isInfix ⟨[], rest, hsplit.symm⟩) hhead
    have hchars : a.chars = front ++ (h.chars ++ (gap ++ rest)) := by
      rw [hsplit, hbefore]
      simp only [append_assoc]
    obtain ⟨c, t, d, ht, hcloser, hinside⟩ := id hblock
    have hwhole : a.chars = front ++ '(' :: (t ++ ')' :: (gap ++ rest)) := by
      rw [ht] at hhead
      cases hhead
      cases hcloser
      rw [hchars, ht]
      simp
    have hinterior : Text.interior h.chars = t := by
      rw [ht, Text.interior, drop_succ_cons, drop_zero, dropLast_concat]
    rw [hfront, hinterior]
    have hlength : front.length + 1 ≤ a.chars.length := by
      rw [hwhole, length_append, length_cons]
      omega
    have hplace : r.pos = (front ++ (h.chars ++ gap)).length := by
      rw [hpos, ← length_reverse, hbefore]
    rcases runs_at 0 [] a.chars hlength with ⟨early, hearly⟩ | ⟨r', hr', hstart, hin⟩
    · have htake : ((a.chars.take (front.length + 1)).reverse ++ [] : List Char) =
          '(' :: front.reverse := by
        rw [hwhole, take_length_add_append]
        simp
      have hdrop : a.chars.drop (front.length + 1) = t ++ ')' :: (gap ++ rest) := by
        rw [hwhole, drop_length_add_append]
        rfl
      rw [Nat.zero_add, htake, hdrop] at hearly
      exact outside_subset_of_runs hwhole hplain hinside hearly
    · have hsize := length_pos_iff.mpr hblock.ne_nil
      have hfar : front.length < r.pos := by
        rw [hplace, length_append, length_append]
        omega
      have hend : r'.pos + linksLength r'.links ≤ r.pos := le_pos_of_mem_runs hr' hr (by omega)
      have hcall := mem_suffixesOf_of_block hplain hr' hchars hblock hhead hgap (by omega)
        (by omega) (hplace ▸ hend)
      rw [← hinterior]
      exact outside_subset_of_suffix hanchored hr' hcall hhead
  · cases hb

theorem places_subset_outside (hplain : Plain a.chars)
    (hanchored : ∀ b, a.Reaches b → b.Anchored) : a.places ⊆ a.outside := by
  induction hlen : a.chars.length using Nat.strongRecOn generalizing a with
  | ind size ih =>
    subst hlen
    intro m hm
    rcases mem_append.mp (a.perm_places.symm.subset hm) with hm | hm
    · exact hm
    · obtain ⟨g, hg, hm⟩ := mem_flatMap.mp hm
      obtain ⟨b, hb, hm⟩ := mem_flatMap.mp hm
      have hnext : b ∈ g.areas := mem_append_left _ hb
      obtain ⟨⟨front, rear, hs, -⟩, hshorter⟩ := standsAt_of_mem_areas hg hnext
      have hinner : b.places ⊆ b.outside := by
        refine ih _ hshorter (hplain.of_isInfix ⟨front, rear, ?_⟩) (fun c hc => ?_) rfl
        · rw [hs, append_assoc]
        · exact hanchored c (.head ⟨g, hg, hnext⟩ hc)
      exact outside_subset hplain (hanchored a .refl) hg (Option.mem_toList.mp hb) (hinner hm)

theorem mem_chains_iff {chain : AccessChain} :
    chain ∈ a.chains ↔ ∃ b, a.Reaches b ∧ ∃ g ∈ b.sightings, g.chain = chain := by
  constructor
  · refine forall_mem_chains
      (P := fun a chain => ∃ b, a.Reaches b ∧ ∃ g ∈ b.sightings, g.chain = chain)
      (fun a g hg => ⟨a, .refl, g, hg, rfl⟩) ?_ a chain
    rintro a b hcall chain ⟨c, hc, hchain⟩
    exact ⟨c, .head hcall hc, hchain⟩
  · rintro ⟨b, hb, g, hg, rfl⟩
    induction hb using Relation.ReflTransGen.head_induction_on with
    | refl =>
      rw [chains_eq]
      exact mem_flatMap.mpr ⟨g, hg, mem_cons_self⟩
    | head hcall _ ih =>
      obtain ⟨g', hg', hmem⟩ := hcall
      rw [chains_eq]
      refine mem_flatMap.mpr ⟨g', hg', mem_cons_of_mem _ ?_⟩
      exact mem_flatMap.mpr ⟨_, hmem, ih⟩

/-- No operand in parentheses has chains inside. -/
def Flat (a : Area) : Prop :=
  ∀ chain ∈ a.chains, chain.name.toList.head? = some '(' →
    chains ⟨chain.span.start + 1, Text.interior chain.name.toList⟩ = []

theorem flat_iff : a.Flat ↔
    ∀ b, a.Reaches b → ∀ g ∈ b.sightings, ∀ c, g.operand = some c → c.chains = [] := by
  have hoperand {b c : Area} {g : Sighting} (hg : g ∈ b.sightings) : g.operand = some c ↔
      g.chain.name.toList.head? = some '(' ∧
        c = ⟨g.chain.span.start + 1, Text.interior g.chain.name.toList⟩ := by
    obtain ⟨r, -, h, -, rfl⟩ := mem_sightings.mp hg
    rw [sighting, String.toList_ofList]
    split
    · rename_i hhead
      rw [Option.some_inj]
      exact ⟨fun heq => ⟨hhead, heq.symm⟩, fun heq => heq.2.symm⟩
    · rename_i hhead
      exact ⟨fun heq => absurd heq.symm (Option.some_ne_none c), fun heq => absurd heq.1 hhead⟩
  constructor
  · intro hflat b hb g hg c hc
    obtain ⟨hhead, rfl⟩ := (hoperand hg).mp hc
    exact hflat _ (mem_chains_iff.mpr ⟨b, hb, g, hg, rfl⟩) hhead
  · intro hall chain hchain hhead
    obtain ⟨b, hb, g, hg, rfl⟩ := mem_chains_iff.mp hchain
    exact hall b hb g hg _ ((hoperand hg).mpr ⟨hhead, rfl⟩)

theorem places_eq_nil_iff : a.places = [] ↔ a.chains = [] := by
  constructor
  · intro h
    refine eq_nil_iff_forall_not_mem.mpr fun chain hchain => ?_
    have hnonempty := (placedIn_of_mem_chains hchain).nonempty
    have hall := flatMap_eq_nil_iff.mp h chain hchain
    exact hnonempty (map_eq_nil_iff.mp hall)
  · intro h
    rw [places, h, flatMap_nil]

theorem Flat.nodup_places (h : a.Flat) : a.places.Nodup := by
  refine (nodup_places_iff a).mpr fun b hb => ?_
  have hinside : b.inside = [] := by
    refine flatMap_eq_nil_iff.mpr fun g hg => flatMap_eq_nil_iff.mpr fun c hc => ?_
    exact places_eq_nil_iff.mpr (flat_iff.mp h b hb g hg c (Option.mem_toList.mp hc))
  rw [hinside]
  exact ⟨nodup_nil, disjoint_nil_right _⟩

theorem flat_of_nodup_places (hplain : Plain a.chars) (hanchored : ∀ b, a.Reaches b → b.Anchored)
    (h : a.places.Nodup) : a.Flat := by
  refine flat_iff.mpr fun b hb g hg c hc => ?_
  obtain ⟨front, rear, hs, -⟩ := Reaches.standsAt hb
  have hb' : Plain b.chars := hplain.of_isInfix ⟨front, rear, by rw [hs, append_assoc]⟩
  have hnext : c ∈ g.areas := mem_append_left _ (Option.mem_toList.mpr hc)
  obtain ⟨⟨front', rear', hs', -⟩, -⟩ := standsAt_of_mem_areas hg hnext
  have hc' : Plain c.chars := hb'.of_isInfix ⟨front', rear', by rw [hs', append_assoc]⟩
  rw [← places_eq_nil_iff]
  refine eq_nil_iff_forall_not_mem.mpr fun m hm => ?_
  have hinside : m ∈ b.inside := mem_flatMap.mpr
    ⟨g, hg, mem_flatMap.mpr ⟨c, Option.mem_toList.mpr hc, hm⟩⟩
  have houtside : m ∈ b.outside := by
    refine outside_subset hb' (hanchored b hb) hg hc (places_subset_outside hc' ?_ hm)
    exact fun d hd => hanchored d (hb.trans (.head ⟨g, hg, hnext⟩ hd))
  exact ((nodup_places_iff a).mp h b hb).2 houtside hinside

end Area

/-- **When each member is found once.** That is so exactly if, in each search at any depth, what is
found inside operands is found there once and not outside. It is so if no operand in parentheses has
chains inside; and in a plain text, where no call stands behind an access without an operand, only
then, since the search comes by the inside of an operand on its own. -/
theorem nodup_scanBack_iff (offset : Int) (s : List Char) :
    (((scanBack offset s).flatMap places).Nodup ↔ ∀ a, Area.Reaches ⟨offset, s⟩ a →
      a.inside.Nodup ∧ a.outside.Disjoint a.inside) ∧
    ((∀ chain ∈ scanBack offset s, chain.name.toList.head? = some '(' →
        scanBack (chain.span.start + 1) (Text.interior chain.name.toList) = []) →
      ((scanBack offset s).flatMap places).Nodup) ∧
    (Plain s → (∀ a, Area.Reaches ⟨offset, s⟩ a → a.Anchored) →
      (((scanBack offset s).flatMap places).Nodup ↔
        ∀ chain ∈ scanBack offset s, chain.name.toList.head? = some '(' →
          scanBack (chain.span.start + 1) (Text.interior chain.name.toList) = [])) := by
  refine ⟨Area.nodup_places_iff ⟨offset, s⟩, fun hflat => ?_, fun hplain hanchored => ?_⟩
  · exact Area.Flat.nodup_places (a := ⟨offset, s⟩) hflat
  · exact ⟨Area.flat_of_nodup_places (a := ⟨offset, s⟩) hplain hanchored,
      Area.Flat.nodup_places (a := ⟨offset, s⟩)⟩

/-- An operand with an access inside: the access is found on its own and in the operand. -/
theorem nodup_scanBack_iff_operand : Plain "1 + (x->bb)->cc".toList ∧
      (∀ a, Area.Reaches ⟨0, "1 + (x->bb)->cc".toList⟩ a → a.Anchored) ∧
      (scanBack 0 "1 + (x->bb)->cc".toList).flatMap places = [⟨8, 10⟩, ⟨13, 15⟩, ⟨8, 10⟩] ∧
      ¬ ((scanBack 0 "1 + (x->bb)->cc".toList).flatMap places).Nodup := by
  have hplain : Plain "1 + (x->bb)->cc".toList := by
    refine ⟨fun c hc hmark => ?_, by decide +kernel, by decide +kernel, by decide +kernel⟩
    have hmarks : "1 + (x->bb)->cc".toList.all (fun c => !(['\"', '\'', '#', '\\'].contains c)) =
        true := by decide +kernel
    have hfree := all_eq_true.mp hmarks c hc
    rw [contains_iff_mem.mpr hmark] at hfree
    cases hfree
  have hanchored : ∀ a, Area.Reaches ⟨0, "1 + (x->bb)->cc".toList⟩ a → a.Anchored := by
    have hfirst : (Area.sightings ⟨0, "1 + (x->bb)->cc".toList⟩).flatMap Sighting.areas =
        [⟨5, "x->bb".toList⟩] := by decide +kernel
    have hsecond : (Area.sightings ⟨5, "x->bb".toList⟩).flatMap Sighting.areas = [] := by
      decide +kernel
    intro a ha
    rcases Relation.ReflTransGen.cases_head ha with rfl | ⟨b, hb, ha⟩
    · unfold Area.Anchored
      decide +kernel
    · have hmem := mem_flatMap.mpr hb
      rw [hfirst] at hmem
      obtain rfl := mem_singleton.mp hmem
      rcases Relation.ReflTransGen.cases_head ha with rfl | ⟨c, hc, -⟩
      · unfold Area.Anchored
        decide +kernel
      · have hmem := mem_flatMap.mpr hc
        rw [hsecond] at hmem
        cases hmem
  refine ⟨hplain, hanchored, by decide +kernel, fun hnodup => ?_⟩
  have hflat := ((nodup_scanBack_iff 0 _).2.2 hplain hanchored).mp hnodup
  have hinside : scanBack 5 "x->bb".toList = [] :=
    hflat ⟨"(x->bb)", [("cc", ⟨13, 15⟩)], ⟨4, 15⟩⟩ (by decide +kernel) (by decide +kernel)
  revert hinside
  decide +kernel

end AccessChain

end CBoundary
