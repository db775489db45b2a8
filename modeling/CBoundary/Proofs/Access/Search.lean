import CBoundary.Proofs.Access.Members
import Mathlib.Logic.Relation

/-!
# The search for access chains

A run of links with an operand is a sighting: it gives a chain, and texts that are searched
next.  Each of these is shorter than the text and stands in it, so that whatever is found at any
depth stands where it says in the text that was searched first.
-/

namespace CBoundary

open Text List

namespace AccessChain

variable {s : List Char} {pos : Int} {ls : List Link} {m : String × Span}

/-- A text to be searched for chains, and the offset at which it starts. -/
structure Area where
  offset : Int
  chars : List Char
  deriving DecidableEq

/-- What a run of links gives: its chain, and the texts that are searched next. -/
structure Sighting where
  chain : AccessChain
  /-- The inside of the operand, if that is in parentheses. -/
  operand : Option Area
  /-- The insides of the calls and indexes. -/
  suffixes : List Area
  deriving DecidableEq

/-- The texts that are searched next. -/
def Sighting.areas (g : Sighting) : List Area := g.operand.toList ++ g.suffixes

namespace Area

/-- What is seen at a run of links with an operand. -/
def sighting (a : Area) (r : Run) (h : Holder) : Sighting where
  chain :=
    { name := String.ofList h.chars
      members := membersOf (a.offset + r.pos) r.links
      span := ⟨a.offset + h.pos, a.offset + r.pos + linksLength r.links⟩ }
  operand :=
    if h.chars.head? = some '(' then some ⟨a.offset + h.pos + 1, Text.interior h.chars⟩ else none
  suffixes := (suffixesOf (a.offset + r.pos) r.links).map fun x => ⟨x.1 + 1, Text.interior x.2⟩

/-- The sightings in a text, from left to right. -/
def sightings (a : Area) : List Sighting :=
  (runs 0 [] a.chars).flatMap fun r => ((holder? r.pos r.before).map (a.sighting r)).toList

/-- All chains of a text. -/
def chains (a : Area) : List AccessChain := scanBack a.offset a.chars

/-- One search makes another. -/
def Calls (a b : Area) : Prop := ∃ g ∈ a.sightings, b ∈ g.areas

/-- One search leads to another, at any depth. -/
abbrev Reaches : Area → Area → Prop := Relation.ReflTransGen Calls

theorem mem_sightings {a : Area} {g : Sighting} : g ∈ a.sightings ↔
    ∃ r ∈ runs 0 [] a.chars, ∃ h, holder? r.pos r.before = some h ∧ g = a.sighting r h := by
  simp only [sightings, mem_flatMap, Option.mem_toList, Option.map_eq_some_iff]
  refine exists_congr fun r => and_congr_right fun _ => exists_congr fun h =>
    and_congr_right fun _ => eq_comm

end Area

/-! ## Members in order -/

/-- A letter or an underscore, and word characters behind it. -/
def IsIdentifier (w : List Char) : Prop :=
  w.head?.any isNameStart = true ∧ ∀ c ∈ w, isWordChar c = true

theorem isIdentifier_nameAt (h : nameAt s ≠ []) : IsIdentifier (nameAt s) := by
  obtain ⟨rest, hs, hword, -⟩ := nameAt_spec h
  refine ⟨?_, hword⟩
  have hhead : s.head? = (nameAt s).head? := by
    nth_rewrite 1 [hs]
    exact head?_append_of_ne_nil _ h
  unfold nameAt at h
  split at h
  · rename_i hstart
    rwa [hhead] at hstart
  · exact absurd rfl h

theorem isIdentifier_of_mem_linksAt {l : Link} (h : l ∈ linksAt s) : IsIdentifier l.name := by
  fun_induction linksAt s with
  | case1 => cases h
  | case2 => cases h
  | case3 c cs l' hl ih =>
    rcases mem_cons.mp h with rfl | h
    · obtain ⟨-, hname, rfl⟩ := linkAt?_eq_some hl
      exact isIdentifier_nameAt hname
    · exact ih h

theorem name_of_mem_membersOf (hm : m ∈ membersOf pos ls) : ∃ l ∈ ls, m.1.toList = l.name := by
  induction ls generalizing pos with
  | nil => cases hm
  | cons l ls ih =>
    rcases mem_cons.mp hm with rfl | hm
    · exact ⟨l, mem_cons_self, String.toList_ofList⟩
    · obtain ⟨l', hl', hname⟩ := ih hm
      exact ⟨l', mem_cons_of_mem l hl', hname⟩

theorem bounds_of_mem_membersOf (hm : m ∈ membersOf pos ls) :
    pos ≤ m.2.start ∧ m.2.stop ≤ pos + linksLength ls := by
  induction ls generalizing pos with
  | nil => cases hm
  | cons l ls ih =>
    rw [linksLength_cons]
    unfold Link.length
    rcases mem_cons.mp hm with rfl | hm
    · dsimp only
      omega
    · have hbounds := ih hm
      unfold Link.length at hbounds
      omega

theorem pairwise_membersOf (pos : Int) (ls : List Link) :
    (membersOf pos ls).Pairwise fun m m' => m.2.stop ≤ m'.2.start := by
  induction ls generalizing pos with
  | nil => exact .nil
  | cons l ls ih =>
    refine .cons (fun m hm => ?_) (ih _)
    have hbounds := (bounds_of_mem_membersOf hm).1
    unfold Link.length at hbounds
    dsimp only
    omega

/-! ## Chains in their places -/

/-- The name of a chain stands where its span starts, and its members behind it within the span. -/
structure PlacedIn (offset : Int) (s : List Char) (chain : AccessChain) : Prop where
  name : StandsAt s (chain.span.start - offset) chain.name.toList
  nonempty : chain.members ≠ []
  members : ∀ m ∈ chain.members, IsIdentifier m.1.toList ∧
    StandsAt s (m.2.start - offset) m.1.toList ∧ m.2.stop = m.2.start + m.1.toList.length
  ordered : chain.members.Pairwise fun m m' => m.2.stop ≤ m'.2.start
  within : ∀ m ∈ chain.members, chain.span.start + chain.name.toList.length ≤ m.2.start ∧
    m.2.stop ≤ chain.span.stop
  ends : chain.span.stop ≤ offset + s.length

theorem PlacedIn.trans {piece : List Char} {offset offset' : Int} {chain : AccessChain}
    (h : PlacedIn offset' piece chain) (hpiece : StandsAt s (offset' - offset) piece) :
    PlacedIn offset s chain where
  name := by
    have htrans := hpiece.trans h.name
    rwa [show offset' - offset + (chain.span.start - offset') = chain.span.start - offset by omega]
      at htrans
  nonempty := h.nonempty
  members := by
    intro m hm
    obtain ⟨hword, hstands, hstop⟩ := h.members m hm
    have htrans := hpiece.trans hstands
    rw [show offset' - offset + (m.2.start - offset') = m.2.start - offset by omega] at htrans
    exact ⟨hword, htrans, hstop⟩
  ordered := h.ordered
  within := h.within
  ends := by
    obtain ⟨front, rear, rfl, hfront⟩ := hpiece
    have hends := h.ends
    simp only [length_append]
    omega

namespace Area

variable {a b : Area} {g : Sighting}

theorem standsAt_of_mem_runs {r : Run} (hr : r ∈ runs 0 [] a.chars) :
    ∃ rest, Chained rest r.links ∧ StandsAt a.chars r.pos rest ∧
      StandsAt a.chars 0 r.before.reverse ∧ r.pos = r.before.length ∧
      r.pos + rest.length = a.chars.length := by
  obtain ⟨rest, hrest, hpos, hrun, -⟩ := linksAt_of_mem_runs hr rfl
  have hlinks : Chained rest r.links := hrun ▸ chained_linksAt rest
  rw [reverse_nil, nil_append] at hrest
  have hlength : (r.before.reverse ++ rest).length = r.before.length + rest.length := by
    rw [length_append, length_reverse]
  refine ⟨rest, hlinks, ⟨r.before.reverse, [], ?_, ?_⟩, ⟨[], rest, hrest, rfl⟩, hpos, ?_⟩
  · rwa [append_nil]
  · rw [hpos, length_reverse]
  · rw [hrest, hlength, hpos]

theorem standsAt_holder {r : Run} (hr : r ∈ runs 0 [] a.chars) {h : Holder}
    (hholder : holder? r.pos r.before = some h) :
    StandsAt a.chars h.pos h.chars ∧ h.pos + h.chars.length ≤ r.pos := by
  obtain ⟨rest, -, -, hbefore, hpos, -⟩ := standsAt_of_mem_runs hr
  have hstands := (foundBack_holder? hholder hpos).standsAt
  refine ⟨?_, ?_⟩
  · have htrans := hbefore.trans hstands
    rwa [Int.zero_add] at htrans
  · obtain ⟨front, rear, hs, hfront⟩ := hstands
    have hlength := congrArg List.length hs
    simp only [length_reverse, length_append] at hlength
    omega

theorem placedIn_of_mem_sightings (hg : g ∈ a.sightings) : PlacedIn a.offset a.chars g.chain := by
  obtain ⟨r, hr, h, hholder, rfl⟩ := mem_sightings.mp hg
  obtain ⟨rest, hlinks, hrest, -, hpos, hlength⟩ := standsAt_of_mem_runs hr
  obtain ⟨hstands, hbehind⟩ := standsAt_holder hr hholder
  obtain ⟨t, -, -, ht, hne⟩ := linksAt_of_mem_runs hr rfl
  refine ⟨?_, ?_, fun m hm => ?_, pairwise_membersOf _ _, fun m hm => ?_, ?_⟩
  · show StandsAt a.chars (a.offset + h.pos - a.offset) (String.ofList h.chars).toList
    rwa [String.toList_ofList, show a.offset + h.pos - a.offset = (h.pos : Int) by omega]
  · show membersOf (a.offset + r.pos) r.links ≠ []
    cases hlist : r.links with
    | nil => exact absurd hlist hne
    | cons l ls => exact cons_ne_nil _ _
  · obtain ⟨l, hl, hname⟩ := name_of_mem_membersOf hm
    obtain ⟨hmember, hstop⟩ := hlinks.named_membersOf hm
    obtain ⟨front, mark, rear, hplace, hfront, -⟩ := hmember.place
    refine ⟨?_, ?_, hstop⟩
    · rw [hname]
      exact isIdentifier_of_mem_linksAt (ht ▸ hl)
    · have hmark : StandsAt rest (m.2.start - (a.offset + r.pos)) m.1.toList :=
        ⟨front ++ [mark], rear, by rw [hplace]; simp, by rw [hfront]; simp⟩
      have htrans := hrest.trans hmark
      rwa [show (r.pos : Int) + (m.2.start - (a.offset + r.pos)) = m.2.start - a.offset by omega]
        at htrans
  · have hbounds := bounds_of_mem_membersOf hm
    show a.offset + h.pos + (String.ofList h.chars).toList.length ≤ m.2.start ∧
      m.2.stop ≤ a.offset + r.pos + linksLength r.links
    rw [String.toList_ofList]
    omega
  · show a.offset + r.pos + linksLength r.links ≤ a.offset + a.chars.length
    have hle := hlinks.linksLength_le
    omega

theorem standsAt_of_mem_areas (hg : g ∈ a.sightings) (hb : b ∈ g.areas) :
    StandsAt a.chars (b.offset - a.offset) b.chars ∧ b.chars.length < a.chars.length := by
  obtain ⟨r, hr, h, hholder, rfl⟩ := mem_sightings.mp hg
  obtain ⟨rest, hlinks, hrest, -, hpos, hlength⟩ := standsAt_of_mem_runs hr
  -- the inside of a piece that is not empty
  have hinside {start : Int} {piece : List Char} (hne : piece ≠ [])
      (hpiece : StandsAt a.chars (start - a.offset) piece) :
      StandsAt a.chars (start + 1 - a.offset) (Text.interior piece) ∧
        (Text.interior piece).length < a.chars.length := by
    have htrans := hpiece.trans (standsAt_interior hne)
    rw [show start - a.offset + 1 = start + 1 - a.offset by omega] at htrans
    refine ⟨htrans, ?_⟩
    obtain ⟨front, rear, hs, -⟩ := hpiece
    have hpos := length_pos_iff.mpr hne
    have hsize := congrArg List.length hs
    simp only [length_append] at hsize
    rw [Text.interior, length_dropLast, length_drop]
    omega
  rcases mem_append.mp hb with hb | hb
  · rw [Option.mem_toList] at hb
    change (if h.chars.head? = some '(' then _ else none) = some b at hb
    split at hb
    · rename_i hparen
      cases hb
      refine hinside (fun hnil => ?_) ?_
      · rw [hnil] at hparen
        cases hparen
      · rw [show a.offset + h.pos - a.offset = (h.pos : Int) by omega]
        exact (standsAt_holder hr hholder).1
    · cases hb
  · obtain ⟨x, hx, rfl⟩ := mem_map.mp hb
    obtain ⟨⟨c, inside, d, hbracketed, -⟩, hstands⟩ := hlinks.suffixesOf hx
    have hne : x.2 ≠ [] := by
      rw [hbracketed]
      exact cons_ne_nil _ _
    have htrans := hrest.trans hstands
    rw [show (r.pos : Int) + (x.1 - (a.offset + r.pos)) = x.1 - a.offset by omega] at htrans
    exact hinside hne htrans

/-- The chains of the sightings, each followed by those of the texts searched next. -/
theorem chains_eq (a : Area) :
    a.chains = a.sightings.flatMap fun g => g.chain :: g.areas.flatMap chains := by
  unfold chains sightings
  rw [scanBack, flatMap_assoc]
  refine flatMap_congr fun r hr => ?_
  cases hholder : holder? r.pos r.before with
  | none => rfl
  | some h =>
    have hg : a.sighting r h ∈ a.sightings := mem_sightings.mpr ⟨r, hr, h, hholder, rfl⟩
    have hshorter : ∀ b ∈ (a.sighting r h).areas, b.chars.length < a.chars.length :=
      fun b hb => (standsAt_of_mem_areas hg hb).2
    simp only [Option.map_some, Option.toList_some, flatMap_singleton]
    rw [Sighting.areas, flatMap_append, cons_append]
    congr 1
    congr 1
    · unfold sighting at hshorter ⊢
      by_cases hparen : h.chars.head? = some '('
      · have hlt := hshorter ⟨a.offset + h.pos + 1, Text.interior h.chars⟩
          (mem_append_left _ (by rw [if_pos hparen]; exact mem_singleton_self _))
        rw [dif_pos ⟨hparen, hlt⟩, if_pos hparen, Option.toList_some, flatMap_singleton]
      · rw [dif_neg fun hboth => hparen hboth.1, if_neg hparen, Option.toList_none,
          flatMap_nil]
    · show _ = List.flatMap _ (List.map _ _)
      rw [flatMap_map]
      refine flatMap_congr fun x hx => ?_
      exact dif_pos (hshorter ⟨x.1 + 1, Text.interior x.2⟩
        (mem_append_right _ (mem_map.mpr ⟨x, hx, rfl⟩)))

theorem forall_mem_chains {P : Area → AccessChain → Prop}
    (hown : ∀ a : Area, ∀ g ∈ a.sightings, P a g.chain)
    (hnext : ∀ a b : Area, a.Calls b → ∀ chain, P b chain → P a chain) (a : Area) :
    ∀ chain ∈ a.chains, P a chain := by
  induction hlen : a.chars.length using Nat.strongRecOn generalizing a with
  | ind size ih =>
    subst hlen
    intro chain hchain
    rw [chains_eq] at hchain
    obtain ⟨g, hg, hchain⟩ := mem_flatMap.mp hchain
    rcases mem_cons.mp hchain with rfl | hchain
    · exact hown a g hg
    · obtain ⟨b, hb, hchain⟩ := mem_flatMap.mp hchain
      have hshorter := (standsAt_of_mem_areas hg hb).2
      exact hnext a b ⟨g, hg, hb⟩ chain (ih _ hshorter b rfl chain hchain)

theorem placedIn_of_mem_chains {chain : AccessChain} (h : chain ∈ a.chains) :
    PlacedIn a.offset a.chars chain := by
  refine forall_mem_chains (P := fun a chain => PlacedIn a.offset a.chars chain)
    (fun a g hg => placedIn_of_mem_sightings hg) (fun a b hcall chain hchain => ?_) a chain h
  obtain ⟨g, hg, hb⟩ := hcall
  exact hchain.trans (standsAt_of_mem_areas hg hb).1

theorem Reaches.standsAt (h : a.Reaches b) : StandsAt a.chars (b.offset - a.offset) b.chars := by
  induction h with
  | refl =>
    rw [Int.sub_self]
    exact standsAt_self _
  | @tail b c _ hcall ih =>
    obtain ⟨g, hg, hc⟩ := hcall
    have htrans := ih.trans (standsAt_of_mem_areas hg hc).1
    rwa [show b.offset - a.offset + (c.offset - b.offset) = c.offset - a.offset by omega] at htrans

end Area

/-- **The search ends, and every chain stands where it says.** Each search, at any depth, gives the
chains of its sightings and of its searches in shorter texts; its text stands in the first one, and
its chains are placed in both. -/
theorem scanBack_placedIn (offset : Int) (s : List Char) (a : Area)
    (ha : Area.Reaches ⟨offset, s⟩ a) :
    (scanBack a.offset a.chars = a.sightings.flatMap fun g =>
      g.chain :: g.areas.flatMap fun b => scanBack b.offset b.chars) ∧
    (∀ b, a.Calls b → b.chars.length < a.chars.length) ∧
    StandsAt s (a.offset - offset) a.chars ∧
    ∀ chain ∈ scanBack a.offset a.chars,
      PlacedIn a.offset a.chars chain ∧ PlacedIn offset s chain := by
  have hstands := ha.standsAt
  refine ⟨a.chains_eq, ?_, hstands, fun chain hchain => ?_⟩
  · rintro b ⟨g, hg, hb⟩
    exact (Area.standsAt_of_mem_areas hg hb).2
  · have hplaced := Area.placedIn_of_mem_chains (a := a) hchain
    exact ⟨hplaced, hplaced.trans hstands⟩

/-- A chain in an index behind a call, whose operand is in parentheses. -/
theorem scanBack_placedIn_index :
    Area.Reaches ⟨7, "(p->q)->f(x.y)[z.w]".toList⟩ ⟨22, "z.w".toList⟩ ∧
      PlacedIn 7 "(p->q)->f(x.y)[z.w]".toList ⟨"z", [("w", ⟨24, 25⟩)], ⟨22, 25⟩⟩ := by
  have hcall : Area.Calls ⟨7, "(p->q)->f(x.y)[z.w]".toList⟩ ⟨22, "z.w".toList⟩ := by
    unfold Area.Calls
    decide +kernel
  have hreach : Area.Reaches ⟨7, "(p->q)->f(x.y)[z.w]".toList⟩ ⟨22, "z.w".toList⟩ := .single hcall
  refine ⟨hreach, ((scanBack_placedIn _ _ _ hreach).2.2.2 _ ?_).2⟩
  decide +kernel

end AccessChain

end CBoundary
