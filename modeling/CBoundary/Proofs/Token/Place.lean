import CBoundary.Proofs.Lex.Cut
import CBoundary.Proofs.Statement.Partition

/-!
# Where tokens stand

Every token that is read off a text stands in that text where its span says, and the inside of a
bracketed token is a text of its own, of which the same is true one offset further on.
-/

namespace CBoundary

open List

/-! ## Pieces of a text -/

namespace Text

variable {s piece : List Char} {i : Int}

/-- The piece stands in the text at an offset. -/
def StandsAt (s : List Char) (i : Int) (piece : List Char) : Prop :=
  ∃ front rear, s = front ++ (piece ++ rear) ∧ i = front.length

theorem standsAt_self (s : List Char) : StandsAt s 0 s := ⟨[], [], by simp, rfl⟩

theorem StandsAt.trans {inner : List Char} {j : Int} (h : StandsAt s i piece)
    (h' : StandsAt piece j inner) : StandsAt s (i + j) inner := by
  obtain ⟨front, rear, rfl, rfl⟩ := h
  obtain ⟨front', rear', rfl, rfl⟩ := h'
  refine ⟨front ++ front', rear' ++ rear, ?_, ?_⟩
  · simp only [append_assoc]
  · simp only [length_append, Int.natCast_add]

theorem StandsAt.nil (h : StandsAt s i piece) : StandsAt s i [] := by
  obtain ⟨front, rear, hs, hi⟩ := h
  exact ⟨front, piece ++ rear, hs, hi⟩

theorem standsAt_take_drop {n : Nat} (h : n ≤ s.length) (m : Nat) :
    StandsAt s n ((s.drop n).take m) := by
  refine ⟨s.take n, (s.drop n).drop m, ?_, ?_⟩
  · rw [take_append_drop, take_append_drop]
  · rw [length_take, Nat.min_eq_left h]

theorem standsAt_interior (h : s ≠ []) : StandsAt s 1 (interior s) := by
  have hlen : 1 ≤ s.length := length_pos_iff.mpr h
  rw [interior, dropLast_eq_take]
  exact standsAt_take_drop hlen _

theorem StandsAt.getElem? (h : StandsAt s i piece) (hne : piece ≠ []) :
    s[i.toNat]? = piece.head? := by
  obtain ⟨front, rear, rfl, rfl⟩ := h
  cases piece with
  | nil => exact absurd rfl hne
  | cons c cs => simp

theorem StandsAt.slice_eq (h : StandsAt s i piece) : slice s i (i + piece.length) = piece := by
  obtain ⟨front, rear, rfl, rfl⟩ := h
  unfold slice clampBound
  rw [if_neg (by omega), if_neg (by omega)]
  have hstart : min (front.length : Int).toNat (front ++ (piece ++ rear)).length = front.length := by
    simp
  have hstop : min ((front.length : Int) + piece.length).toNat (front ++ (piece ++ rear)).length =
      front.length + piece.length := by
    simp only [length_append]
    omega
  rw [hstart, hstop]
  dsimp only
  rw [drop_left, Nat.add_sub_cancel_left, take_left]

end Text

open Text

/-! ## Lexemes -/

namespace Lex

/-- The rule finds the lexeme in a text. -/
def Found (r : Rule) (start : Nat) (s : List Char) (l : Lexeme) : Prop :=
  ∃ front rear, s = front ++ (l.chars ++ rear) ∧ l.start = start + front.length ∧
    l.chars ≠ [] ∧ r (l.chars ++ rear) = l.chars.length

theorem found_of_mem_findings {r : Rule} (hr : r.Bounded) {start : Nat} {s : List Char}
    {l : Lexeme} (h : l ∈ findings r start s) : Found r start s l := by
  fun_induction findings r start s with
  | case1 => cases h
  | case2 start c cs hzero ih =>
    obtain ⟨front, rear, hs, hstart, hne, hlen⟩ := ih h
    refine ⟨c :: front, rear, ?_, ?_, hne, hlen⟩
    · rw [hs, cons_append]
    · rw [hstart, length_cons]; omega
  | case3 start c cs n hn ih =>
    rcases mem_cons.mp h with rfl | h
    · have hbound := hr (c :: cs)
      rw [hn, Nat.succ_eq_add_one] at hbound
      have hsplit : (c :: cs.take n) ++ cs.drop n = c :: cs := by
        rw [cons_append, take_append_drop]
      refine ⟨[], cs.drop n, hsplit.symm, rfl, cons_ne_nil _ _, ?_⟩
      rw [hsplit, hn, length_cons, length_take]
      simp only [length_cons] at hbound
      omega
    · obtain ⟨front, rear, hs, hstart, hne, hlen⟩ := ih h
      have hbound := hr (c :: cs)
      rw [hn, Nat.succ_eq_add_one] at hbound
      refine ⟨c :: cs.take n ++ front, rear, ?_, ?_, hne, hlen⟩
      · rw [append_assoc, ← hs, cons_append, take_append_drop]
      · rw [hstart, length_append, length_cons, length_take]
        simp only [length_cons] at hbound
        omega

end Lex

/-! ## Tokens -/

namespace Kind

variable {text : String}

/-- May the kind start with the character? -/
def mayStart (c : Char) : Kind → Bool
  | space => isBlank c || c == '\n'
  | comment => c == '/'
  | paren => c == '('
  | brace => c == '\x7b'
  | bracket => c == '['
  | word => isWordChar c
  | _ => true

theorem mayStart_ofText {c : Char} {cs : List Char} (h : text.toList = c :: cs) :
    (ofText text).mayStart c = true := by
  have hite {p : Bool} {k k' : Kind} (hk : p = true → k.mayStart c = true)
      (hk' : k'.mayStart c = true) : (if p = true then k else k').mayStart c = true := by
    split
    · exact hk ‹_›
    · exact hk'
  rw [ofText, h]
  refine hite id (hite (fun h => (Bool.and_eq_true_iff.mp h).1) (hite (fun _ => rfl) (hite id
    (hite id (hite id (hite (fun _ => rfl) (hite (fun _ => rfl) (hite (fun _ => rfl)
      (hite id (hite (fun _ => rfl) rfl))))))))))

theorem exists_cons_of_ofText {k : Kind} (h : ofText text = k) (hk : k ≠ .undefined) :
    ∃ c cs, text.toList = c :: cs ∧ k.mayStart c = true := by
  cases htext : text.toList with
  | nil => exact absurd (by rw [← h, ofText, htext]) hk
  | cons c cs => exact ⟨c, cs, rfl, h ▸ mayStart_ofText htext⟩

theorem exists_cons_of_word (h : ofText text = .word) :
    ∃ c cs, text.toList = c :: cs ∧ isWordChar c = true := exists_cons_of_ofText h (by decide)

theorem ofText_ne_of_isNameStart {c : Char} {cs : List Char} (htext : text.toList = c :: cs)
    (hc : isNameStart c = true) : ofText text ≠ .space ∧ ofText text ≠ .comment := by
  have hstart := mayStart_ofText htext
  refine ⟨fun h => ?_, fun h => ?_⟩
  · rw [h] at hstart
    simp only [mayStart, isBlank, Bool.or_eq_true, beq_iff_eq] at hstart
    rcases hstart with ((rfl | rfl) | rfl) | rfl <;> exact absurd hc (by decide)
  · rw [h] at hstart
    obtain rfl := eq_of_beq hstart
    exact absurd hc (by decide)

theorem ofText_eq_iff_head? {k : Kind} {o : Char}
    (hk : (k, o) ∈ [(paren, '('), (brace, '\x7b'), (bracket, '[')]) :
    ofText text = k ↔ text.toList.head? = some o := by
  simp only [mem_cons, Prod.mk.injEq, not_mem_nil, or_false] at hk
  constructor
  · intro h
    obtain ⟨c, cs, htext, hc⟩ := exists_cons_of_ofText h (by rcases hk with hk | hk | hk <;> simp [hk])
    rcases hk with ⟨rfl, rfl⟩ | ⟨rfl, rfl⟩ | ⟨rfl, rfl⟩ <;> simp [htext, eq_of_beq hc]
  · intro h
    obtain ⟨cs, htext⟩ := head?_eq_some_iff.mp h
    unfold ofText
    simp only [htext]
    rcases hk with ⟨rfl, rfl⟩ | ⟨rfl, rfl⟩ | ⟨rfl, rfl⟩ <;> rfl

end Kind

namespace Token

variable {s : List Char} {base : Int} {t : Token}

/-- The token stands in a text with a base offset. It is not empty, its kind is that of its text,
and a word character starts a word. -/
structure StandsIn (s : List Char) (base : Int) (t : Token) : Prop where
  nonempty : t.chars ≠ []
  place : StandsAt s (t.span.start - base) t.chars
  kind_eq : t.kind = Kind.ofText t.value
  word : t.chars.head?.any isWordChar = true → ∀ c ∈ t.chars, isWordChar c = true

/-- Each token is found where it stands. -/
theorem found_of_mem_scan (h : t ∈ scan s base) : ∃ front rear, s = front ++ (t.chars ++ rear) ∧
      t.span = ⟨base + front.length, base + front.length + t.chars.length⟩ ∧
      t.chars ≠ [] ∧ Lex.code.tokenLength (t.chars ++ rear) = t.chars.length ∧
      t.kind? = none := by
  obtain ⟨i, hi, rfl⟩ := mem_mapIdx.mp h
  generalize hl : (Lex.findings Lex.code.tokenLength 0 s)[i] = l
  have hmem : l ∈ Lex.findings Lex.code.tokenLength 0 s := hl ▸ getElem_mem hi
  obtain ⟨front, rear, hs, hstart, hne, hlen⟩ :=
    Lex.found_of_mem_findings Lex.Grammar.bounded_code_tokenLength hmem
  have hchars : (String.ofList l.chars).toList = l.chars := String.toList_ofList
  refine ⟨front, rear, ?_, ?_, ?_, ?_, rfl⟩
  · simpa only [chars, hchars] using hs
  · simp only [chars, hchars, Lex.Lexeme.stop, Span.mk.injEq]
    omega
  · simpa only [chars, hchars] using hne
  · simpa only [chars, hchars] using hlen

/-- Tokens stand in the text. -/
theorem standsIn_of_mem_scan (h : t ∈ scan s base) : t.StandsIn s base := by
  obtain ⟨front, rear, hs, hspan, hne, hlen, hkind⟩ := found_of_mem_scan h
  refine ⟨hne, ⟨front, rear, hs, ?_⟩, ?_, ?_⟩
  · simp only [hspan]
    omega
  · simp [kind, hkind]
  · cases hcs : t.chars with
    | nil => exact absurd hcs hne
    | cons c cs =>
      intro hc
      rw [hcs, cons_append, Lex.Grammar.tokenLength_of_isWordChar hc] at hlen
      -- the lexeme and the run of word characters are starts of equal length of one text
      have hrun : (c :: (cs ++ rear)).takeWhile isWordChar = c :: cs :=
        (prefix_of_prefix_length_le (List.takeWhile_prefix _)
          (prefix_append (c :: cs) rear) (Nat.le_of_eq hlen)).eq_of_length hlen
      rw [← hrun]
      exact all_eq_true.mp all_takeWhile

theorem StandsIn.settled (h : t.StandsIn s base) :
    t.settled.StandsIn s base := ⟨h.nonempty, h.place, h.kind_eq, h.word⟩

theorem StandsIn.trans {piece : List Char} {base' : Int} (h : StandsAt s (base' - base) piece)
    (ht : t.StandsIn piece base') : t.StandsIn s base := by
  refine ⟨ht.nonempty, ?_, ht.kind_eq, ht.word⟩
  have hplace := h.trans ht.place
  rwa [show base' - base + (t.span.start - base') = t.span.start - base by omega] at hplace

theorem StandsIn.isLongName_eq_false (h : t.StandsIn s base)
    (hkind : t.kind = .space ∨ t.kind = .comment) : t.isLongName = false := by
  apply Bool.eq_false_iff.mpr
  intro hname
  unfold isLongName Text.isLongName at hname
  split at hname
  · cases hname
  · rename_i c cs hchars
    have hstart : isNameStart c = true := (Bool.and_eq_true_iff.mp hname).1
    obtain ⟨hspace, hcomment⟩ := Kind.ofText_ne_of_isNameStart hchars hstart
    rw [h.kind_eq] at hkind
    exact hkind.elim hspace hcomment

theorem StandsIn.inside (h : t.StandsIn s base) :
    StandsAt s (t.span.start + 1 - base) (Text.interior t.chars) := by
  have hplace := h.place.trans (standsAt_interior h.nonempty)
  rwa [show t.span.start - base + 1 = t.span.start + 1 - base by omega] at hplace

theorem StandsIn.interior (h : t.StandsIn s base) :
    StandsAt s (t.interior.span.start - base) t.interior.chars := by
  have hchars : t.interior.chars = Text.interior t.chars := by
    simp [Token.interior, interiorOf, chars]
  rw [hchars]
  exact h.inside

end Token

theorem Tokens.mem_code {ts : List Token} {t : Token} (h : t ∈ code ts) :
    ∃ u ∈ ts, t = u.settled := by
  obtain ⟨u, hu, rfl⟩ := mem_map.mp h
  exact ⟨u, (mem_filter.mp hu).1, rfl⟩

/-! ## Statements -/

namespace Statement

variable {s : List Char} {base : Int} {st : Statement}

theorem standsIn_of_mem_scan (h : st ∈ scan s base) : ∀ t ∈ st.tokens, t.StandsIn s base :=
  forall_mem_group (fun t ht => by cases ht) (fun _ ht => (Token.standsIn_of_mem_scan ht).settled)
    st h

theorem settled_of_mem_scan (h : st ∈ scan s base) : ∀ t ∈ st.tokens, t.settled = t :=
  forall_mem_group (fun t ht => by cases ht) (fun _ _ => rfl) st h

end Statement

end CBoundary
