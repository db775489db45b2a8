import CBoundary.Text.Clean
import CBoundary.Proofs.Token.Balance

/-!
# What a cleaned text keeps

Cleaning a text moves nothing: every character stays or becomes a blank.  A cleaner looks for notes
and literals only, the tokens open up into leaves of all kinds, and both find the same notes and
literals, because none starts inside another leaf.  An escape is the exception: the cleaner does not
know it, and looks at its second character.
-/

namespace CBoundary.Text

open CBoundary.Lex List

variable {s rear : List Char} {c : Char}

/-! ## Notes and literals -/

theorem wordAt_of_early_ne_zero (h : code.early s ≠ 0) : wordAt s.head? = false := by
  cases s with
  | nil => rfl
  | cons c cs =>
    have hmark : c ∈ ['#', '/', '\"', '\''] := by
      refine Decidable.byContradiction fun hc => h ?_
      exact early_eq_zero hc cs
    simp only [mem_cons, not_mem_nil, or_false] at hmark
    rcases hmark with rfl | rfl | rfl | rfl <;> rfl

theorem early_ne_zero_of_note (h : note s ≠ 0) : code.early s ≠ 0 := by
  show firstOf [note, literal] s ≠ 0
  rwa [firstOf_pair, if_neg h]

theorem early_ne_zero_of_literal (h : literal s ≠ 0) : code.early s ≠ 0 := by
  show firstOf [note, literal] s ≠ 0
  rw [firstOf_pair]
  split
  · exact h
  · assumption

theorem ne_zero_of_repeated {r : Rule} (h : repeated r s ≠ 0) : r s ≠ 0 := by
  intro hzero
  cases s with
  | nil => exact h (by rw [repeated])
  | cons c cs => exact h (by rw [repeated, hzero])

/-! ## Cleaned texts -/

/-- A text and what is left of it when pieces that do not start like a word are blanked out. -/
inductive Cleaned : List Char → List Char → Prop
  | nil : Cleaned [] []
  | plain (c : Char) {s t : List Char} : Cleaned s t → Cleaned (c :: s) (c :: t)
  | blank (c : Char) (cs : List Char) {s t : List Char} : isWordChar c = false → Cleaned s t →
      Cleaned (c :: cs ++ s) (blankOut (c :: cs) ++ t)

theorem cleaned_blankNotesAndLiterals (s : List Char) : Cleaned s (blankNotesAndLiterals s) := by
  unfold blankNotesAndLiterals
  fun_induction pieces note s with
  | case1 => exact .nil
  | case2 c cs n hn ih =>
    have hmark := wordAt_of_early_ne_zero (early_ne_zero_of_note
      (ne_zero_of_repeated (r := note) (s := c :: cs) (by rw [hn]; exact Nat.succ_ne_zero n)))
    have hcleaned := Cleaned.blank c (cs.take n) hmark ih
    rwa [cons_append, take_append_drop] at hcleaned
  | case3 c cs hnote n hn ih =>
    have hmark := wordAt_of_early_ne_zero (early_ne_zero_of_literal
      (s := c :: cs) (by rw [hn]; exact Nat.succ_ne_zero n))
    have hcleaned := Cleaned.blank c (cs.take n) hmark ih
    rwa [cons_append, take_append_drop] at hcleaned
  | case4 c cs hnote hliteral ih => exact .plain c ih

theorem eq_of_mem_blankOut (h : c ∈ blankOut s) : c = ' ' ∨ c = '\n' := by
  obtain ⟨d, -, rfl⟩ := mem_map.mp h
  split
  · exact .inr ‹_›
  · exact .inl rfl

theorem Cleaned.word {w : List Char} (h : Cleaned s (w ++ rear)) (hw : ∀ c ∈ w, isWordChar c = true)
    (hrear : wordAt rear.head? = false) : ∃ rear', s = w ++ rear' ∧ wordAt rear'.head? = false := by
  induction w generalizing s with
  | nil =>
    refine ⟨s, rfl, ?_⟩
    cases h with
    | nil => rfl
    | plain c h => exact hrear
    | blank c cs hc h => exact hc
  | cons d w ih =>
    generalize ht : d :: w ++ rear = t at h
    cases h with
    | nil => cases ht
    | plain c h =>
      obtain ⟨rfl, rfl⟩ := List.cons.inj ht
      obtain ⟨rear', rfl, hrear'⟩ := ih h fun c hc => hw c (mem_cons_of_mem d hc)
      exact ⟨rear', rfl, hrear'⟩
    | blank c cs hc h =>
      have hd := hw d mem_cons_self
      have hblank : d ∈ blankOut (c :: cs) := by
        rw [(List.cons.inj ht).1]
        exact mem_cons_self
      rcases eq_of_mem_blankOut hblank with rfl | rfl <;> cases hd

theorem Cleaned.split {front : List Char} (h : Cleaned s (front ++ c :: rear)) (hspace : c ≠ ' ')
    (hbreak : c ≠ '\n') :
    ∃ front' rear', s = front' ++ c :: rear' ∧ front'.length = front.length ∧
      Cleaned rear' rear := by
  generalize ht : front ++ c :: rear = t at h
  induction h generalizing front with
  | nil => exact absurd ht (by simp)
  | plain d h ih =>
    cases front with
    | nil =>
      obtain ⟨rfl, rfl⟩ := List.cons.inj ht
      exact ⟨[], _, rfl, rfl, h⟩
    | cons e front =>
      obtain ⟨rfl, hrest⟩ := List.cons.inj ht
      obtain ⟨front', rear', rfl, hlength, hrear⟩ := ih hrest
      exact ⟨e :: front', rear', rfl, congrArg (· + 1) hlength, hrear⟩
  | blank d ds hd h ih =>
    rcases append_eq_append_iff.mp ht with ⟨more, hblank, hrest⟩ | ⟨more, rfl, hrest⟩
    · cases more with
      | nil =>
        rw [append_nil] at hblank
        obtain ⟨front', rear', rfl, hlength, hrear⟩ := ih (show [] ++ c :: rear = _ from hrest)
        refine ⟨d :: ds ++ front', rear', by rw [append_assoc], ?_, hrear⟩
        rw [length_append, hlength, ← hblank, blankOut, length_map]
        rfl
      | cons e more =>
        have hmem : c ∈ blankOut (d :: ds) := by
          rw [hblank, (List.cons.inj hrest).1]
          exact mem_append_right _ mem_cons_self
        rcases eq_of_mem_blankOut hmem with rfl | rfl
        · exact absurd rfl hspace
        · exact absurd rfl hbreak
    · obtain ⟨front', rear', rfl, hlength, hrear⟩ := ih hrest.symm
      refine ⟨d :: ds ++ front', rear', by rw [append_assoc], ?_, hrear⟩
      rw [length_append, length_append, hlength, blankOut, length_map]

/-! ## Places -/

/-- What a character of a text is part of. -/
inductive Part where
  | note
  | literal
  | neither
  deriving DecidableEq

/-- The characters of a piece, marked with its kind. -/
def Piece.marked : Piece → List (Char × Part)
  | .notes cs => cs.map fun c => (c, .note)
  | .literal cs => cs.map fun c => (c, .literal)
  | .plain c => [(c, .neither)]

/-- The characters of a text, marked. -/
def marked (s : List Char) : List (Char × Part) := (pieces note s).flatMap Piece.marked

/-- What is left at a place where something is blanked out. -/
def blank (c : Char) : Char := if c = '\n' then c else ' '

theorem map_fst_marked (s : List Char) : (marked s).map Prod.fst = s := by
  unfold marked
  fun_induction pieces note s with
  | case1 => rfl
  | case2 c cs n hn ih | case3 c cs hnote n hn ih =>
    rw [flatMap_cons, map_append, ih]
    simp [Piece.marked, Function.comp_def]
  | case4 c cs hnote hliteral ih => rw [flatMap_cons, map_append, ih]; rfl

theorem blankNotes_eq_marked (s : List Char) :
    blankNotes s = (marked s).map (fun x => if x.2 = .note then blank x.1 else x.1) ∧
      blankNotesAndLiterals s =
        (marked s).map (fun x => if x.2 = .neither then x.1 else blank x.1) := by
  rw [blankNotes, blankNotesAndLiterals, marked, map_flatMap, map_flatMap]
  constructor <;> refine congrArg (fun f => (pieces note s).flatMap f) (funext fun x => ?_) <;>
    cases x <;> simp [Piece.marked, blankOut, blank, Function.comp_def]

/-- **Cleaning moves nothing.** A cleaned text is as long as the text, each place holds what it held
or a space, line breaks stay where they were, and what is blanked out with the notes is with the
literals. -/
theorem blankNotes_in_place (s : List Char) :
    (blankNotes s).length = s.length ∧ (blankNotesAndLiterals s).length = s.length ∧
      ∀ (i : Nat) (c : Char), s[i]? = some c →
        ∃ d e, (blankNotes s)[i]? = some d ∧ (blankNotesAndLiterals s)[i]? = some e ∧
          (d = c ∨ d = ' ') ∧ (e = c ∨ e = ' ') ∧ (d = '\n' ↔ c = '\n') ∧ (e = '\n' ↔ c = '\n') ∧
          (d = ' ' → e = ' ') ∧ (d ≠ c → e ≠ c) := by
  obtain ⟨hnotes, hliterals⟩ := blankNotes_eq_marked s
  have hlength : (marked s).length = s.length := by
    rw [← length_map (f := Prod.fst), map_fst_marked]
  rw [hnotes, hliterals, length_map, length_map]
  refine ⟨hlength, hlength, fun i c hc => ?_⟩
  rw [← map_fst_marked s, getElem?_map] at hc
  obtain ⟨⟨c, part⟩, hi, rfl⟩ := Option.map_eq_some_iff.mp hc
  rw [getElem?_map, getElem?_map, hi]
  refine ⟨_, _, rfl, rfl, ?_⟩
  unfold blank
  cases part <;> grind

/-- In a comment, in a string and outside of both. -/
theorem blankNotes_in_place_call : ∃ d e, (blankNotes "f(\"a\" /*b*/)".toList)[3]? = some d ∧
      (blankNotesAndLiterals "f(\"a\" /*b*/)".toList)[3]? = some e ∧
      (d = 'a' ∨ d = ' ') ∧ (e = 'a' ∨ e = ' ') ∧ (d = '\n' ↔ 'a' = '\n') ∧
      (e = '\n' ↔ 'a' = '\n') ∧ (d = ' ' → e = ' ') ∧ (d ≠ 'a' → e ≠ 'a') :=
  (blankNotes_in_place "f(\"a\" /*b*/)".toList).2.2 3 'a' (by decide)

end CBoundary.Text

namespace CBoundary

open CBoundary.Text CBoundary.Lex List

/-! ## Kinds of leaves -/

namespace Lex.Leaf

/-- The kind of a leaf. -/
def kind (l : Leaf) : Kind := Kind.ofText (String.ofList l.chars)

/-- Is it a comment or a directive? -/
def isNote (l : Leaf) : Bool := l.kind == .comment || l.kind == .directive

/-- Is it a string or a character? -/
def isLiteral (l : Leaf) : Bool := l.kind == .literal

/-- Is it a backslash with a character? -/
def isEscape (l : Leaf) : Bool := l.chars.head? == some '\\'

end Lex.Leaf

theorem Kind.ofText_ofList_cons (c : Char) (cs : List Char) :
    (ofText (String.ofList (c :: cs)) = .comment ↔
      c = '/' ∧ (cs.head? = some '/' ∨ cs.head? = some '*')) ∧
    (ofText (String.ofList (c :: cs)) = .directive ↔ c = '#') ∧
    (ofText (String.ofList (c :: cs)) = .literal ↔ c = '\'' ∨ c = '\"') := by
  rw [ofText, String.toList_ofList]
  simp only [isBlank, Bool.or_eq_true, Bool.and_eq_true, beq_iff_eq]
  -- the kinds that are tried behind directives are others
  generalize hother : (if String.ofList (c :: cs) = "," ∨ String.ofList (c :: cs) = ";" then
    separator else _) = other
  have hne : other ≠ .comment ∧ other ≠ .directive ∧ other ≠ .literal := by
    rw [← hother]
    repeat' split
    all_goals decide
  grind

namespace Lex

variable {c : Char} {cs : List Char} {n : Nat}

theorem isNote_cons_iff (start : Int) (c : Char) (cs : List Char) :
    Leaf.isNote ⟨start, c :: cs⟩ = true ↔
      c = '#' ∨ c = '/' ∧ (cs.head? = some '/' ∨ cs.head? = some '*') := by
  obtain ⟨hcomment, hdirective, -⟩ := Kind.ofText_ofList_cons c cs
  unfold Leaf.isNote Leaf.kind
  rw [Bool.or_eq_true, beq_iff_eq, beq_iff_eq, hcomment, hdirective, or_comm]

theorem isLiteral_cons_iff (start : Int) (c : Char) (cs : List Char) :
    Leaf.isLiteral ⟨start, c :: cs⟩ = true ↔ c = '\'' ∨ c = '\"' := by
  rw [Leaf.isLiteral, Leaf.kind, beq_iff_eq, (Kind.ofText_ofList_cons c cs).2.2]

theorem leaf_cases (h : leaf (c :: cs) = n + 1) :
    note (c :: cs) = n + 1 ∨ (note (c :: cs) = 0 ∧ literal (c :: cs) = n + 1) ∨
      (code.early (c :: cs) = 0 ∧ (isBracket c = true ∧ n = 0 ∨ code.late (c :: cs) = n + 1)) := by
  change firstOf (note :: literal :: bracket :: _) (c :: cs) = n + 1 at h
  rw [firstOf, firstOf] at h
  cases hnote : note (c :: cs) with
  | succ m =>
    rw [hnote] at h
    exact .inl h
  | zero =>
    rw [hnote] at h
    cases hliteral : literal (c :: cs) with
    | succ m =>
      rw [hliteral] at h
      exact .inr (.inl ⟨rfl, h⟩)
    | zero =>
      rw [hliteral] at h
      refine .inr (.inr ⟨firstOf_eq_zero (by simp [hnote, hliteral]), ?_⟩)
      cases hbracket : isBracket c with
      | true =>
        have hone : n + 1 = 1 := by simpa [firstOf, bracket, hbracket] using h.symm
        exact .inl ⟨rfl, Nat.succ.inj hone⟩
      | false =>
        have hlate : code.late (c :: cs) = n + 1 := by
          simpa [firstOf, bracket, hbracket, code] using h
        exact .inr hlate

theorem Rule.Reads.of_take {r : Rule} {P : List Char → Prop} (h : r.Reads P) {s : List Char}
    (hfound : r s = n + 1) : P (s.take (n + 1)) := by
  obtain ⟨piece, rest, rfl, hlength, hP⟩ := (h s n).mp hfound
  rwa [← hlength, take_left]

theorem isNote_of_note (h : note (c :: cs) = n + 1) (start : Int) :
    Leaf.isNote ⟨start, c :: cs.take n⟩ = true := by
  rw [isNote_cons_iff]
  obtain ⟨r, hr, hfound⟩ := exists_of_firstOf h
  simp only [mem_cons, not_mem_nil, or_false] at hr
  rcases hr with rfl | rfl | rfl
  · obtain ⟨body, hpiece, -⟩ := reads_directive.of_take hfound
    exact .inl (List.cons.inj hpiece).1
  · obtain ⟨body, hpiece, -⟩ := reads_lineComment.of_take hfound
    obtain ⟨hc, htail⟩ := List.cons.inj hpiece
    rw [htail]
    exact .inr ⟨hc, .inl rfl⟩
  · obtain ⟨inside, hpiece, -⟩ := reads_blockComment.of_take hfound
    obtain ⟨hc, htail⟩ := List.cons.inj hpiece
    rw [htail]
    exact .inr ⟨hc, .inr rfl⟩

theorem isLiteral_of_literal (h : literal (c :: cs) = n + 1) (start : Int)
    : Leaf.isLiteral ⟨start, c :: cs.take n⟩ = true ∧
      Leaf.isNote ⟨start, c :: cs.take n⟩ = false := by
  have hmark : c = '\'' ∨ c = '\"' := by
    obtain ⟨r, hr, hfound⟩ := exists_of_firstOf h
    simp only [mem_cons, not_mem_nil, or_false] at hr
    rcases hr with rfl | rfl
    · obtain ⟨body, hpiece, -⟩ := (reads_quoted (by decide)).of_take hfound
      exact .inr (List.cons.inj hpiece).1
    · obtain ⟨body, hpiece, -⟩ := (reads_quoted (by decide)).of_take hfound
      exact .inl (List.cons.inj hpiece).1
  refine ⟨(isLiteral_cons_iff start c _).mpr hmark, Bool.eq_false_iff.mpr fun hnote => ?_⟩
  rw [isNote_cons_iff] at hnote
  rcases hmark with rfl | rfl <;> rcases hnote with h | ⟨h, -⟩ <;> cases h

theorem not_isNote_of_isBracket (h : isBracket c = true) (start : Int) :
    Leaf.isNote ⟨start, [c]⟩ = false ∧ Leaf.isLiteral ⟨start, [c]⟩ = false := by
  have hmem := isBracket_iff.mp h
  refine ⟨Bool.eq_false_iff.mpr fun hnote => ?_, Bool.eq_false_iff.mpr fun hliteral => ?_⟩
  · rw [isNote_cons_iff] at hnote
    rcases hnote with rfl | ⟨rfl, -⟩ <;> exact absurd hmem (by decide)
  · rw [isLiteral_cons_iff] at hliteral
    rcases hliteral with rfl | rfl <;> exact absurd hmem (by decide)

theorem not_isNote_of_late (hc : c ≠ '\\') (h : code.late (c :: cs) = n + 1) (start : Int) :
    Leaf.isNote ⟨start, c :: cs.take n⟩ = false ∧
      Leaf.isLiteral ⟨start, c :: cs.take n⟩ = false := by
  have hfirst : isLeafChar c = true := isLeafChar_of_late hc h c mem_cons_self
  have hne : ∀ d, isLeafChar d = false → c ≠ d := by
    rintro d hd rfl
    rw [hfirst] at hd
    cases hd
  have hsecond : ∀ d ∈ (cs.take n).head?, d ≠ '/' ∧ d ≠ '*' :=
    fun d hd => not_mem_tail_of_late hc h d (mem_of_mem_head? hd)
  refine ⟨Bool.eq_false_iff.mpr fun hnote => ?_, Bool.eq_false_iff.mpr fun hliteral => ?_⟩
  · rw [isNote_cons_iff] at hnote
    rcases hnote with h | ⟨-, h | h⟩
    · exact hne '#' (by decide) h
    · exact (hsecond '/' h).1 rfl
    · exact (hsecond '*' h).2 rfl
  · rw [isLiteral_cons_iff] at hliteral
    rcases hliteral with h | h
    · exact hne '\'' (by decide) h
    · exact hne '\"' (by decide) h

end Lex

/-! ## Pieces -/

namespace Text

variable {c : Char} {cs : List Char} {n : Nat}

/-- A cleaner that passes over plain characters and blanks out notes. -/
structure Blanks (f : Piece → List Char) : Prop where
  notes : ∀ cs, f (.notes cs) = blankOut cs
  plain : ∀ c, f (.plain c) = [c]

variable {f : Piece → List Char}

theorem blankOut_append (s t : List Char) : blankOut (s ++ t) = blankOut s ++ blankOut t :=
  map_append

theorem Blanks.of_note (hf : Blanks f) (h : note (c :: cs) = n + 1) :
    (pieces note (c :: cs)).flatMap f =
      blankOut (c :: cs.take n) ++ (pieces note (cs.drop n)).flatMap f := by
  have hrun : repeated note (c :: cs) = n + repeated note (cs.drop n) + 1 := by
    rw [repeated, h]
    exact Nat.add_right_comm n 1 _
  rw [pieces, hrun]
  rw [flatMap_cons, hf.notes, take_add, ← drop_drop, ← cons_append,
    blankOut_append, append_assoc]
  congr 1
  -- the rest of the run, if there is any, starts a run of its own
  cases hrest : cs.drop n with
  | nil => simp [pieces, blankOut]
  | cons d ds =>
    cases hmore : repeated note (d :: ds) with
    | zero => simp [blankOut]
    | succ m =>
      rw [pieces, hmore]
      rw [flatMap_cons, hf.notes]
      rfl

theorem Blanks.of_plain (hf : Blanks f) (h : code.early (c :: cs) = 0) :
    (pieces note (c :: cs)).flatMap f = c :: (pieces note cs).flatMap f := by
  have hnote : note (c :: cs) = 0 :=
    Decidable.byContradiction fun hne => early_ne_zero_of_note hne h
  have hliteral : literal (c :: cs) = 0 :=
    Decidable.byContradiction fun hne => early_ne_zero_of_literal hne h
  rw [pieces, repeated, hnote, hliteral]
  rw [flatMap_cons, hf.plain]
  rfl

theorem Blanks.of_unmarked (hf : Blanks f) {front : List Char}
    (h : ∀ c ∈ front, c ∉ ['#', '/', '\"', '\'']) (s : List Char) :
    (pieces note (front ++ s)).flatMap f = front ++ (pieces note s).flatMap f := by
  induction front with
  | nil => rfl
  | cons c front ih =>
    obtain ⟨hc, hfront⟩ := forall_mem_cons.mp h
    rw [cons_append, hf.of_plain (early_eq_zero hc _), ih hfront, cons_append]

theorem Blanks.of_leaf (hf : Blanks f) (hearly : code.early (c :: cs) = 0)
    (hrest : ∀ d ∈ cs.take n, isLeafChar d = true ∧ d ≠ '/') :
    (pieces note (c :: cs)).flatMap f = c :: cs.take n ++ (pieces note (cs.drop n)).flatMap f := by
  have hunmarked : ∀ d ∈ cs.take n, d ∉ ['#', '/', '\"', '\''] := by
    intro d hd hmark
    obtain ⟨hleaf, hslash⟩ := hrest d hd
    simp only [mem_cons, not_mem_nil, or_false] at hmark
    rcases hmark with rfl | rfl | rfl | rfl
    · exact absurd hleaf (by decide)
    · exact hslash rfl
    · exact absurd hleaf (by decide)
    · exact absurd hleaf (by decide)
  rw [hf.of_plain hearly, cons_append, ← hf.of_unmarked hunmarked, take_append_drop]

/-- What a cleaner makes of a leaf. -/
def cleanedLeaf (f : Piece → List Char) (l : Leaf) : List Char :=
  if l.isNote then blankOut l.chars else if l.isLiteral then f (.literal l.chars) else l.chars

/-- The induction follows the leaves: a note, a literal, a bracket or another one first. -/
theorem Blanks.of_leaves? (hf : Blanks f) {base : Int} {s : List Char} {ls : List Leaf}
    (h : leaves? base s = some ls) (hescapes : ∀ l ∈ ls, l.isEscape = false) :
    (pieces note s).flatMap f = ls.flatMap (cleanedLeaf f) := by
  fun_induction leaves? base s generalizing ls with
  | case1 base =>
    cases h
    rw [pieces]
    rfl
  | case2 base c cs hzero => cases h
  | case3 base c cs n hn ih =>
    obtain ⟨ls, hls, rfl⟩ := Option.map_eq_some_iff.mp h
    obtain ⟨hescape, hescapes⟩ := forall_mem_cons.mp hescapes
    rw [flatMap_cons, ← ih hls hescapes]
    unfold cleanedLeaf
    rcases leaf_cases hn with hnote | ⟨hnote, hliteral⟩ | ⟨hearly, ⟨hbracket, rfl⟩ | hlate⟩
    · rw [isNote_of_note hnote, if_pos rfl, hf.of_note hnote]
    · obtain ⟨hisLiteral, hisNote⟩ := isLiteral_of_literal hliteral base
      rw [hisNote, hisLiteral, if_neg Bool.false_ne_true, if_pos rfl, pieces,
        repeated, hnote, hliteral]
      rfl
    · obtain ⟨hisNote, hisLiteral⟩ := not_isNote_of_isBracket hbracket base
      rw [take_zero, hisNote, hisLiteral, if_neg Bool.false_ne_true,
        if_neg Bool.false_ne_true, hf.of_plain hearly]
      rfl
    · have hc : c ≠ '\\' := by
        rintro rfl
        cases hescape
      obtain ⟨hisNote, hisLiteral⟩ := not_isNote_of_late hc hlate base
      rw [hisNote, hisLiteral, if_neg Bool.false_ne_true, if_neg Bool.false_ne_true]
      refine hf.of_leaf hearly fun d hd => ⟨?_, (not_mem_tail_of_late hc hlate d hd).1⟩
      exact isLeafChar_of_late hc hlate d (mem_cons_of_mem c hd)

end Text

/-! ## Cleaned texts -/

namespace Token

/-- The leaves of the tokens of a text. -/
def leavesOf (s : List Char) (base : Int) : List Leaf := (scan s base).flatMap leaves

end Token

namespace Text

theorem flatMap_chars_of_leaves? {base : Int} {s : List Char} {ls : List Leaf}
    (h : leaves? base s = some ls) : ls.flatMap Leaf.chars = s := by
  fun_induction leaves? base s generalizing ls with
  | case1 base =>
    cases h
    rfl
  | case2 base c cs hzero => cases h
  | case3 base c cs n hn ih =>
    obtain ⟨ls, hls, rfl⟩ := Option.map_eq_some_iff.mp h
    rw [flatMap_cons, ih hls, cons_append, take_append_drop]

/-- **Cleaning blanks out leaves.** If the tokens of a text cover it, and no leaf into which they
open up is an escape, the leaves make up the text, and cleaning blanks out those that are notes, and
with the literals the string and character leaves as well. -/
theorem blankNotes_eq_leaves (s : List Char) (base : Int)
    (hcovered : Span.Tile base (base + s.length) ((Token.scan s base).map Token.span))
    (hescapes : ∀ l ∈ Token.leavesOf s base, l.isEscape = false) :
    (Token.leavesOf s base).flatMap Leaf.chars = s ∧
    blankNotes s = (Token.leavesOf s base).flatMap (fun l =>
      if l.isNote then blankOut l.chars else l.chars) ∧
    blankNotesAndLiterals s = (Token.leavesOf s base).flatMap (fun l =>
      if l.isNote || l.isLiteral then blankOut l.chars else l.chars) := by
  have hleaves : leaves? base s = some (Token.leavesOf s base) :=
    (Token.tile_scan_iff_nested s base).2 hcovered
  refine ⟨flatMap_chars_of_leaves? hleaves, ?_, ?_⟩
  · rw [blankNotes, Blanks.of_leaves? ⟨fun _ => rfl, fun _ => rfl⟩ hleaves hescapes]
    congr 1
    funext l
    rw [cleanedLeaf, ite_self]
  · rw [blankNotesAndLiterals, Blanks.of_leaves? ⟨fun _ => rfl, fun _ => rfl⟩ hleaves hescapes]
    congr 1
    funext l
    unfold cleanedLeaf
    cases l.isNote <;> rfl

/-- A comment mark in a string and a bracket in a comment, inside brackets. -/
theorem blankNotes_eq_leaves_call :
    blankNotes "f(\"//\",/*)*/x)\n".toList = "f(\"//\",     x)\n".toList ∧
      blankNotesAndLiterals "f(\"//\",/*)*/x)\n".toList = "f(    ,     x)\n".toList := by
  have hcovered : Lex.code.runLength "f(\"//\",/*)*/x)\n".toList =
      "f(\"//\",/*)*/x)\n".toList.length := by decide +kernel
  have hleaves : Token.leavesOf "f(\"//\",/*)*/x)\n".toList 0 =
      [⟨0, ['f']⟩, ⟨1, ['(']⟩, ⟨2, "\"//\"".toList⟩, ⟨6, [',']⟩, ⟨7, "/*)*/".toList⟩, ⟨12, ['x']⟩,
        ⟨13, [')']⟩, ⟨14, ['\n']⟩] := by decide +kernel
  obtain ⟨-, hnotes, hliterals⟩ := blankNotes_eq_leaves "f(\"//\",/*)*/x)\n".toList 0
    ((Token.tile_scan_iff _ _).mpr hcovered) (by rw [hleaves]; decide)
  rw [hnotes, hliterals, hleaves]
  decide +kernel

end Text

end CBoundary
