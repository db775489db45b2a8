import CBoundary.Proofs.Token.Layers

/-!
# Texts of notes

Comments and directives are notes.  A text of notes and white space can be read without looking
at code: its directives come one after the other, each with the last comment in front of it
since the directive before.
-/

namespace CBoundary

open Text List

variable {run piece : List Char}

namespace Lex

variable {piece : List Char} {c : Char}

/-! ## Notes -/

/-- A directive or a comment, up to its end. -/
inductive IsNote : List Char → Prop where
  | directive {body : List Char} (h : Escaped '\n' body) : IsNote ('#' :: (body ++ ['\n']))
  | lineComment {body : List Char} (h : Escaped '\n' body) : IsNote ('/' :: '/' :: (body ++ ['\n']))
  | blockComment {inside : List Char} (h : Commented inside) :
      IsNote ('/' :: '*' :: (inside ++ ['*', '/']))

theorem IsNote.exists_cons (h : IsNote piece) : ∃ c cs, piece = c :: cs ∧ (c = '#' ∨ c = '/') := by
  cases h with
  | directive => exact ⟨_, _, rfl, .inl rfl⟩
  | lineComment => exact ⟨_, _, rfl, .inr rfl⟩
  | blockComment => exact ⟨_, _, rfl, .inr rfl⟩

theorem IsNote.ne_nil (h : IsNote piece) : piece ≠ [] := by
  obtain ⟨c, cs, rfl, -⟩ := h.exists_cons
  exact cons_ne_nil c cs

theorem note_append (h : IsNote piece) (rest : List Char) :
    note (piece ++ rest) = piece.length := by
  cases h with
  | @directive body hbody =>
    have hread : directive ('#' :: (body ++ ['\n']) ++ rest) = body.length + 1 + 1 :=
      (reads_directive _ _).mpr ⟨_, rest, rfl, by simp, body, rfl, hbody⟩
    simp only [note, firstOf, hread, length_cons, length_append, length_nil]
  | @lineComment body hbody =>
    have hread : lineComment ('/' :: '/' :: (body ++ ['\n']) ++ rest) = body.length + 2 + 1 :=
      (reads_lineComment _ _).mpr ⟨_, rest, rfl, by simp, body, rfl, hbody⟩
    have hnone : directive ('/' :: '/' :: (body ++ ['\n']) ++ rest) = 0 := by simp [directive]
    simp only [note, firstOf, hnone, hread, length_cons, length_append, length_nil]
  | @blockComment inside hinside =>
    have hread : blockComment ('/' :: '*' :: (inside ++ ['*', '/']) ++ rest) =
        inside.length + 3 + 1 :=
      (reads_blockComment _ _).mpr ⟨_, rest, rfl, by simp, inside, rfl, hinside⟩
    have hnone : directive ('/' :: '*' :: (inside ++ ['*', '/']) ++ rest) = 0 := by
      simp [directive]
    have hline : lineComment ('/' :: '*' :: (inside ++ ['*', '/']) ++ rest) = 0 := by
      simp [lineComment]
    simp only [note, firstOf, hnone, hline, hread, length_cons, length_append,
      length_nil]

theorem early_of_isSpace (hc : isSpace c = true) (cs : List Char) :
    note (c :: cs) = 0 ∧ literal (c :: cs) = 0 := by
  have hearly : code.early (c :: cs) = 0 := by
    apply early_eq_zero
    intro hmem
    simp only [mem_cons, not_mem_nil, or_false] at hmem
    rcases hmem with rfl | rfl | rfl | rfl <;> cases hc
  have hnone := eq_zero_of_firstOf hearly
  exact ⟨hnone note (by simp), hnone literal (by simp)⟩

theorem tokenLength_append (h : IsNote piece) (rest : List Char) :
    code.tokenLength (piece ++ rest) = piece.length := by
  have hnote := note_append h rest
  obtain ⟨c, cs, rfl, -⟩ := h.exists_cons
  have hearly : code.early (c :: cs ++ rest) = cs.length + 1 := by
    show firstOf [note, literal] (c :: cs ++ rest) = cs.length + 1
    rw [firstOf_pair, hnote, length_cons, if_neg (Nat.succ_ne_zero _)]
  rw [cons_append] at hearly ⊢
  rw [Grammar.tokenLength, hearly, length_cons]

theorem findings_append {r : Rule} {rest : List Char} (hne : piece ≠ [])
    (h : r (piece ++ rest) = piece.length) (start : Nat) :
    findings r start (piece ++ rest) =
      ⟨start, piece⟩ :: findings r (start + piece.length) rest := by
  cases piece with
  | nil => exact absurd rfl hne
  | cons c cs =>
    rw [length_cons] at h
    rw [cons_append] at h ⊢
    rw [findings, h]
    simp [Nat.add_assoc]

theorem exists_space_findings (hc : isSpace c = true) (cs : List Char) :
    ∃ run rest, c :: cs = run ++ rest ∧ run ≠ [] ∧ (∀ d ∈ run, isSpace d = true) ∧
      ∀ start, findings code.tokenLength start (c :: cs) =
          findings code.tokenLength (start + run.length) rest ∨
        Kind.ofText (String.ofList run) = .space ∧ findings code.tokenLength start (c :: cs) =
            ⟨start, run⟩ :: findings code.tokenLength (start + run.length) rest := by
  by_cases hblank : isBlank c = true
  · -- the whole run of blanks is one token
    refine ⟨(c :: cs).takeWhile isBlank, (c :: cs).dropWhile isBlank,
      takeWhile_append_dropWhile.symm, ?_, ?_, fun start => .inr ⟨?_, ?_⟩⟩
    · simp [hblank]
    · intro d hd
      have hd := all_eq_true.mp all_takeWhile d hd
      simp only [isBlank, isSpace, Bool.or_eq_true, beq_iff_eq] at hd ⊢
      rcases hd with (rfl | rfl) | rfl <;> simp
    · simp [Kind.ofText, hblank]
    · have hlength : code.tokenLength
          ((c :: cs).takeWhile isBlank ++ (c :: cs).dropWhile isBlank) =
          ((c :: cs).takeWhile isBlank).length := by
        rw [takeWhile_append_dropWhile, tokenLength_of_isBlank hblank]
        rfl
      have hfound := findings_append (by simp [hblank]) hlength start
      rwa [takeWhile_append_dropWhile] at hfound
  · refine ⟨[c], cs, rfl, by simp, by simpa using hc, fun start => ?_⟩
    by_cases hbreak : c = '\n'
    · subst hbreak
      have hne : ['\n'] ≠ [] := cons_ne_nil _ _
      exact .inr ⟨rfl, findings_append hne (tokenLength_lineBreak cs) start⟩
    · refine .inl ?_
      have hzero : code.tokenLength (c :: cs) = 0 := by
        simp only [isBlank, isSpace, Bool.or_eq_true, beq_iff_eq, not_or] at hc hblank
        have hc : c = '\x0b' ∨ c = '\x0c' := by grind
        rw [Grammar.tokenLength_of_closerOf_eq_none, firstOf_pair, early_eq_zero, if_pos rfl]
        · rcases hc with rfl | rfl <;> cases cs <;> rfl
        all_goals rcases hc with rfl | rfl <;> decide
      rw [findings, hzero]
      rfl

end Lex

/-! ## Texts of notes -/

/-- The text is made of notes and white space. -/
inductive OnlyNotes : List Char → Prop where
  | nil : OnlyNotes []
  | space {c : Char} {cs : List Char} (hc : isSpace c = true) (rest : OnlyNotes cs) :
      OnlyNotes (c :: cs)
  | note {piece rest : List Char} (h : Lex.IsNote piece) (hrest : OnlyNotes rest) :
      OnlyNotes (piece ++ rest)

theorem OnlyNotes.of_cons {c : Char} {cs : List Char} (h : OnlyNotes (c :: cs)) :
    (isSpace c = true ∧ OnlyNotes cs) ∨
      ∃ piece rest, c :: cs = piece ++ rest ∧ Lex.IsNote piece ∧ OnlyNotes rest := by
  generalize hs : c :: cs = s at h
  cases h with
  | nil => cases hs
  | space hc rest =>
    cases hs
    exact .inl ⟨hc, rest⟩
  | note h hrest => exact .inr ⟨_, _, rfl, h, hrest⟩

theorem OnlyNotes.of_space_append {rest : List Char} (hrun : ∀ c ∈ run, isSpace c = true)
    (h : OnlyNotes (run ++ rest)) : OnlyNotes rest := by
  induction run with
  | nil => exact h
  | cons c run ih =>
    obtain ⟨hc, hrun⟩ := forall_mem_cons.mp hrun
    rcases h.of_cons with ⟨-, hcs⟩ | ⟨piece, rest', hsplit, hnote, -⟩
    · exact ih hrun hcs
    · obtain ⟨d, ds, rfl, hd⟩ := hnote.exists_cons
      obtain ⟨rfl, -⟩ := List.cons.inj hsplit
      rcases hd with rfl | rfl <;> cases hc

/-- Induction over runs of white space and notes. -/
theorem OnlyNotes.run_induction {motive : (s : List Char) → OnlyNotes s → Prop}
    (nil : motive [] .nil)
    (space : ∀ {c : Char} {cs : List Char} (_ : isSpace c = true) (h : OnlyNotes (c :: cs)),
      (∀ run rest, c :: cs = run ++ rest → run ≠ [] → (∀ d ∈ run, isSpace d = true) →
        ∃ hrest, motive rest hrest) → motive (c :: cs) h)
    (note : ∀ {piece rest : List Char} (hnote : Lex.IsNote piece) (hrest : OnlyNotes rest),
      motive rest hrest → motive (piece ++ rest) (.note hnote hrest))
    {s : List Char} (h : OnlyNotes s) : motive s h := by
  induction hsize : s.length using Nat.strongRecOn generalizing s with
  | ind size ih =>
    subst hsize
    cases h with
    | nil => exact nil
    | @space c cs hc rest =>
      refine space hc (.space hc rest) fun run rest' hsplit hne hrun => ?_
      have hrest : OnlyNotes rest' := (hsplit ▸ OnlyNotes.space hc rest).of_space_append hrun
      refine ⟨hrest, ih _ ?_ hrest rfl⟩
      rw [hsplit, length_append]
      exact Nat.lt_add_of_pos_left (length_pos_iff.mpr hne)
    | @note piece rest hnote hrest =>
      refine note hnote hrest (ih _ ?_ hrest rfl)
      rw [length_append]
      exact Nat.lt_add_of_pos_left (length_pos_iff.mpr hnote.ne_nil)

/-- A directive, the last comment in front of it, and what stands between. -/
structure Directive where
  text : Lex.Lexeme
  comment : Option Lex.Lexeme
  gap : List Char

/-- The directives of a text behind a comment. -/
def directivesIn (start : Nat) (comment : Option Lex.Lexeme) (gap : List Char)
    (s : List Char) : List Directive :=
  match s with
  | [] => []
  | c :: cs =>
    match Lex.note (c :: cs) with
    | 0 => directivesIn (start + 1) comment (gap ++ [c]) cs
    | n + 1 =>
      if c = '#' then
        ⟨⟨start, c :: cs.take n⟩, comment, gap⟩ ::
          directivesIn (start + n + 1) none [] (cs.drop n)
      else directivesIn (start + n + 1) (some ⟨start, c :: cs.take n⟩) [] (cs.drop n)
termination_by s.length

theorem directivesIn_space (hrun : ∀ c ∈ run, isSpace c = true) (start : Nat)
    (comment : Option Lex.Lexeme) (gap rest : List Char) :
    directivesIn start comment gap (run ++ rest) =
      directivesIn (start + run.length) comment (gap ++ run) rest := by
  induction run generalizing start gap with
  | nil => simp
  | cons c run ih =>
    obtain ⟨hc, hrun⟩ := forall_mem_cons.mp hrun
    rw [cons_append, directivesIn, (Lex.early_of_isSpace hc _).1]
    rw [ih hrun, append_assoc, singleton_append, length_cons, Nat.add_assoc,
      Nat.add_comm 1]

theorem directivesIn_note (h : Lex.IsNote piece) (start : Nat) (comment : Option Lex.Lexeme)
    (gap rest : List Char) :
    directivesIn start comment gap (piece ++ rest) = if piece.head? = some '#' then
        ⟨⟨start, piece⟩, comment, gap⟩ :: directivesIn (start + piece.length) none [] rest
      else directivesIn (start + piece.length) (some ⟨start, piece⟩) [] rest := by
  have hnote := Lex.note_append h rest
  obtain ⟨c, cs, rfl, -⟩ := h.exists_cons
  rw [length_cons] at hnote ⊢
  rw [cons_append] at hnote ⊢
  rw [directivesIn, hnote]
  simp [Nat.add_assoc]

end CBoundary
