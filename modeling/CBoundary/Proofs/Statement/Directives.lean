import CBoundary.Macro.Basic
import CBoundary.Proofs.Statement.Notes
import CBoundary.Proofs.Statement.Trailing

/-!
# Two readings of a text of notes

Read off the statements, a macro goes with the last comment in front of it since the directive
before.  Read off the directives alone, it does so only if white space stands between the two,
and only if the first character of that is a blank or a line break.
-/

namespace CBoundary

open Text List CBoundary.Lex Token

variable {t : Token} {piece s : List Char}

/-! ## Tokens and macros without the numbers of tokens -/

/-- The token without its number. -/
def Token.unnumbered (t : Token) : Token := { t with idx := 0 }

/-- The macro whose comment has no number. -/
def MacroDecl.unnumbered (m : MacroDecl) : MacroDecl :=
  { m with preComment := m.preComment.map Token.unnumbered }

/-- The macro without its comment. -/
def MacroDecl.uncommented (m : MacroDecl) : MacroDecl := { m with preComment := none }

/-- The token of a piece of a text, without a number. -/
def Lex.Lexeme.token (l : Lexeme) : Token :=
  ⟨0, ⟨l.start, l.stop⟩, String.ofList l.chars, some (Kind.ofText (String.ofList l.chars))⟩

theorem Token.settled_of_unnumbered {l : Lexeme} (h : t.unnumbered = l.token) :
    Statement.Settled t := by
  have hvalue : t.value = String.ofList l.chars := congrArg value h
  have hkind : t.kind? = some (Kind.ofText (String.ofList l.chars)) := congrArg kind? h
  rw [Statement.Settled, hkind, hvalue]

theorem Token.kind_of_unnumbered {start : Nat}
    (h : t.unnumbered = Lexeme.token ⟨start, piece⟩) :
    t.kind = Kind.ofText (String.ofList piece) := by
  have hvalue : t.value = String.ofList piece := congrArg value h
  rw [(settled_of_unnumbered h).kind_eq, hvalue]

theorem Kind.ofText_note (h : IsNote piece) :
    ofText (String.ofList piece) = if piece.head? = some '#' then .directive else .comment := by
  cases h <;> simp [ofText, isBlank]

namespace MacroDecl

open Statement (Blank)

theorem ofTokens_of_blank {ts : List Token} (h : ∀ t ∈ ts, Blank t) : ofTokens ts = none := by
  have hnone : ts.find? (fun t => t.kind != .comment && t.kind != .space) = none := by
    apply find?_eq_none.mpr
    intro t ht
    rcases h t ht with hkind | hkind <;> simp [hkind]
  rw [ofTokens, hnone]
  rfl

theorem ofTokens_concat {before : List Token} {t : Token} (hbefore : ∀ u ∈ before, Blank u)
    (ht : t.kind = .directive) :
    ofTokens (before ++ [t]) = (ofTokens [t.unnumbered]).map fun m =>
      { m with preComment := before.find? fun u => u.kind == .comment } := by
  have hfind : (before ++ [t]).find? (fun u => u.kind != .comment && u.kind != .space) =
      some t := by
    have hnone : before.find? (fun u => u.kind != .comment && u.kind != .space) = none := by
      apply find?_eq_none.mpr
      intro u hu
      rcases hbefore u hu with hkind | hkind <;> simp [hkind]
    rw [find?_append, hnone]
    simp [ht]
  have htake : (before ++ [t]).takeWhile (fun u => u.kind == .comment || u.kind == .space) =
      before := by
    rw [takeWhile_append_of_pos]
    · simp [ht]
    · intro u hu
      rcases hbefore u hu with hkind | hkind <;> simp [hkind]
  have hkind : t.unnumbered.kind = .directive := ht
  have hread : readDefine t.unnumbered = readDefine t := rfl
  unfold ofTokens
  rw [hfind, htake]
  simp only [find?_singleton, hkind, Option.bind_eq_bind, Option.bind_some]
  cases hd : readDefine t <;> simp [hread, hd]

end MacroDecl

/-- The macro of a directive, with the comment or without. -/
def Directive.macro? (d : Directive) (withComment : Bool) : Option MacroDecl :=
  (MacroDecl.ofTokens [d.text.token]).map fun m =>
    { m with preComment := if withComment then d.comment.map Lexeme.token else none }

/-- Does the gap in front of the directive start with a blank or a line break? -/
def Directive.isSpaced (d : Directive) : Bool := d.gap.head?.any fun c => isBlank c || c == '\n'

namespace Statement

open Pending

variable {p : Pending} {t older latest : Token} {comment : Option Lexeme} {l : Lexeme}
  {s : List Char} {start : Nat} {ts : List Token}

/-- The macros that some statements define. -/
def macros (sts : List Statement) : List MacroDecl :=
  sts.filterMap fun st => (MacroDecl.ofTokens st.tokens).map MacroDecl.unnumbered

theorem macros_cons (st : Statement) (sts : List Statement) : macros (st :: sts) =
      ((MacroDecl.ofTokens st.tokens).map MacroDecl.unnumbered).toList ++ macros sts := by
  rw [macros, filterMap_cons]
  cases (MacroDecl.ofTokens st.tokens).map MacroDecl.unnumbered <;> rfl

/-! ## All statements of a text -/

/-- What is collected consists of white space and at most one comment. -/
structure Pending.Holds (p : Pending) (comment : Option Lexeme) : Prop where
  incomplete : p.complete = false
  blank : ∀ t ∈ p.tokens, Blank t
  commentOnly : p.commentOnly = comment.map fun _ => true
  comment : (p.tokens.reverse.find? fun t => t.kind == .comment).map Token.unnumbered =
    comment.map Lexeme.token

theorem Pending.holds_empty : Pending.Holds {} none := ⟨rfl, forall_mem_nil _, rfl, rfl⟩

theorem macros_flush (hp : ∀ t ∈ p.tokens, Blank t) : macros p.flush = [] := by
  apply filterMap_eq_nil_iff.mpr
  intro st hst
  obtain ⟨-, rfl⟩ := mem_flush hst
  rw [MacroDecl.ofTokens_of_blank fun t ht => hp t (mem_reverse.mp ht)]
  rfl

theorem Pending.join_of_blank (p : Pending) (hsettled : Settled t) (ht : Blank t)
    (rest : List Token) : p.join t rest = { p.observe t with tokens := t :: p.tokens } := by
  have hcloses : closes t = false := by
    apply Bool.eq_false_iff.mpr
    intro hcloses
    exact not_blank_of_closes hsettled hcloses ht
  rw [join, hcloses]
  rfl

theorem Blank.kind_ne_invalid (h : Blank t) : t.kind ≠ .invalid := by
  rcases h with hkind | hkind <;> rw [hkind] <;> decide

theorem group_space (hp : p.Holds comment) (hsettled : Settled t) (ht : t.kind = .space)
    (rest : List Token) : ∃ q : Pending, q.Holds comment ∧ group p (t :: rest) = group q rest := by
  have hanew : p.startsAnew t = false := by simp [startsAnew, ht]
  have hcleared : p.cleared t = p := by rw [cleared, hanew]; rfl
  have hend : p.endsWith t = false := by simp [endsWith, hp.incomplete, ht]
  refine ⟨{ p.observe t with tokens := t :: p.tokens }, ?_, ?_⟩
  · refine ⟨hp.incomplete, forall_mem_cons.mpr ⟨.inl ht, hp.blank⟩, ?_, ?_⟩
    · simp [observe, ht, hp.commentOnly]
    · rw [reverse_cons, find?_append, ← hp.comment]
      simp [ht]
  · rw [group_cons_of_valid p hsettled.settled_eq (Blank.kind_ne_invalid (.inl ht)), hcleared,
      hend, released, hanew, join_of_blank p hsettled (.inl ht)]
    rfl

theorem group_comment (hp : p.Holds comment) (hl : t.unnumbered = l.token) (ht : t.kind = .comment)
    (rest : List Token) :
    ∃ (q : Pending) (done : List Statement), q.Holds (some l) ∧ macros done = [] ∧
      group p (t :: rest) = done ++ group q rest := by
  have hsettled := settled_of_unnumbered hl
  obtain ⟨hcleared, hreleased⟩ : (p.cleared t).Holds none ∧ macros (p.released t) = [] := by
    unfold cleared released
    cases comment with
    | some l =>
      simp [startsAnew, hp.commentOnly, ht, holds_empty, macros_flush hp.blank]
    | none => simp [startsAnew, hp.commentOnly, hp.incomplete, hp, macros]
  have hend : (p.cleared t).endsWith t = false := by
    simp [endsWith, hcleared.incomplete, ht]
  refine ⟨{ (p.cleared t).observe t with tokens := t :: (p.cleared t).tokens }, p.released t,
    ?_, hreleased, ?_⟩
  · refine ⟨hcleared.incomplete, forall_mem_cons.mpr ⟨.inr ht, hcleared.blank⟩, ?_, ?_⟩
    · simp [observe, ht, hcleared.commentOnly]
    · have hnone := Option.map_eq_none_iff.mp hcleared.comment
      rw [reverse_cons, find?_append, hnone]
      simp [ht, hl]
  · rw [group_cons_of_valid p hsettled.settled_eq (Blank.kind_ne_invalid (.inr ht)), hend,
      join_of_blank _ hsettled (.inr ht)]
    rfl

theorem group_directive (hp : p.Holds comment) (hsettled : Settled t) (ht : t.kind = .directive)
    (rest : List Token) :
    group p (t :: rest) = ⟨p.tokens.reverse ++ [t], none⟩ :: group {} rest := by
  have hanew : p.startsAnew t = false := by simp [startsAnew, hp.incomplete, ht]
  have hcleared : p.cleared t = p := by rw [cleared, hanew]; rfl
  have hend : p.endsWith t = true := by simp [endsWith, ht]
  rw [group_cons_of_valid p hsettled.settled_eq (by rw [ht]; decide), hcleared, hend,
    released, hanew]
  rfl

/-- The macros of a text of notes have the last comments in front of them. -/
theorem macros_group (h : OnlyNotes s) (gap : List Char)
    (hts : ts.map Token.unnumbered =
      (findings code.tokenLength start s).map Lexeme.token)
    (hp : p.Holds comment) :
    macros (group p ts) = (directivesIn start comment gap s).filterMap fun d => d.macro? true := by
  induction h using OnlyNotes.run_induction generalizing start ts p comment gap with
  | nil =>
    rw [findings, map_nil, map_eq_nil_iff] at hts
    rw [hts, group, macros_flush hp.blank, directivesIn, filterMap_nil]
  | @space c cs hc h ih =>
    obtain ⟨run, rest, hsplit, hne, hrun, hfound⟩ := exists_space_findings hc cs
    obtain ⟨-, ih⟩ := ih run rest hsplit hne hrun
    rw [hsplit, directivesIn_space hrun]
    rcases hfound start with hpassed | ⟨hkind, htaken⟩
    · rw [hpassed] at hts
      exact ih (gap ++ run) hts hp
    · rw [htaken, map_cons, map_eq_cons_iff] at hts
      obtain ⟨t, ts, rfl, ht, hts⟩ := hts
      obtain ⟨q, hq, hgroup⟩ := group_space hp (settled_of_unnumbered ht)
        ((kind_of_unnumbered ht).trans hkind) ts
      rw [hgroup]
      exact ih (gap ++ run) hts hq
  | @note piece rest hnote hrest ih =>
    rw [findings_append hnote.ne_nil (tokenLength_append hnote rest), map_cons,
      map_eq_cons_iff] at hts
    obtain ⟨t, ts, rfl, ht, hts⟩ := hts
    have hkind := (kind_of_unnumbered ht).trans (Kind.ofText_note hnote)
    by_cases hhead : piece.head? = some '#'
    · rw [if_pos hhead] at hkind
      have hmacro : (MacroDecl.ofTokens (p.tokens.reverse ++ [t])).map MacroDecl.unnumbered =
          Directive.macro? ⟨⟨start, piece⟩, comment, gap⟩ true := by
        rw [MacroDecl.ofTokens_concat (fun u hu => hp.blank u (mem_reverse.mp hu)) hkind,
          ht, Option.map_map, Directive.macro?]
        congr 1
        funext m
        simp [MacroDecl.unnumbered, hp.comment]
      rw [directivesIn_note hnote, if_pos hhead,
        group_directive hp (settled_of_unnumbered ht) hkind, macros_cons, hmacro,
        ih [] hts holds_empty, filterMap_cons]
      cases Directive.macro? ⟨⟨start, piece⟩, comment, gap⟩ true <;> rfl
    · rw [if_neg hhead] at hkind
      obtain ⟨q, done, hq, hdone, hgroup⟩ := group_comment hp ht hkind ts
      rw [directivesIn_note hnote, if_neg hhead, hgroup,
        show macros (done ++ _) = _ from filterMap_append, ← macros, hdone, nil_append]
      exact ih [] hts hq

/-! ## The directives of a text alone -/

theorem directivePiece_append {piece : List Char} (h : IsNote piece) (rest : List Char) :
    directivePiece (piece ++ rest) = piece.length := by
  have hnote := note_append h rest
  obtain ⟨c, cs, rfl, -⟩ := h.exists_cons
  rw [directivePiece, firstOf, hnote]
  rfl

theorem directivePiece_of_isSpace {c : Char} (hc : isSpace c = true) (cs : List Char) :
    directivePiece (c :: cs) = runLength isSpace (c :: cs) := by
  obtain ⟨hnote, hliteral⟩ := early_of_isSpace hc cs
  obtain ⟨n, hn⟩ : ∃ n, runLength isSpace (c :: cs) = n + 1 := by simp [runLength, hc]
  simp only [directivePiece, firstOf, hnote, hliteral, hn]

/-- The token is the comment, or it is no comment if there is none. -/
def Shows (t : Token) : Option Lexeme → Prop
  | some l => t.unnumbered = l.token ∧ t.kind = .comment
  | none => t.kind ≠ .comment

/-- The two pieces in front of the rest: by the comment there, and nothing or complete white space
behind it. -/
def Precede (older latest : Token) (comment : Option Lexeme) (gap rest : List Char) : Prop :=
  (gap = [] ∧ latest.kind ≠ .space ∧ Shows latest comment) ∨
    (gap ≠ [] ∧ latest.kind = Kind.ofText (String.ofList gap) ∧ Shows older comment ∧
      ∀ c ∈ rest.head?, isSpace c = false)

theorem kind_gap_eq_space_iff (d : Directive) :
    Kind.ofText (String.ofList d.gap) = .space ↔ d.isSpaced = true := by
  unfold Directive.isSpaced
  constructor
  · intro h
    obtain ⟨c, cs, hgap, hc⟩ := Kind.exists_cons_of_space h
    rw [String.toList_ofList] at hgap
    simpa [hgap] using hc
  · intro h
    cases hgap : d.gap with
    | nil => simp [hgap] at h
    | cons c cs =>
      rw [hgap, head?_cons, Option.any_some] at h
      simp [Kind.ofText, h]

theorem macro?_of_precede {d : Directive} {rest : List Char}
    (hb : Precede older latest d.comment d.gap rest) (ht : t.unnumbered = d.text.token)
    (hkind : t.kind = .directive) :
    (MacroDecl.ofTokens (if older.kind == .comment && latest.kind == .space
      then [older, latest, t] else [t])).map MacroDecl.unnumbered = d.macro? d.isSpaced := by
  have halone : (MacroDecl.ofTokens [t]).map MacroDecl.unnumbered = d.macro? false := by
    have h := MacroDecl.ofTokens_concat (forall_mem_nil Blank) hkind
    rw [nil_append] at h
    rw [h, ht, Option.map_map, Directive.macro?]
    rfl
  cases hspaced : d.isSpaced with
  | false =>
    have hlatest : latest.kind ≠ .space := by
      rcases hb with ⟨-, hlatest, -⟩ | ⟨-, hlatest, -, -⟩
      · exact hlatest
      · rw [hlatest, ne_eq, kind_gap_eq_space_iff, hspaced]
        exact Bool.false_ne_true
    rw [if_neg (by simp [hlatest]), halone]
  | true =>
    rcases hb with ⟨hgap, -, -⟩ | ⟨-, hlatest, holder, -⟩
    · simp [Directive.isSpaced, hgap] at hspaced
    · have hspace : latest.kind = .space := hlatest.trans ((kind_gap_eq_space_iff d).mpr hspaced)
      cases hcomment : d.comment with
      | none =>
        rw [hcomment] at holder
        rw [if_neg (by simp [show older.kind ≠ .comment from holder]), halone]
        simp [Directive.macro?, hcomment]
      | some l =>
        rw [hcomment] at holder
        obtain ⟨hl, hl'⟩ := holder
        have hbefore : ∀ u ∈ [older, latest], Blank u := by
          simp only [forall_mem_cons]
          exact ⟨.inr hl', .inl hspace, forall_mem_nil _⟩
        rw [if_pos (by simp [hl', hspace])]
        show (MacroDecl.ofTokens ([older, latest] ++ [t])).map MacroDecl.unnumbered = _
        rw [MacroDecl.ofTokens_concat hbefore hkind, ht, Option.map_map, Directive.macro?]
        congr 1
        funext m
        simp [MacroDecl.unnumbered, hl', hcomment, hl]

theorem directivesOf_of_not_startsWith (ht : t.startsWith '#' = false) (older latest : Token)
    (ts : List Token) : directivesOf older latest (t :: ts) = directivesOf latest t ts := by
  rw [directivesOf, ht]
  rfl

theorem macros_directivesOf_cons (ht : t.startsWith '#' = true) (older latest : Token)
    (ts : List Token) :
    macros (directivesOf older latest (t :: ts)) =
      ((MacroDecl.ofTokens (if older.kind == .comment && latest.kind == .space
        then [older, latest, t] else [t])).map MacroDecl.unnumbered).toList ++
        macros (directivesOf latest t ts) := by
  rw [directivesOf, ht, if_pos rfl]
  split <;> rw [singleton_append, macros_cons]

theorem Token.startsWith_of_unnumbered (h : t.unnumbered = l.token) (c : Char) :
    t.startsWith c = (l.chars.head? == some c) := by
  have hvalue : t.value = String.ofList l.chars := congrArg value h
  rw [startsWith, chars, hvalue, String.toList_ofList]

theorem macros_directivesOf (h : OnlyNotes s) {gap : List Char}
    (hts : ts.map Token.unnumbered = (findings directivePiece start s).map Lexeme.token)
    (hb : Precede older latest comment gap s) :
    macros (directivesOf older latest ts) =
      (directivesIn start comment gap s).filterMap fun d => d.macro? d.isSpaced := by
  induction h using OnlyNotes.run_induction
    generalizing start ts older latest comment gap with
  | nil =>
    rw [findings, map_nil, map_eq_nil_iff] at hts
    rw [hts, directivesOf, directivesIn, filterMap_nil]
    rfl
  | @space c cs hc h ih =>
    -- white space follows no other white space, since that was complete
    obtain ⟨rfl, -, hlatest⟩ := hb.resolve_right fun hgap =>
      absurd (hgap.2.2.2 c rfl) (by rw [hc]; exact Bool.noConfusion)
    have hsplit : c :: cs = (c :: cs).takeWhile isSpace ++ (c :: cs).dropWhile isSpace :=
      takeWhile_append_dropWhile.symm
    have hne : (c :: cs).takeWhile isSpace ≠ [] := by simp [hc]
    have hrun : ∀ d ∈ (c :: cs).takeWhile isSpace, isSpace d = true := all_eq_true.mp all_takeWhile
    have hrest : ∀ d ∈ ((c :: cs).dropWhile isSpace).head?, isSpace d = false := by
      intro d hd
      have hstop := head?_dropWhile_not isSpace (c :: cs)
      rw [Option.mem_def.mp hd] at hstop
      simpa using hstop
    have hhead : (((c :: cs).takeWhile isSpace).head? == some '#') = false := by
      simp only [hc, takeWhile_cons_of_pos, head?_cons, beq_eq_false_iff_ne, ne_eq,
        Option.some.injEq]
      rintro rfl
      cases hc
    have hfound := findings_append hne (r := directivePiece) (by
      rw [← hsplit, directivePiece_of_isSpace hc]; rfl) start
    rw [← hsplit] at hfound
    obtain ⟨-, ih⟩ := ih _ _ hsplit hne hrun
    generalize (c :: cs).takeWhile isSpace = run at *
    generalize (c :: cs).dropWhile isSpace = rest at *
    rw [hfound, map_cons, map_eq_cons_iff] at hts
    obtain ⟨t, ts, rfl, ht, hts⟩ := hts
    rw [hsplit, directivesIn_space hrun, nil_append, directivesOf_of_not_startsWith
      ((Token.startsWith_of_unnumbered ht '#').trans hhead)]
    exact ih hts (.inr ⟨hne, kind_of_unnumbered ht, hlatest, hrest⟩)
  | @note piece rest hnote hrest ih =>
    rw [findings_append hnote.ne_nil (directivePiece_append hnote rest), map_cons,
      map_eq_cons_iff] at hts
    obtain ⟨t, ts, rfl, ht, hts⟩ := hts
    have hkind := (kind_of_unnumbered ht).trans (Kind.ofText_note hnote)
    have hstart := Token.startsWith_of_unnumbered ht '#'
    by_cases hhead : piece.head? = some '#'
    · rw [if_pos hhead] at hkind
      rw [hhead, beq_self_eq_true] at hstart
      have hmacro := macro?_of_precede (d := ⟨⟨start, piece⟩, comment, gap⟩) hb ht hkind
      have hnext : Precede latest t none [] rest :=
        .inl ⟨rfl, by rw [hkind]; decide, by rw [Shows, hkind]; decide⟩
      rw [directivesIn_note hnote, if_pos hhead, macros_directivesOf_cons hstart, hmacro,
        ih hts hnext, filterMap_cons]
      cases Directive.macro? _ _ <;> rfl
    · rw [if_neg hhead] at hkind
      rw [beq_eq_false_iff_ne.mpr hhead] at hstart
      rw [directivesIn_note hnote, if_neg hhead, directivesOf_of_not_startsWith hstart]
      exact ih hts (.inl ⟨rfl, by rw [hkind]; decide, ht, hkind⟩)

/-! ## Both readings of a text -/

theorem map_unnumbered_scan (s : List Char) :
    ((Token.scan s 0).map settled).map Token.unnumbered =
      (findings code.tokenLength 0 s).map Lexeme.token := by
  apply ext_getElem
  · simp [Token.scan, ofLexemes]
  · intro i hi hi'
    simp [Token.scan, ofLexemes, Token.unnumbered, settled, Token.kind,
      Lexeme.token]

/-- Read with all its statements, a text of notes gives a macro the last comment before it. -/
theorem macros_scan (h : OnlyNotes s) :
    macros (scan s 0) = (directivesIn 0 none [] s).filterMap fun d => d.macro? true := by
  rw [scan, ofTokens, ← group_map_settled]
  exact macros_group h [] (map_unnumbered_scan s) holds_empty

/-- Read for its directives alone, it gives it to those with white space behind it. -/
theorem macros_scanDirectives (h : OnlyNotes s) : macros (scanDirectives s) =
      (directivesIn 0 none [] s).filterMap fun d => d.macro? d.isSpaced := by
  apply macros_directivesOf h
  · apply ext_getElem
    · simp [ofLexemes]
    · intro i hi hi'
      simp [ofLexemes, Token.unnumbered, settled, Token.kind, Lexeme.token]
  · exact .inl ⟨rfl, by decide, by unfold Shows; decide⟩

end Statement

/-- A comment in front of a macro has white space behind it, first a blank or a line break. -/
def Spaced (s : List Char) : Prop :=
  ∀ d ∈ directivesIn 0 none [] s, (d.macro? true).isSome = true → d.comment.isSome = true →
    d.isSpaced = true

instance (s : List Char) : Decidable (Spaced s) := decidableBAll _ _

theorem Directive.macro?_eq_iff (d : Directive) : d.macro? true = d.macro? d.isSpaced ↔
      ((d.macro? true).isSome = true → d.comment.isSome = true → d.isSpaced = true) := by
  unfold Directive.macro?
  cases MacroDecl.ofTokens [d.text.token] with
  | none => simp
  | some m => cases hspaced : d.isSpaced <;> cases hcomment : d.comment <;> simp

theorem filterMap_eq_filterMap_iff {α β : Type} {f g : α → Option β} {l : List α}
    (h : ∀ a, (f a).isSome = (g a).isSome) :
    l.filterMap f = l.filterMap g ↔ ∀ a ∈ l, f a = g a := by
  induction l with
  | nil => simp
  | cons a l ih =>
    rw [filterMap_cons, filterMap_cons, forall_mem_cons, ← ih]
    have ha := h a
    cases hf : f a <;> cases hg : g a <;> simp_all

theorem macros_eq_iff_spaced (h : OnlyNotes s) :
    Statement.macros (Statement.scan s 0) = Statement.macros (Statement.scanDirectives s) ↔
      Spaced s := by
  rw [Statement.macros_scan h, Statement.macros_scanDirectives h, filterMap_eq_filterMap_iff]
  · exact forall₂_congr fun d _ => d.macro?_eq_iff
  · intro d
    simp [Directive.macro?]

theorem map_macros_eq (h : OnlyNotes s) :
    (Statement.macros (Statement.scan s 0)).map MacroDecl.uncommented =
      (Statement.macros (Statement.scanDirectives s)).map MacroDecl.uncommented := by
  rw [Statement.macros_scan h, Statement.macros_scanDirectives h, map_filterMap,
    map_filterMap]
  congr 1
  funext d
  simp [Directive.macro?, MacroDecl.uncommented, Function.comp_def]

end CBoundary
