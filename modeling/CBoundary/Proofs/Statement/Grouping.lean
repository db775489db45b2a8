import CBoundary.Proofs.Statement.Trailing

/-!
# Declarations as statements

Most tokens of a declaration are quiet: they join the statement that is being collected until a
separator completes it.  In a list of declarators each comma does; behind the body of a record, and
behind an operator, only a semicolon does.
-/

namespace CBoundary

open Text List

/-! ## Quiet tokens -/

namespace Token

/-- A token of some kind that starts with some character. -/
structure Opens (t : Token) (kind : Kind) (c : Char) : Prop where
  kind : t.kind = kind
  head : t.chars.head? = some c

/-- A token of some kind with some text. -/
structure Spells (t : Token) (kind : Kind) (text : String) : Prop where
  kind : t.kind = kind
  value : t.value = text

/-- A token that neither ends a statement nor decides how it ends. -/
structure IsQuiet (t : Token) : Prop where
  kind : t.kind ∉ [Kind.invalid, Kind.comment, Kind.directive]
  star : t.kind = .operator → t.value = "*"
  starts : ∀ c ∈ [';', ',', '\x7b', '='], t.startsWith c = false
  value : t.value ∉ ["if", "do", "typedef"]

variable {t : Token} {c : Char}

theorem startsWith_eq (h : t.chars.head? = some c) (d : Char) : t.startsWith d = (c == d) := by
  rw [startsWith, h]
  rfl

theorem startsWith_eq_false (h : t.chars.head? = some c) {marks : List Char} (hc : c ∉ marks) :
    ∀ d ∈ marks, t.startsWith d = false := by
  intro d hd
  rw [startsWith_eq h, beq_eq_false_iff_ne]
  rintro rfl
  exact hc hd

theorem value_not_mem (h : t.chars.head? = some c) (hc : isWordChar c = false) {words : List String}
    (hwords : words.all (fun w => wordAt w.toList.head?) = true) : t.value ∉ words := by
  intro hmem
  have hword := all_eq_true.mp hwords t.value hmem
  rw [← chars, h] at hword
  exact absurd hword (by simp [wordAt, hc])

theorem Spells.opens {kind : Kind} (h : t.Spells kind (String.singleton c)) : t.Opens kind c :=
  ⟨h.kind, by simp [chars, h.value]⟩

end Token

namespace Statement

variable {t : Token} {ts l : List Token}

/-! ## White space -/

/-- Some tokens, none of them a note, with white space between them. -/
inductive Spaced : List Token → List Token → Prop where
  | nil : Spaced [] []
  | space {t : Token} {ts l : List Token} (ht : Settled t) (hkind : t.kind = .space)
      (h : Spaced ts l) : Spaced (t :: ts) l
  | token {t : Token} {ts l : List Token} (ht : Settled t)
      (hkind : t.kind ∉ [.space, .invalid, .comment, .directive]) (h : Spaced ts l) :
      Spaced (t :: ts) (t :: l)

theorem spaced_filter (hts : ∀ t ∈ ts, Settled t)
    (h : ∀ t ∈ ts, t.kind ∉ [.invalid, .comment, .directive]) :
    Spaced ts (ts.filter fun t => t.kind != .space) := by
  induction ts with
  | nil => exact .nil
  | cons t ts ih =>
    obtain ⟨ht, hts⟩ := forall_mem_cons.mp hts
    obtain ⟨hkind, h⟩ := forall_mem_cons.mp h
    rw [filter_cons]
    split
    · rename_i hspace
      exact .token ht (by simpa [hkind] using hspace) (ih hts h)
    · rename_i hspace
      exact .space ht (by simpa using hspace) (ih hts h)

theorem isQuiet_of_space (ht : Settled t) (h : t.kind = .space) :
    t.IsQuiet ∧ ∃ c, t.chars.head? = some c ∧ isWordChar c = false := by
  obtain ⟨c, cs, hcs, hblank⟩ := Kind.exists_cons_of_space (ht.kind_eq.symm.trans h)
  have hhead : t.chars.head? = some c := by
    rw [Token.chars, hcs]
    rfl
  have hc : isWordChar c = false ∧ c ∉ [';', ',', '\x7b', '='] := by
    simp only [isBlank, Bool.or_eq_true, beq_iff_eq] at hblank
    rcases hblank with ((rfl | rfl) | rfl) | rfl <;> decide
  exact ⟨⟨by rw [h]; decide, by simp [h], Token.startsWith_eq_false hhead hc.2,
    t.value_not_mem hhead hc.1 (by decide)⟩, c, hhead, hc.1⟩

theorem Spaced.space_or_mem (h : Spaced ts l) (ht : t ∈ ts) :
    Settled t ∧ (t.kind = .space ∨ t ∈ l) := by
  induction h with
  | nil => cases ht
  | space hsettled hkind _ ih =>
    rcases mem_cons.mp ht with rfl | ht
    · exact ⟨hsettled, .inl hkind⟩
    · exact ih ht
  | token hsettled _ _ ih =>
    rcases mem_cons.mp ht with rfl | ht
    · exact ⟨hsettled, .inr mem_cons_self⟩
    · exact ⟨(ih ht).1, (ih ht).2.imp_right (mem_cons_of_mem _)⟩

theorem Spaced.exists_mid {l' : List Token} (h : Spaced ts (l ++ t :: l')) :
    ∃ front rest, ts = front ++ t :: rest ∧ Spaced front l ∧ Spaced rest l' := by
  generalize hl : l ++ t :: l' = k at h
  induction h generalizing l with
  | nil => simp at hl
  | space ht hkind _ ih =>
    obtain ⟨front, rest, rfl, hfront, hrest⟩ := ih hl
    exact ⟨_ :: front, rest, rfl, .space ht hkind hfront, hrest⟩
  | token ht hkind h ih =>
    cases l with
    | nil =>
      obtain ⟨rfl, rfl⟩ := cons.inj hl
      exact ⟨[], _, rfl, .nil, h⟩
    | cons u l =>
      obtain ⟨rfl, rfl⟩ := cons.inj hl
      obtain ⟨front, rest, rfl, hfront, hrest⟩ := ih rfl
      exact ⟨_ :: front, rest, rfl, .token ht hkind hfront, hrest⟩

end Statement

end CBoundary

namespace CBoundary.Statement

open List Pending

variable {t body mark : Token} {ts l l' us front rest behind : List Token} {p : Pending}
  {text : String}

/-! ## What is being collected -/

namespace Pending

/-- The next separator completes what is being collected. -/
structure Open (p : Pending) : Prop where
  complete : p.complete = false
  curly : p.curly = false
  ending : if p.isRecord then p.ending = .semicolon else p.ending = .any ∧ p.isExpr = false

/-- Only a semicolon completes what is being collected. -/
def Held (p : Pending) : Prop := p.ending = .semicolon ∧ (p.isRecord = true → p.curly = true)

theorem Open.join (h : p.Open) (ht : t.IsQuiet) (behind : List Token) : (p.join t behind).Open ∧
      (p.join t behind).isRecord = (p.isRecord || t.announcesRecord) := by
  have hending := h.ending
  have hvalue := ht.value
  have hstar : (t.kind == .operator && t.value != "*") = false := by simpa using ht.star
  simp only [mem_cons, not_mem_nil, not_or, or_false] at hvalue
  rw [Pending.join, if_neg (by simp [closes, ht.starts])]
  split at hending
  · rename_i hrecord
    refine ⟨⟨h.complete, h.curly, ?_⟩, ?_⟩ <;> simp [observe, hending, hrecord]
  · rename_i hrecord
    cases hannounces : t.announcesRecord <;> refine ⟨⟨h.complete, h.curly, ?_⟩, ?_⟩ <;>
      simp [observe, hending, hrecord, hstar, hvalue, hannounces]

theorem Open.joinAll (h : p.Open) (hts : ∀ t ∈ ts, t.IsQuiet) (behind : List Token) :
    (p.joinAll ts behind).Open ∧
      (p.joinAll ts behind).isRecord = (p.isRecord || ts.any Token.announcesRecord) := by
  induction ts generalizing p with
  | nil => exact ⟨h, (Bool.or_false _).symm⟩
  | cons t ts ih =>
    obtain ⟨ht, hts⟩ := forall_mem_cons.mp hts
    obtain ⟨hopen, hrecord⟩ := h.join ht (ts ++ behind)
    rw [any_cons, ← Bool.or_assoc, ← hrecord]
    exact ih hopen hts

theorem Open.join_separator (h : p.Open) (ht : t.Spells .separator text) (htext : text ∈ [",", ";"])
    (behind : List Token) : (p.join t behind).complete = true := by
  have hstarts (c : Char) : t.startsWith c = (text.toList.head? == some c) := by
    rw [Token.startsWith, Token.chars, ht.value]
  have hending := h.ending
  simp only [mem_cons, not_mem_nil, or_false] at htext
  rw [Pending.join, if_pos (by rcases htext with rfl | rfl <;> simp [closes, hstarts])]
  split at hending <;> rename_i hrecord <;> rcases htext with rfl | rfl <;>
    simp_all [close, observe, h.curly, ht.value, ht.kind, Token.announcesRecord, Keyword.records]

theorem Open.join_body (h : p.Open) (hrecord : p.isRecord = true) (ht : t.Opens .brace '\x7b')
    (behind : List Token) : (p.join t behind).Held ∧ (p.join t behind).complete = false := by
  have hstarts := Token.startsWith_eq ht.head
  have hending := h.ending
  rw [if_pos hrecord] at hending
  rw [Pending.join, if_pos (by simp [closes, hstarts])]
  simp [Held, close, observe, hending, h.complete, hstarts]

/-- Only a semicolon completes what is held. -/
theorem Held.join (h : p.Held) (t : Token) (behind : List Token) :
    (p.join t behind).Held ∧ (t.startsWith ';' = false → (p.join t behind).complete = p.complete) ∧
      (t.value = ";" → (p.join t behind).complete = true) := by
  obtain ⟨hending, hcurly⟩ := h
  have hkept : (p.observe t).Held := by simpa [Held, observe, hending] using hcurly
  have hclosed : ((p.observe t).isRecord && !(p.observe t).curly) = false := by simpa using hkept.2
  unfold Pending.join close
  simp only [hkept.1, Bool.and_assoc, hclosed, Bool.and_false, Bool.false_eq_true, if_false]
  refine ⟨?_, ?_, ?_⟩
  · repeat' split
    all_goals simp_all [Held]
  · intro ht
    repeat' split
    all_goals simp_all
    all_goals rfl
  · intro ht
    have hstarts (c : Char) : t.startsWith c = (';' == c) := by
      simp [Token.startsWith, Token.chars, ht]
    simp [closes, hstarts]

end Pending

theorem Pending.joinAll_tokens (p : Pending) (ts behind : List Token) :
    (p.joinAll ts behind).tokens = ts.reverse ++ p.tokens := by
  induction ts generalizing p with
  | nil => rfl
  | cons t ts ih => simp [joinAll, ih]

theorem joinAll_induction {I : Pending → Prop}
    (h : ∀ p, ∀ t ∈ ts, ∀ behind, I p → I (p.join t behind)) (hp : I p) (behind : List Token) :
    I (p.joinAll ts behind) := by
  induction ts generalizing p with
  | nil => exact hp
  | cons t ts ih =>
    exact ih (fun p u hu => h p u (mem_cons_of_mem t hu)) (h p t mem_cons_self _ hp)

/-! ## What completes a declaration -/

theorem Spaced.isQuiet (h : Spaced ts l) (hl : ∀ t ∈ l, t.IsQuiet) : ∀ t ∈ ts, t.IsQuiet := by
  intro t ht
  obtain ⟨hsettled, hkind | hmem⟩ := h.space_or_mem ht
  · exact (isQuiet_of_space hsettled hkind).1
  · exact hl t hmem

theorem Pending.open_empty : Open {} := ⟨rfl, rfl, rfl, rfl⟩

theorem Spaced.completes (h : Spaced front l) (hl : ∀ t ∈ l, t.IsQuiet)
    (hmark : mark.Spells .separator text) (htext : text ∈ [",", ";"]) (behind : List Token) :
    Completes front mark behind := by
  have hopen := (open_empty.joinAll (h.isQuiet hl) (mark :: behind)).1
  refine ⟨hopen.complete, ?_⟩
  rw [joinAll_concat]
  exact hopen.join_separator hmark htext behind

theorem Spaced.completes_record (h : Spaced front (l ++ body :: rest)) (hl : ∀ t ∈ l, t.IsQuiet)
    (hrecord : l.any Token.announcesRecord = true) (hbody : body.Opens .brace '\x7b')
    (hrest : ∀ t ∈ rest, t.startsWith ';' = false) (hmark : mark.value = ";")
    (behind : List Token) : Completes front mark behind := by
  obtain ⟨lead, rear, rfl, hlead, hrear⟩ := h.exists_mid
  have hrear' : ∀ t ∈ rear, t.startsWith ';' = false := fun t ht => by
    obtain ⟨hsettled, hkind | hmem⟩ := hrear.space_or_mem ht
    · exact (isQuiet_of_space hsettled hkind).1.starts _ (by simp)
    · exact hrest t hmem
  have hany : lead.any Token.announcesRecord = true := by
    obtain ⟨t, ht, hannounces⟩ := any_eq_true.mp hrecord
    obtain ⟨l, l', rfl⟩ := append_of_mem ht
    obtain ⟨front, rest, rfl, -⟩ := hlead.exists_mid
    exact any_eq_true.mpr ⟨t, by simp, hannounces⟩
  obtain ⟨hopen, hrecord⟩ :=
    open_empty.joinAll (hlead.isQuiet hl) (body :: (rear ++ mark :: behind))
  obtain ⟨hheld, hopen⟩ : (joinAll {} (lead ++ body :: rear) (mark :: behind)).Held ∧
      (joinAll {} (lead ++ body :: rear) (mark :: behind)).complete = false := by
    rw [joinAll_append]
    have hbehind := hopen.join_body (hrecord.trans hany) hbody (rear ++ mark :: behind)
    refine joinAll_induction (I := fun p => p.Held ∧ p.complete = false)
      (fun p t ht behind hp => ?_) hbehind (mark :: behind)
    exact ⟨(hp.1.join t behind).1, ((hp.1.join t behind).2.1 (hrear' t ht)).trans hp.2⟩
  refine ⟨hopen, ?_⟩
  rw [joinAll_concat]
  exact (hheld.join mark behind).2.2 hmark

/-! ## The statements that come of it -/

theorem Spaced.append (h : Spaced ts l) (h' : Spaced us l') : Spaced (ts ++ us) (l ++ l') := by
  induction h with
  | nil => exact h'
  | space ht hkind _ ih => exact .space ht hkind ih
  | token ht hkind _ ih => exact .token ht hkind ih

theorem group_cons_of_open (hp : p.complete = false) (ht : Settled t)
    (hkind : t.kind ∉ [.invalid, .comment, .directive]) (rest : List Token) :
    group p (t :: rest) = group (p.join t rest) rest := by
  simp only [mem_cons, not_mem_nil, or_false, not_or] at hkind
  rw [group_cons_of_valid p ht.settled_eq hkind.1]
  simp [released, cleared, startsAnew, endsWith, hp, hkind]

theorem Spaced.group_eq (h : Spaced front l) (hopen : (p.joinAll front behind).complete = false) :
    group p (front ++ behind) = group (p.joinAll front behind) behind := by
  have hbefore {u : Token} {front : List Token} {p : Pending}
      (hopen : (p.joinAll (u :: front) behind).complete = false) : p.complete = false :=
    Bool.eq_false_iff.mpr fun hp =>
      absurd (joinAll_complete hp (u :: front) behind) (by simp [hopen])
  induction h generalizing p with
  | nil => rfl
  | space ht hkind _ ih =>
    exact (group_cons_of_open (hbefore hopen) ht (by simp [hkind]) _).trans (ih hopen)
  | token ht hkind _ ih =>
    exact (group_cons_of_open (hbefore hopen) ht (by simp_all) _).trans (ih hopen)

theorem Spaced.exists_group_of_complete (h : Spaced ts l) (hp : p.complete = true)
    (hne : p.tokens ≠ []) :
    ∃ us behind, group p ts = ⟨p.tokens.reverse ++ us, none⟩ :: group {} behind ∧
      Spaced us [] ∧ Spaced behind l := by
  induction h generalizing p with
  | nil => exact ⟨[], [], by simp [group, flush, hne], .nil, .nil⟩
  | @space u ts l hu hkind h ih =>
    rw [group_cons_of_valid p hu.settled_eq (by simp [hkind])]
    by_cases hbreak : u.value = "\n"
    · exact ⟨[u], ts, by simp [released, cleared, startsAnew,
        endsWith, hp, hkind, hbreak], .space hu hkind .nil, h⟩
    · obtain ⟨us, behind, hgroup, hus, hbehind⟩ := ih (p.join_complete hp u ts) (by simp)
      refine ⟨u :: us, behind, ?_, .space hu hkind hus, hbehind⟩
      simp [released, cleared, startsAnew, endsWith, hkind, hbreak,
        hgroup]
  | @token u ts l hu hkind h =>
    refine ⟨[], u :: ts, ?_, .nil, .token hu hkind h⟩
    simp only [mem_cons, not_mem_nil, or_false, not_or] at hkind
    rw [group_cons_of_valid p hu.settled_eq hkind.2.1, group_cons_of_valid {} hu.settled_eq hkind.2.1]
    simp [released, cleared, startsAnew, endsWith, hp, hkind,
      flush, hne]

/-- What a token completes is a statement, with white space between its tokens and behind them. -/
theorem Spaced.exists_group (h : Spaced ts (l ++ mark :: rest))
    (hl : ∀ front behind, Spaced front l → Completes front mark behind) :
    ∃ st behind, group {} ts = st :: group {} behind ∧ st.kind? = none ∧
      Spaced st.tokens (l ++ [mark]) ∧ Spaced behind rest := by
  obtain ⟨front, rear, rfl, hfront, hrear⟩ := h.exists_mid
  obtain ⟨hopen, hcomplete⟩ := hl front rear hfront
  have hsettled : Settled mark := (h.space_or_mem (by simp)).1
  have hcloses : closes mark = true := by
    rw [joinAll_concat] at hcomplete
    exact (complete_of_join hcomplete).resolve_left (by simp [hopen])
  have hkind := kind_ne_of_closes hsettled hcloses
  simp only [mem_cons, not_mem_nil, or_false, not_or] at hkind
  obtain ⟨us, behind, hgroup, hus, hbehind⟩ := hrear.exists_group_of_complete hcomplete
    (by simp [joinAll_tokens])
  rw [joinAll_tokens, append_nil, reverse_reverse, joinAll_concat] at hgroup
  refine ⟨⟨front ++ [mark] ++ us, none⟩, behind, ?_, rfl, ?_, hbehind⟩
  · rw [hfront.group_eq hopen, group_cons_of_open hopen hsettled (by simp [hkind]), hgroup]
  · rw [append_assoc]
    exact hfront.append (.token hsettled (by simp [hkind]) hus)

end CBoundary.Statement
