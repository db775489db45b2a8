import CBoundary.Statement.Basic
import Mathlib.Data.List.Chain

/-!
# Statements partition the tokens

What a single token does is said once: it stands alone, or it ends the statement being collected, or
it joins it.  So no token is lost, doubled or moved, and the list is cut only at a token that can
end a statement, at an invalid token, or at a comment where so far there was no code.
-/

namespace CBoundary.Statement

open List Pending

variable {p q p' : Pending} {t : Token} {front done : List Statement} {ts : List Token}
  {st a b : Statement}

/-! ## One token -/

/-- Can the token end a statement? -/
def closes (t : Token) : Bool := t.startsWith ';' || t.startsWith ',' || t.startsWith '\x7b'

/-- What was collected is completed, or it is kept for the token to come. -/
inductive Cleared (p : Pending) (t : Token) : List Statement → Pending → Prop where
  | completed (hanew : p.startsAnew t = true) : Cleared p t p.flush {}
  | kept : Cleared p t [] p

/-- What a token does: the statements completed, and what is then collected. -/
inductive Taken (p : Pending) (t : Token) : List Statement → Pending → Prop where
  | alone (hkind : t.kind = .invalid) : Taken p t (p.flush ++ [⟨[t], none⟩]) {}
  | ends {front : List Statement} {q : Pending} (hkind : t.kind ≠ .invalid)
      (hcleared : Cleared p t front q) (hend : q.complete = true ∨ t.kind = .directive) :
      Taken p t (front ++ [⟨q.tokens.reverse ++ [t], none⟩]) {}
  | joins {front : List Statement} {q q' : Pending} (hkind : t.kind ≠ .invalid)
      (hdirective : t.kind ≠ .directive) (hcleared : Cleared p t front q)
      (htokens : q'.tokens = t :: q.tokens)
      (hcomplete : q'.complete = true → q.complete = true ∨ closes t = true)
      (hcomment : q'.commentOnly = (q.observe t).commentOnly) : Taken p t front q'

/-- A token joins what is collected. -/
def Pending.join (p : Pending) (t : Token) (behind : List Token) : Pending :=
  let q := { p.observe t with tokens := t :: p.tokens }
  if closes t then q.close t behind else q

theorem Pending.complete_of_join {rest : List Token} (h : (p.join t rest).complete = true) :
    p.complete = true ∨ closes t = true := by
  unfold join at h
  split at h
  · rename_i hcloses
    exact .inr hcloses
  · exact .inl h

section

variable (p : Pending) (t : Token) (rest : List Token)

@[simp] theorem Pending.join_tokens : (p.join t rest).tokens = t :: p.tokens := by
  unfold join close
  split
  · simp only [apply_ite tokens, ite_self]
  · rfl

theorem Pending.join_commentOnly :
    (p.join t rest).commentOnly = (p.observe t).commentOnly := by
  unfold join close
  split
  · simp only [apply_ite commentOnly, ite_self]
  · rfl

/-- What is collected when a token comes, once what it does not belong to is out of the
way. -/
def Pending.cleared (p : Pending) (t : Token) : Pending := if p.startsAnew t then {} else p

/-- The statement that the token is not part of. -/
def Pending.released (p : Pending) (t : Token) : List Statement :=
  if p.startsAnew t then p.flush else []

/-- Does the token end what is collected? -/
def Pending.endsWith (p : Pending) (t : Token) : Bool :=
  (p.complete && t.value == "\n") || t.kind == .directive

variable {t rest} in
theorem group_cons_of_invalid (ht : t.settled = t) (hkind : t.kind = .invalid) :
    group p (t :: rest) = p.flush ++ ⟨[t], none⟩ :: group {} rest := by
  rw [group]
  simp only [ht]
  rw [if_pos (beq_iff_eq.mpr hkind)]

variable {t rest} in
theorem group_cons_of_valid (ht : t.settled = t) (hkind : t.kind ≠ .invalid) :
    group p (t :: rest) = p.released t ++ if (p.cleared t).endsWith t then
        ⟨(p.cleared t).tokens.reverse ++ [t], none⟩ :: group {} rest
      else group ((p.cleared t).join t rest) rest := by
  have hpair : (if p.startsAnew t = true then (p.flush, ({} : Pending)) else ([], p)) =
      (p.released t, p.cleared t) := by
    unfold released cleared
    split <;> rfl
  rw [group]
  simp only [ht, hpair]
  rw [if_neg (mt beq_iff_eq.mp hkind)]
  generalize p.cleared t = q
  change (if q.endsWith t = true then _ else _) = _
  by_cases hend : q.endsWith t = true
  · rw [if_pos hend, if_pos hend]
    simp [flush, observe]
  · rw [if_neg hend, if_neg hend, join, closes]
    split <;> rfl

/-- What one token does. -/
theorem group_cons :
    ∃ done p', group p (t :: rest) = done ++ group p' rest ∧ Taken p t.settled done p' := by
  rw [show group p (t :: rest) = group p (t.settled :: rest) from rfl]
  by_cases hkind : t.settled.kind = .invalid
  · refine ⟨_, {}, ?_, .alone hkind⟩
    rw [group_cons_of_invalid p rfl hkind, append_assoc, singleton_append]
  · have hcleared : Cleared p t.settled (p.released t.settled) (p.cleared t.settled) := by
      unfold released cleared
      split
      · rename_i hanew
        exact .completed hanew
      · exact .kept
    rw [group_cons_of_valid p rfl hkind]
    split
    · rename_i hend
      refine ⟨_, {}, (append_cons ..), .ends hkind hcleared ?_⟩
      rcases Bool.or_eq_true_iff.mp hend with hend | hend
      · exact .inl (Bool.and_eq_true_iff.mp hend).1
      · exact .inr (beq_iff_eq.mp hend)
    · rename_i hend
      refine ⟨_, _, rfl, .joins hkind (fun h => hend ?_) hcleared (join_tokens ..)
        complete_of_join (join_commentOnly ..)⟩
      exact Bool.or_eq_true_iff.mpr (.inr (beq_iff_eq.mpr h))

/-! ## No token is lost -/

theorem Pending.flatMap_flush : p.flush.flatMap Statement.tokens = p.tokens.reverse := by
  unfold flush
  split
  · rename_i hempty
    rw [isEmpty_iff.mp hempty]
    rfl
  · rw [flatMap_singleton]

end

theorem Cleared.tokens_eq (h : Cleared p t front q) :
    front.flatMap tokens ++ q.tokens.reverse = p.tokens.reverse := by
  cases h with
  | completed _ => rw [flatMap_flush, reverse_nil, append_nil]
  | kept => rfl

theorem Taken.tokens_eq (h : Taken p t done p') :
    done.flatMap tokens ++ p'.tokens.reverse = p.tokens.reverse ++ [t] := by
  cases h with
  | alone _ => simp [flatMap_flush]
  | ends _ hcleared _ => simp [← hcleared.tokens_eq]
  | joins _ _ hcleared htokens _ _ => simp [htokens, ← hcleared.tokens_eq]

theorem flatMap_group (p : Pending) (ts : List Token) :
    (group p ts).flatMap tokens = p.tokens.reverse ++ ts.map Token.settled := by
  induction ts generalizing p with
  | nil => rw [group, flatMap_flush, map_nil, append_nil]
  | cons t rest ih =>
    obtain ⟨done, p', hgroup, htaken⟩ := group_cons p t rest
    calc (group p (t :: rest)).flatMap tokens
        = done.flatMap tokens ++ p'.tokens.reverse ++ rest.map Token.settled := by
          rw [hgroup, flatMap_append, ih, append_assoc]
      _ = p.tokens.reverse ++ (t :: rest).map Token.settled := by
          rw [htaken.tokens_eq, append_assoc, singleton_append, map_cons]

theorem forall_mem_group {P : Token → Prop} (hp : ∀ t ∈ p.tokens, P t)
    (hts : ∀ t ∈ ts, P t.settled) : ∀ st ∈ group p ts, ∀ t ∈ st.tokens, P t := by
  intro st hst t ht
  have hmem : t ∈ (group p ts).flatMap tokens := mem_flatMap.mpr ⟨st, hst, ht⟩
  rw [flatMap_group] at hmem
  rcases mem_append.mp hmem with hmem | hmem
  · exact hp t (mem_reverse.mp hmem)
  · obtain ⟨u, hu, rfl⟩ := mem_map.mp hmem
    exact hts u hu

theorem Pending.kind?_of_mem_flush (h : st ∈ p.flush) : st.kind? = none := by
  unfold flush at h
  split at h
  · cases h
  · rw [mem_singleton.mp h]

theorem Cleared.kind?_of_mem (h : Cleared p t front q) : ∀ st ∈ front, st.kind? = none := by
  cases h with
  | completed => exact fun _ => kind?_of_mem_flush
  | kept => exact forall_mem_nil _

theorem kind?_of_mem_group (p : Pending) (ts : List Token) :
    ∀ st ∈ group p ts, st.kind? = none := by
  induction ts generalizing p with
  | nil => exact fun _ => kind?_of_mem_flush
  | cons t rest ih =>
    obtain ⟨done, p', hgroup, htaken⟩ := group_cons p t rest
    rw [hgroup]
    refine forall_mem_append.mpr ⟨?_, ih p'⟩
    cases htaken with
    | alone =>
      exact forall_mem_append.mpr
        ⟨fun _ => kind?_of_mem_flush, forall_mem_singleton.mpr rfl⟩
    | ends _ hcleared =>
      exact forall_mem_append.mpr ⟨hcleared.kind?_of_mem, forall_mem_singleton.mpr rfl⟩
    | joins _ _ hcleared => exact hcleared.kind?_of_mem

/-! ## What is being collected -/

/-- White space or a comment. -/
def Blank (t : Token) : Prop := t.kind = .space ∨ t.kind = .comment

/-- No collected token forbids another one after it, one can end a complete statement, and code is
on record. -/
structure Pending.Sound (p : Pending) : Prop where
  inner : ∀ u ∈ p.tokens, u.kind ≠ .directive ∧ u.kind ≠ .invalid
  complete : p.complete = true → ∃ u ∈ p.tokens, closes u = true
  blank : p.commentOnly ≠ some false → ∀ u ∈ p.tokens, Blank u

theorem Pending.sound_empty : Pending.Sound {} where
  inner := forall_mem_nil _
  complete := fun h => absurd h Bool.false_ne_true
  blank := fun _ => forall_mem_nil _

theorem Pending.observe_commentOnly (h : (p.observe t).commentOnly ≠ some false) :
    p.commentOnly ≠ some false ∧ Blank t := by
  unfold observe at h
  split at h
  · rename_i hfirst
    obtain ⟨hnone, hkind⟩ := Bool.and_eq_true_iff.mp hfirst
    rw [beq_iff_eq.mp hnone]
    exact ⟨(Option.some_ne_none false).symm, .inr (beq_iff_eq.mp hkind)⟩
  · split at h
    · exact absurd rfl h
    · rename_i hcode
      refine ⟨h, Classical.byContradiction fun hblank => hcode ?_⟩
      obtain ⟨hspace, hcomment⟩ := not_or.mp hblank
      simp [h, hspace, hcomment]

theorem Cleared.sound (h : Cleared p t front q) (hp : p.Sound) : q.Sound := by
  cases h with
  | completed _ => exact sound_empty
  | kept => exact hp

/-- A token leaves what is collected sound. -/
theorem Taken.sound (h : Taken p t done p') (hp : p.Sound) : p'.Sound := by
  cases h with
  | alone _ => exact sound_empty
  | ends _ _ _ => exact sound_empty
  | @joins _ q _ hkind hdirective hcleared htokens hcomplete hcomment =>
    have hq : q.Sound := hcleared.sound hp
    refine ⟨?_, ?_, ?_⟩ <;> rw [htokens]
    · exact forall_mem_cons.mpr ⟨⟨hdirective, hkind⟩, hq.inner⟩
    · intro h
      rcases hcomplete h with h | h
      · obtain ⟨u, hu, hcloses⟩ := hq.complete h
        exact ⟨u, mem_cons_of_mem t hu, hcloses⟩
      · exact ⟨t, mem_cons_self, h⟩
    · rw [hcomment]
      intro h
      obtain ⟨hq', ht⟩ := observe_commentOnly h
      exact forall_mem_cons.mpr ⟨ht, hq.blank hq'⟩

/-! ## What a statement looks like -/

/-- A statement is not empty, a directive is its last token, and an invalid token its
only one. -/
structure Sealed (st : Statement) : Prop where
  nonempty : st.tokens ≠ []
  directive_last : ∀ front t rear, st.tokens = front ++ t :: rear → t.kind = .directive → rear = []
  invalid_alone : ∀ t ∈ st.tokens, t.kind = .invalid → st.tokens = [t]

theorem sealed_singleton (t : Token) : Sealed ⟨[t], none⟩ where
  nonempty := cons_ne_nil t []
  directive_last := by
    intro front u rear hsplit _
    have hlen := congrArg List.length hsplit
    simp only [length_append, length_cons, length_nil] at hlen
    exact eq_nil_of_length_eq_zero (by omega)
  invalid_alone := by
    intro u hu _
    rw [mem_singleton.mp hu]

theorem sealed_concat {held : List Token}
    (hheld : ∀ u ∈ held, u.kind ≠ .directive ∧ u.kind ≠ .invalid) (ht : t.kind ≠ .invalid) :
    Sealed ⟨held.reverse ++ [t], none⟩ where
  nonempty := append_ne_nil_of_right_ne_nil _ (cons_ne_nil t [])
  directive_last := by
    intro front u rear hsplit hkind
    rcases eq_nil_or_concat rear with rfl | ⟨rear', last, rfl⟩
    · rfl
    · -- the directive would stand among the tokens before the last one
      have hassoc : held.reverse ++ [t] = (front ++ u :: rear') ++ [last] := by
        rw [append_assoc, cons_append]
        exact hsplit.trans (by rw [concat_eq_append])
      have hu : u ∈ held.reverse := by
        rw [(append_inj' hassoc rfl).1]
        exact mem_append_right front mem_cons_self
      exact absurd hkind (hheld u (mem_reverse.mp hu)).1
  invalid_alone := by
    intro u hu hkind
    rcases mem_append.mp hu with hu | hu
    · exact absurd hkind (hheld u (mem_reverse.mp hu)).2
    · rw [mem_singleton.mp hu] at hkind
      exact absurd hkind ht

theorem Pending.mem_flush (h : st ∈ p.flush) : p.tokens ≠ [] ∧ st = ⟨p.tokens.reverse, none⟩ := by
  unfold flush at h
  split at h
  · cases h
  · rename_i hempty
    exact ⟨fun hnil => hempty (isEmpty_iff.mpr hnil), mem_singleton.mp h⟩

theorem Pending.Sound.sealed_flush (hp : p.Sound) : ∀ st ∈ p.flush, Sealed st := by
  intro st hst
  obtain ⟨hne, rfl⟩ := mem_flush hst
  obtain ⟨t, held, htokens⟩ := exists_cons_of_ne_nil hne
  have hinner := hp.inner
  rw [htokens] at hinner ⊢
  obtain ⟨ht, hheld⟩ := forall_mem_cons.mp hinner
  rw [reverse_cons]
  exact sealed_concat hheld ht.2

theorem Cleared.sealed (h : Cleared p t front q) (hp : p.Sound) : ∀ st ∈ front, Sealed st := by
  cases h with
  | completed _ => exact hp.sealed_flush
  | kept => exact forall_mem_nil _

theorem Taken.sealed (h : Taken p t done p') (hp : p.Sound) : ∀ st ∈ done, Sealed st := by
  cases h with
  | alone _ =>
    refine forall_mem_append.mpr ⟨hp.sealed_flush, ?_⟩
    exact forall_mem_singleton.mpr (sealed_singleton t)
  | ends hkind hcleared _ =>
    refine forall_mem_append.mpr ⟨hcleared.sealed hp, ?_⟩
    exact forall_mem_singleton.mpr (sealed_concat (hcleared.sound hp).inner hkind)
  | joins _ _ hcleared _ _ _ => exact hcleared.sealed hp

theorem sealed_group (hp : p.Sound) (ts : List Token) : ∀ st ∈ group p ts, Sealed st := by
  induction ts generalizing p with
  | nil => exact hp.sealed_flush
  | cons t rest ih =>
    obtain ⟨done, p', hgroup, htaken⟩ := group_cons p t rest
    rw [hgroup]
    exact forall_mem_append.mpr ⟨htaken.sealed hp, ih (htaken.sound hp)⟩

/-! ## Where statements meet -/

/-- The token can end a statement, whatever comes after it. -/
def Ends (t : Token) : Prop := t.kind = .invalid ∨ t.kind = .directive ∨ closes t = true

/-- The first statement has a token that can end it, or the second starts with an invalid token, or
with a comment and there is no code in the first. -/
def Parted (a b : Statement) : Prop :=
  (∃ t ∈ a.tokens, Ends t) ∨ ∃ u, b.tokens.head? = some u ∧
      (u.kind = .invalid ∨ u.kind = .comment ∧ ∀ t ∈ a.tokens, Blank t)

theorem Pending.isChain_flush (p : Pending) : p.flush.IsChain Parted := by
  unfold flush
  split
  · exact .nil
  · exact .singleton _

theorem Pending.Sound.parted (hp : p.Sound) (hanew : p.startsAnew t = true) (ha : a ∈ p.flush)
    (hb : b.tokens.head? = some t) : Parted a b := by
  obtain ⟨-, rfl⟩ := mem_flush ha
  rcases Bool.or_eq_true_iff.mp hanew with h | h
  · simp only [Bool.and_eq_true] at h
    obtain ⟨u, hu, hcloses⟩ := hp.complete h.1.1
    exact .inl ⟨u, mem_reverse.mpr hu, .inr (.inr hcloses)⟩
  · obtain ⟨hcomment, hkind⟩ := Bool.and_eq_true_iff.mp h
    have hblank := hp.blank (by rw [beq_iff_eq.mp hcomment]; decide)
    refine .inr ⟨t, hb, .inr ⟨beq_iff_eq.mp hkind, ?_⟩⟩
    intro u hu
    exact hblank u (mem_reverse.mp hu)

theorem Cleared.isChain (h : Cleared p t front q) : front.IsChain Parted := by
  cases h with
  | completed _ => exact p.isChain_flush
  | kept => exact .nil

theorem Cleared.parted (h : Cleared p t front q) (hp : p.Sound) (ha : a ∈ front.getLast?)
    (hb : b.tokens.head? = (q.tokens.reverse ++ [t]).head?) : Parted a b := by
  cases h with
  | completed hanew => exact hp.parted hanew (mem_of_getLast? ha) hb
  | kept => cases ha

theorem Taken.isChain (h : Taken p t done p') (hp : p.Sound) : done.IsChain Parted := by
  cases h with
  | alone hkind =>
    refine p.isChain_flush.append (.singleton _) ?_
    rintro a - b hb
    obtain rfl := Option.some.inj hb
    exact .inr ⟨t, rfl, .inl hkind⟩
  | ends _ hcleared _ =>
    refine hcleared.isChain.append (.singleton _) ?_
    intro a ha b hb
    obtain rfl := Option.some.inj hb
    exact hcleared.parted hp ha rfl
  | joins _ _ hcleared _ _ _ => exact hcleared.isChain

theorem Taken.parted (h : Taken p t done p') (hp : p.Sound) (ha : a ∈ done.getLast?)
    (hb : p'.tokens ≠ [] → b.tokens.head? = p'.tokens.reverse.head?) : Parted a b := by
  cases h with
  | alone hkind =>
    rw [getLast?_concat] at ha
    obtain rfl := Option.some.inj ha
    exact .inl ⟨t, mem_cons_self, .inl hkind⟩
  | @ends _ q _ hcleared hend =>
    rw [getLast?_concat] at ha
    obtain rfl := Option.some.inj ha
    rcases hend with hcomplete | hdirective
    · obtain ⟨u, hu, hcloses⟩ := (hcleared.sound hp).complete hcomplete
      exact .inl ⟨u, mem_append_left _ (mem_reverse.mpr hu), .inr (.inr hcloses)⟩
    · exact .inl ⟨t, mem_append_right _ mem_cons_self, .inr (.inl hdirective)⟩
  | joins _ _ hcleared htokens _ _ =>
    rw [htokens, reverse_cons] at hb
    exact hcleared.parted hp ha (hb (cons_ne_nil _ _))

theorem head?_of_mem_head?_group (hp : p.Sound) (hb : b ∈ (group p ts).head?)
    (hne : p.tokens ≠ []) : b.tokens.head? = p.tokens.reverse.head? := by
  obtain ⟨rest, hgroup⟩ := head?_eq_some_iff.mp hb
  have hbne : b.tokens ≠ [] := (sealed_group hp ts b (hgroup ▸ mem_cons_self)).nonempty
  have htokens : b.tokens ++ rest.flatMap tokens = p.tokens.reverse ++ ts.map Token.settled := by
    rw [← flatMap_group, hgroup, flatMap_cons]
  rw [← head?_append_of_ne_nil _ hbne, htokens,
    head?_append_of_ne_nil _ (by rwa [Ne, reverse_eq_nil_iff])]

theorem isChain_group (hp : p.Sound) (ts : List Token) : (group p ts).IsChain Parted := by
  induction ts generalizing p with
  | nil => exact p.isChain_flush
  | cons t rest ih =>
    obtain ⟨done, p', hgroup, htaken⟩ := group_cons p t rest
    have hp' : p'.Sound := htaken.sound hp
    rw [hgroup]
    refine (htaken.isChain hp).append (ih hp') ?_
    intro a ha b hb
    exact htaken.parted hp ha (head?_of_mem_head?_group hp' hb)

/-- The statements of a token list hold its tokens, each once and in order, with their kinds
settled. None is empty, a directive ends its statement, an invalid token is one of its own, and
where one follows another there is a reason for it. -/
theorem ofTokens_partition (ts : List Token) :
    (ofTokens ts).flatMap tokens = ts.map Token.settled ∧ (∀ st ∈ ofTokens ts, Sealed st) ∧
      (ofTokens ts).IsChain Parted := by
  refine ⟨?_, sealed_group sound_empty ts, isChain_group sound_empty ts⟩
  rw [ofTokens, flatMap_group, reverse_nil, nil_append]

end CBoundary.Statement
