import CBoundary.Proofs.Token.Layers

/-!
# What follows a complete statement

What goes with a complete statement is white space and comments, up to the first token that is a
line break.  A comment that ends with its line takes the line break along, so that the comment
on the next line goes with the statement as well.
-/

namespace CBoundary

open Text List Token

deriving instance DecidableEq for Statement

namespace Statement

open Pending

variable {t u : Token} {p : Pending} {behind front rear us ts rest : List Token} {st : Statement}
  {more : List Statement}

/-! ## Tokens whose kinds are settled -/

theorem elseFollows_map_settled (ts : List Token) :
    elseFollows (ts.map settled) = elseFollows ts := by
  rw [elseFollows, find?_map, Option.any_map]
  rfl

theorem Pending.close_map_settled (p : Pending) (t : Token) (rest : List Token) :
    p.close t (rest.map settled) = p.close t rest := by
  unfold close
  rw [elseFollows_map_settled]

theorem group_map_settled (p : Pending) (ts : List Token) :
    group p (ts.map settled) = group p ts := by
  induction ts generalizing p with
  | nil => rfl
  | cons t rest ih =>
    rw [map_cons, group, group]
    simp only [close_map_settled, ih]
    rfl

/-- The kind is settled as that of the text. -/
def Settled (t : Token) : Prop := t.kind? = some (Kind.ofText t.value)

theorem Settled.settled_eq (h : Settled t) : t.settled = t := by
  rw [settled, Token.kind, h, Option.getD_some, ← h]

theorem Settled.kind_eq (h : Settled t) : t.kind = Kind.ofText t.value := by
  rw [Token.kind, h]
  rfl

/-! ## What completes a statement -/

/-- All of the tokens join. -/
def Pending.joinAll (p : Pending) : List Token → List Token → Pending
  | [], _ => p
  | t :: ts, behind => (p.join t (ts ++ behind)).joinAll ts behind

/-- The token completes the statement that starts with the tokens in front of it. -/
def Completes (front : List Token) (t : Token) (behind : List Token) : Prop :=
  (joinAll {} front (t :: behind)).complete = false ∧
    (joinAll {} (front ++ [t]) behind).complete = true

instance (front : List Token) (t : Token) (behind : List Token) :
    Decidable (Completes front t behind) :=
  inferInstanceAs (Decidable (_ ∧ _))

theorem Pending.join_complete (h : p.complete = true) (t : Token) (behind : List Token) :
    (p.join t behind).complete = true := by
  unfold join close
  have hobserve : (p.observe t).complete = true := h
  split
  · simp only [apply_ite complete, hobserve, ite_self]
  · exact hobserve

theorem Pending.joinAll_append (p : Pending) (ts us behind : List Token) :
    p.joinAll (ts ++ us) behind = (p.joinAll ts (us ++ behind)).joinAll us behind := by
  induction ts generalizing p with
  | nil => rfl
  | cons t ts ih =>
    simp only [cons_append, joinAll, append_assoc]
    exact ih _

theorem Pending.joinAll_concat (p : Pending) (ts : List Token) (t : Token) (behind : List Token) :
    p.joinAll (ts ++ [t]) behind = (p.joinAll ts (t :: behind)).join t behind := by
  rw [joinAll_append]
  rfl

theorem Pending.joinAll_complete (h : p.complete = true) (ts behind : List Token) :
    (p.joinAll ts behind).complete = true := by
  induction ts generalizing p with
  | nil => exact h
  | cons t ts ih => exact ih (join_complete h t _)

theorem Completes.complete (h : Completes front t (rear ++ behind)) :
    (joinAll {} (front ++ t :: rear) behind).complete = true := by
  rw [append_cons, joinAll_append]
  exact joinAll_complete h.2 rear behind

/-! ## What follows the token that completes a statement -/

instance (t : Token) : Decidable (Blank t) :=
  inferInstanceAs (Decidable (t.kind = .space ∨ t.kind = .comment))

/-- The white space and comments at the front that go with a complete statement, up to a line break.
-/
def attached : List Token → List Token
  | [] => []
  | u :: us =>
    if Blank u then
      if u.value = "\n" then [u] else u :: attached us
    else []

theorem attached_append (h : ∀ u ∈ us, Blank u ∧ u.value ≠ "\n") (behind : List Token) :
    attached (us ++ behind) = us ++ attached behind := by
  induction us with
  | nil => rfl
  | cons u us ih =>
    obtain ⟨⟨hblank, hvalue⟩, hus⟩ := forall_mem_cons.mp h
    rw [cons_append, attached, if_pos hblank, if_neg hvalue, ih hus, cons_append]

theorem blank_of_attached_eq {mid post : List Token} {c : Token}
    (h : attached us = mid ++ c :: post) : ∀ u ∈ mid, Blank u ∧ u.value ≠ "\n" := by
  induction us generalizing mid with
  | nil => exact absurd h.symm (by simp [attached])
  | cons u us ih =>
    rw [attached] at h
    split at h
    · rename_i hblank
      cases mid with
      | nil => exact forall_mem_nil _
      | cons v mid =>
        split at h
        · exact absurd (List.cons.inj h).2.symm (by simp)
        · rename_i hvalue
          obtain ⟨rfl, hrest⟩ := List.cons.inj h
          exact forall_mem_cons.mpr ⟨⟨hblank, hvalue⟩, ih hrest⟩
    · exact absurd h.symm (by simp)

/-- What goes with a complete statement follows. -/
def TrailsOff (st : Statement) (behind : List Token) : Prop :=
  ∀ front t rear, st.tokens = front ++ t :: rear → Completes front t (rear ++ behind) →
    rear = attached (rear ++ behind)

/-- Only white space and comments without a line break have followed a token that completed the
statement. -/
structure Pending.Trails (p : Pending) (ts : List Token) : Prop where
  made : p = joinAll {} p.tokens.reverse ts
  code : p.complete = true → p.commentOnly = some false
  trailing : ∀ front t rear, p.tokens.reverse = front ++ t :: rear →
    Completes front t (rear ++ ts) → ∀ u ∈ rear, Blank u ∧ u.value ≠ "\n"

theorem Pending.trails_empty (ts : List Token) : Trails {} ts where
  made := rfl
  code := fun h => by cases h
  trailing := fun front t rear h => by cases front <;> cases h

theorem kind_ne_of_closes (ht : Settled t) (h : closes t = true) :
    t.kind ∉ [Kind.space, Kind.comment, Kind.invalid, Kind.directive] := by
  rw [ht.kind_eq, Kind.ofText]
  simp only [closes, startsWith, chars, Bool.or_eq_true, beq_iff_eq] at h
  cases hchars : t.value.toList with
  | nil => simp
  | cons c cs =>
    rw [hchars, head?_cons, Option.some.injEq, Option.some.injEq, Option.some.injEq] at h
    rcases h with (rfl | rfl) | rfl <;> simp [isBlank, isWordChar] <;> grind

theorem not_blank_of_closes (ht : Settled t) (h : closes t = true) : ¬ Blank t := by
  have hkind := kind_ne_of_closes ht h
  rintro (hspace | hcomment)
  · exact hkind (by simp [hspace])
  · exact hkind (by simp [hcomment])

theorem Pending.Trails.complete (hp : p.Trails ts) (hsplit : p.tokens.reverse = front ++ t :: rear)
    (h : Completes front t (rear ++ ts)) : p.complete = true := by
  rw [hp.made, hsplit]
  exact h.complete

theorem Pending.Trails.trailsOff (hp : p.Trails ts)
    (hts : p.complete = true → ∀ u ∈ ts.head?, ¬ Blank u) (hst : st ∈ p.flush) :
    TrailsOff st ts := by
  obtain ⟨-, rfl⟩ := mem_flush hst
  intro front t rear hsplit hcompletes
  rw [attached_append (hp.trailing front t rear hsplit hcompletes)]
  have hcomplete := hp.complete hsplit hcompletes
  cases ts with
  | nil => rw [attached, append_nil]
  | cons u us => rw [attached, if_neg (hts hcomplete u rfl), append_nil]

theorem Pending.Trails.not_blank_of_startsAnew (hp : p.Trails ts) (hanew : p.startsAnew u = true)
    (hcomplete : p.complete = true) : ¬ Blank u := by
  rintro (hkind | hkind) <;>
    simp [startsAnew, hp.code hcomplete, hkind] at hanew

theorem Pending.Trails.cleared (hp : p.Trails ts) : (p.cleared t).Trails ts := by
  unfold Pending.cleared
  split
  · exact trails_empty ts
  · exact hp

theorem Pending.observe_commentOnly_of_not_blank (p : Pending) (h : ¬ Blank t) :
    (p.observe t).commentOnly = some false := by
  obtain ⟨hspace, hcomment⟩ := not_or.mp h
  simp [observe, hspace, hcomment]

theorem Pending.Trails.join (hp : p.Trails (t :: rest)) (ht : Settled t)
    (hkept : p.complete = true → Blank t ∧ t.value ≠ "\n") : (p.join t rest).Trails rest where
  made := by
    rw [join_tokens, reverse_cons, joinAll_concat, ← hp.made]
  code := by
    intro h
    rw [join_commentOnly]
    rcases complete_of_join h with hcomplete | hcloses
    · simp [observe, hp.code hcomplete]
    · exact observe_commentOnly_of_not_blank p (not_blank_of_closes ht hcloses)
  trailing := by
    intro front u rear hsplit hcompletes
    rw [join_tokens, reverse_cons] at hsplit
    rcases eq_nil_or_concat rear with rfl | ⟨rear, last, rfl⟩
    · exact forall_mem_nil _
    · rw [concat_eq_append, ← cons_append, ← append_assoc] at hsplit
      obtain ⟨hfront, hlast⟩ := append_inj' hsplit rfl
      obtain rfl : t = last := singleton_inj.mp hlast
      rw [concat_eq_append, append_assoc, singleton_append] at hcompletes
      rw [concat_eq_append]
      refine forall_mem_append.mpr ⟨hp.trailing front u rear hfront hcompletes, ?_⟩
      exact forall_mem_singleton.mpr (hkept (hp.complete hfront hcompletes))

theorem Pending.kept_of_not_endsWith (hend : (p.cleared t).endsWith t = false)
    (hcomplete : (p.cleared t).complete = true) : Blank t ∧ t.value ≠ "\n" := by
  unfold Pending.cleared at hend hcomplete
  split at hcomplete
  · cases hcomplete
  · rename_i hanew
    rw [if_neg hanew] at hend
    simp only [startsAnew, endsWith, hcomplete, Bool.true_and, Bool.or_eq_true, Bool.and_eq_true,
      bne_iff_ne, Bool.or_eq_false_iff, beq_eq_false_iff_ne, not_or, not_and, Decidable.not_not]
      at hanew hend
    refine ⟨?_, hend.1⟩
    by_cases hspace : t.kind = .space
    · exact .inl hspace
    · exact .inr (hanew.1 hspace)

/-- Every statement of a list trails off. -/
def AllTrailOff : List Statement → Prop
  | [] => True
  | st :: more => TrailsOff st (more.flatMap tokens) ∧ AllTrailOff more

theorem AllTrailOff.of_mem {done : List Statement} (h : AllTrailOff (done ++ st :: more)) :
    TrailsOff st (more.flatMap tokens) := by
  induction done with
  | nil => exact h.1
  | cons _ done ih => exact ih h.2

theorem allTrailOff_flush_append (hmore : AllTrailOff more)
    (hp : ∀ st ∈ p.flush, TrailsOff st (more.flatMap tokens)) : AllTrailOff (p.flush ++ more) := by
  unfold flush at hp ⊢
  split
  · exact hmore
  · rename_i hempty
    rw [if_neg hempty] at hp
    exact ⟨hp _ mem_cons_self, hmore⟩

theorem Pending.Trails.trailsOff_concat (hp : p.Trails (t :: rest)) (ht : closes t = false)
    (hlast : p.complete = true → Blank t ∧ t.value = "\n") :
    TrailsOff ⟨p.tokens.reverse ++ [t], none⟩ rest := by
  intro front u rear hsplit hcompletes
  rcases eq_nil_or_concat rear with rfl | ⟨rear, last, rfl⟩
  · -- a token that completes a statement is a separator or a block
    obtain ⟨rfl, hu⟩ := append_inj' hsplit rfl
    obtain rfl : t = u := singleton_inj.mp hu
    obtain ⟨hbefore, hafter⟩ := hcompletes
    rw [joinAll_concat] at hafter
    rcases complete_of_join hafter with hcomplete | hcloses
    · exact absurd hcomplete (by rw [nil_append] at hbefore ⊢; simp [hbefore])
    · rw [ht] at hcloses
      cases hcloses
  · rw [concat_eq_append, ← cons_append, ← append_assoc] at hsplit
    obtain ⟨hfront, hu⟩ := append_inj' hsplit rfl
    obtain rfl : t = last := singleton_inj.mp hu
    rw [concat_eq_append, append_assoc, singleton_append] at hcompletes ⊢
    obtain ⟨hblank, hvalue⟩ := hlast (hp.complete hfront hcompletes)
    rw [attached_append (hp.trailing front u rear hfront hcompletes),
      attached, if_pos hblank, if_pos hvalue]

theorem Pending.lineBreak_of_endsWith (ht : Settled t) (hend : (p.cleared t).endsWith t = true) :
    closes t = false ∧ ((p.cleared t).complete = true → Blank t ∧ t.value = "\n") := by
  have hbreak : t.value = "\n" → Blank t := fun hvalue => .inl (by rw [ht.kind_eq, hvalue]; rfl)
  constructor
  · apply Bool.eq_false_iff.mpr
    intro hcloses
    have hkind := kind_ne_of_closes ht hcloses
    simp only [endsWith, Bool.or_eq_true, Bool.and_eq_true, beq_iff_eq] at hend
    rcases hend with ⟨-, hvalue⟩ | hdirective
    · exact not_blank_of_closes ht hcloses (hbreak hvalue)
    · exact hkind (by simp [hdirective])
  · intro hcomplete
    unfold cleared at hend hcomplete
    split at hcomplete
    · cases hcomplete
    · rename_i hanew
      -- a directive behind a complete statement would have started a new one
      have hdirective : t.kind ≠ .directive := by
        intro hdirective
        exact hanew (by simp [startsAnew, hcomplete, hdirective])
      simp only [if_neg hanew, endsWith, Bool.or_eq_true, Bool.and_eq_true, beq_iff_eq] at hend
      have hvalue : t.value = "\n" := (hend.resolve_right hdirective).2
      exact ⟨hbreak hvalue, hvalue⟩

theorem flatMap_group_settled (p : Pending) (hts : ∀ t ∈ ts, Settled t) :
    (group p ts).flatMap tokens = p.tokens.reverse ++ ts := by
  have hmap : ts.map settled = ts.map id := map_congr_left fun t ht => (hts t ht).settled_eq
  rw [flatMap_group, hmap, map_id]

theorem Pending.Trails.allTrailOff_released_append (hp : p.Trails (t :: rest))
    (hmore : AllTrailOff more)
    (htokens : more.flatMap Statement.tokens = (p.cleared t).tokens.reverse ++ t :: rest) :
    AllTrailOff (p.released t ++ more) := by
  unfold released
  split
  · rename_i hanew
    apply allTrailOff_flush_append hmore
    intro st hst
    rw [htokens, Pending.cleared, if_pos hanew]
    refine hp.trailsOff (fun hcomplete u hu => ?_) hst
    cases hu
    exact hp.not_blank_of_startsAnew hanew hcomplete
  · exact hmore

/-- The statements of a token list trail off, by induction on the tokens to come. -/
theorem allTrailOff_group (hp : p.Trails ts) (hts : ∀ t ∈ ts, Settled t) :
    AllTrailOff (group p ts) := by
  induction ts generalizing p with
  | nil =>
    rw [group, ← append_nil p.flush]
    refine allTrailOff_flush_append trivial fun st hst => hp.trailsOff (fun _ u hu => ?_) hst
    cases hu
  | cons t rest ih =>
    obtain ⟨ht, hrest⟩ := forall_mem_cons.mp hts
    have hempty := flatMap_group_settled {} hrest
    rw [reverse_nil, nil_append] at hempty
    by_cases hkind : t.kind = .invalid
    · have hnotBlank : ¬ Blank t := by rintro (h | h) <;> rw [hkind] at h <;> cases h
      have hcloses : closes t = false := by
        apply Bool.eq_false_iff.mpr
        intro h
        exact kind_ne_of_closes ht h (by simp [hkind])
      rw [group_cons_of_invalid p ht.settled_eq hkind]
      apply allTrailOff_flush_append
      · refine ⟨?_, ih (trails_empty rest) hrest⟩
        rw [hempty]
        exact (trails_empty (t :: rest)).trailsOff_concat hcloses fun h => by cases h
      · intro st hst
        rw [flatMap_cons, hempty]
        exact hp.trailsOff (fun _ u hu => by cases hu; exact hnotBlank) hst
    · have hq : (p.cleared t).Trails (t :: rest) := hp.cleared
      rw [group_cons_of_valid p ht.settled_eq hkind]
      by_cases hend : (p.cleared t).endsWith t = true
      · obtain ⟨hcloses, hlast⟩ := lineBreak_of_endsWith ht hend
        rw [if_pos hend]
        refine hp.allTrailOff_released_append ⟨?_, ih (trails_empty rest) hrest⟩ ?_
        · rw [hempty]
          exact hq.trailsOff_concat hcloses hlast
        · simp [hempty]
      · have hkept := kept_of_not_endsWith (Bool.eq_false_iff.mpr hend)
        rw [if_neg hend]
        refine hp.allTrailOff_released_append (ih (hq.join ht hkept) hrest) ?_
        simp [flatMap_group_settled _ hrest]

theorem forall_settled_scan (s : List Char) (base : Int) :
    ∀ t ∈ (Token.scan s base).map settled, Settled t := by
  intro t ht
  obtain ⟨u, hu, rfl⟩ := mem_map.mp ht
  show some u.kind = some (Kind.ofText u.value)
  rw [(Token.standsIn_of_mem_scan hu).kind_eq]

/-- A statement that a token completes goes on with the white space and comments behind it, up to
the first token that is a line break. A comment among them starts on a later line than the token
ends on exactly if a comment before it holds a line break, as those do that end with their line. -/
theorem later_line_iff_of_completes (s : List Char) (base : Int) (done more : List Statement)
    (st : Statement) (front rear : List Token) (t : Token)
    (hscan : scan s base = done ++ st :: more) (htokens : st.tokens = front ++ t :: rear)
    (hcompletes : Completes front t (rear ++ more.flatMap tokens)) :
    rear = attached (rear ++ more.flatMap tokens) ∧
      ∀ mid c post, rear = mid ++ c :: post → c.kind = .comment →
        (lineNumber s (some (t.span.stop - base)) < lineNumber s (some (c.span.start - base)) ↔
          ∃ u ∈ mid, u.kind = .comment ∧ '\n' ∈ u.chars) := by
  have hgroup : scan s base = group {} ((Token.scan s base).map settled) := by
    rw [group_map_settled, scan, ofTokens]
  have hrear : rear = attached (rear ++ more.flatMap tokens) := by
    have hall := allTrailOff_group (trails_empty _) (forall_settled_scan s base)
    rw [← hgroup, hscan] at hall
    exact hall.of_mem front t rear htokens hcompletes
  refine ⟨hrear, ?_⟩
  rintro mid c post rfl hcomment
  have hmid : ∀ u ∈ mid, Blank u ∧ u.value ≠ "\n" := blank_of_attached_eq hrear.symm
  have hall : (Token.scan s base).map settled =
      (done.flatMap tokens ++ front) ++ t :: (mid ++ c :: (post ++ more.flatMap tokens)) := by
    have htext : (scan s base).flatMap tokens = (Token.scan s base).map settled := by
      rw [scan, ofTokens, flatMap_group, reverse_nil, nil_append]
    rw [← htext, hscan, flatMap_append, flatMap_cons, htokens]
    simp only [append_assoc, cons_append]
  rw [lineNumber_lt_iff hall]
  constructor
  · rintro ⟨u, hu, hbreak⟩
    refine ⟨u, hu, ?_, hbreak⟩
    have hmem : u ∈ (Token.scan s base).map settled := by simp [hall, hu]
    obtain ⟨v, hv, rfl⟩ := mem_map.mp hmem
    obtain ⟨hblank, hvalue⟩ := hmid _ hu
    refine hblank.resolve_left fun hspace => hvalue ?_
    exact value_eq_of_space (t := v) hv hspace hbreak
  · rintro ⟨u, hu, -, hbreak⟩
    exact ⟨u, hu, hbreak⟩

/-- A declaration and two comments on two lines. -/
def twoComments : List Char := "int a; // x\n// y\n".toList

/-- The comment on the next line goes with the declaration. -/
theorem later_line_iff_of_completes_two :
    ∃ st front t blank x y, scan twoComments 0 = [st] ∧ st.tokens = front ++ [t, blank, x, y] ∧
      Completes front t [blank, x, y] ∧ t.value = ";" ∧ y.value = "// y\n" ∧
      lineNumber twoComments (some (t.span.stop - 0)) <
        lineNumber twoComments (some (y.span.start - 0)) := by
  let front : List Token := [⟨0, ⟨0, 3⟩, "int", some .word⟩, ⟨1, ⟨3, 4⟩, " ", some .space⟩,
    ⟨2, ⟨4, 5⟩, "a", some .word⟩]
  let t : Token := ⟨3, ⟨5, 6⟩, ";", some .separator⟩
  let blank : Token := ⟨4, ⟨6, 7⟩, " ", some .space⟩
  let x : Token := ⟨5, ⟨7, 12⟩, "// x\n", some .comment⟩
  let y : Token := ⟨6, ⟨12, 17⟩, "// y\n", some .comment⟩
  have hscan : scan twoComments 0 = [⟨front ++ [t, blank, x, y], none⟩] := by decide +kernel
  have hcompletes : Completes front t [blank, x, y] := by decide +kernel
  obtain ⟨-, hlines⟩ := later_line_iff_of_completes twoComments 0 [] [] _ front [blank, x, y] t
    hscan rfl hcompletes
  refine ⟨_, front, t, blank, x, y, hscan, rfl, hcompletes, rfl, rfl, ?_⟩
  exact (hlines [blank, x] y [] rfl rfl).mpr ⟨x, by decide +kernel, rfl, by decide +kernel⟩

end Statement

end CBoundary
