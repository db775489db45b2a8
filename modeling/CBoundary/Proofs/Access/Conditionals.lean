import CBoundary.Proofs.Access.Fields
import CBoundary.Proofs.Macro.Halting

/-!
# Where the deduction of types fails

The second operand of a conditional expression ends at the first colon behind the question mark, so
that a conditional expression inside it is cut short of its own colon.  There, or where nothing
stands behind the question mark, the deduction of a type may fail.
-/

namespace CBoundary

open Audit List Token

namespace Access.Subject

variable {ts rest : List Token} {first : Token}

/-! ## Weights -/

theorem weight_cons (t : Token) (ts : List Token) :
    weight (t :: ts) = t.value.length + weight ts := by
  have hfrom (n : Nat) : ts.foldl (fun n t => n + t.value.length) n = n + weight ts := by
    unfold weight
    induction ts generalizing n with
    | nil => rfl
    | cons u ts ih =>
      rw [foldl_cons, foldl_cons, ih, ih (0 + _)]
      omega
  unfold weight
  rw [foldl_cons, hfrom, Nat.zero_add]
  rfl

theorem weight_eq_length (ts : List Token) : weight ts = (ts.flatMap chars).length := by
  induction ts with
  | nil => rfl
  | cons t ts ih =>
    rw [weight_cons, ih, flatMap_cons, length_append]
    rfl

theorem weight_le_of_sublist {us : List Token} (h : ts.Sublist us) : weight ts ≤ weight us := by
  induction h with
  | slnil => exact Nat.le_refl _
  | cons u _ ih =>
    rw [weight_cons]
    omega
  | cons_cons u _ ih =>
    rw [weight_cons, weight_cons]
    omega

theorem weight_code_le (s : List Char) (base : Int) :
    weight (Tokens.code (scan s base)) ≤ s.length := by
  have hvalues : weight (Tokens.code (scan s base)) =
      weight ((scan s base).filter isCode) := by
    rw [weight_eq_length, weight_eq_length]
    rw [Tokens.code, flatMap_map]
    rfl
  rw [hvalues]
  calc weight ((scan s base).filter isCode)
      ≤ weight (scan s base) := weight_le_of_sublist filter_sublist
    _ = ((scan s base).flatMap chars).length := weight_eq_length _
    _ ≤ s.length := Macro.length_chars_scan_le s base

/-! ## Forms -/

theorem splitAtFirst?_some {p : Token → Bool} {front behind : List Token} {found : Token}
    (h : splitAtFirst? p ts = some (front, found, behind)) :
    ts = front ++ found :: behind ∧ p found = true := by
  induction ts generalizing front with
  | nil => cases h
  | cons t ts ih =>
    unfold splitAtFirst? at h
    split at h
    · rename_i hp
      cases h
      exact ⟨rfl, hp⟩
    · obtain ⟨⟨front', found', behind'⟩, hrest, heq⟩ := Option.map_eq_some_iff.mp h
      cases heq
      obtain ⟨rfl, hp⟩ := ih hrest
      exact ⟨rfl, hp⟩

/-- A question mark is one of the tokens, operands of a conditional stand behind it, and an operand
with what follows it is the end of the expression. -/
def Form.Describes (ts : List Token) : Form → Prop
  | .nothing => True
  | .dangling => ∃ question ∈ ts, question.value = "?"
  | .conditional question second third => ∃ front behind, ts = front ++ question :: behind ∧
      question.value = "?" ∧ second.Sublist behind ∧ third.Sublist behind
  | .operand first rest => (first :: rest) <:+ ts

/-- The form of an expression tells how it is made. -/
theorem Form.describes {form : Form} (h : Form.of ts = form) : form.Describes ts := by
  subst h
  unfold Form.of
  split
  · trivial
  · rename_i first rest hdrop
    have hsuffix : (first :: rest) <:+ ts := hdrop ▸ dropWhile_suffix _
    split
    · exact hsuffix
    · rename_i front mark hsplit
      obtain ⟨hrest, hmark⟩ := splitAtFirst?_some hsplit
      refine ⟨mark, hsuffix.subset ?_, eq_of_beq hmark⟩
      rw [hrest]
      exact mem_append_right _ mem_cons_self
    · rename_i front mark behind _ hsplit
      obtain ⟨signs, rfl⟩ := hsuffix
      obtain ⟨hrest, hmark⟩ := splitAtFirst?_some hsplit
      rw [hrest, ← append_assoc]
      split
      · rename_i second colon third hcolon
        obtain ⟨rfl, -⟩ := splitAtFirst?_some hcolon
        exact ⟨_, _, rfl, eq_of_beq hmark, sublist_append_left _ _,
          (sublist_cons_self _ _).trans (sublist_append_right _ _)⟩
      · exact ⟨_, _, rfl, eq_of_beq hmark, dropLast_sublist _, nil_sublist _⟩

theorem Form.mem_of_operand (h : Form.of ts = .operand first rest) : first ∈ ts := by
  have hsuffix : (first :: rest) <:+ ts := Form.describes h
  exact hsuffix.subset mem_cons_self

theorem weight_lt_of_conditional {second third : List Token} {question : Token}
    (h : Form.of ts = .conditional question second third) :
    weight second < weight ts ∧ weight third < weight ts := by
  obtain ⟨front, behind, rfl, hmark, hsecond, hthird⟩ := Form.describes h
  have hwhole : weight (question :: behind) ≤ weight (front ++ question :: behind) :=
    weight_le_of_sublist (sublist_append_right _ _)
  rw [weight_cons, hmark] at hwhole
  have hone : "?".length = 1 := rfl
  have hsecond := weight_le_of_sublist hsecond
  have hthird := weight_le_of_sublist hthird
  omega

theorem weight_inside_lt (h : Form.of ts = .operand first rest) (hne : first.value ≠ "") :
    weight (Tokens.code (scan (Text.interior first.chars) 0)) < weight ts := by
  have hsuffix : (first :: rest) <:+ ts := Form.describes h
  have hwhole := weight_le_of_sublist hsuffix.sublist
  rw [weight_cons] at hwhole
  have hinside := weight_code_le (Text.interior first.chars) 0
  have hpos : 0 < first.value.length := by
    exact length_pos_iff.mpr fun hnil => hne (String.toList_eq_nil_iff.mp hnil)
  have hshorter : (Text.interior first.chars).length < first.value.length := by
    rw [Text.interior, chars, length_dropLast, length_drop, String.length_toList]
    omega
  omega

/-! ## Deduced types -/

section

variable (x : Subject) (stop stop' : Int) (expression expression' : List Token) (type : String)
  (rest : List Token) (offset : Int)

theorem exists_answers_followMembers :
    ∃ last, Answers (x.followMembers stop expression type rest) (.ok last) ∧
      Answers (x.followMembers stop' expression' type rest) (.ok last) := by
  induction hlength : rest.length using Nat.strongRecOn generalizing type rest with
  | ind length ih =>
    rw [followMembers, followMembers]
    have hstay : ∃ last : String, Answers (pure type) (.ok last) ∧ Answers (pure type) (.ok last) :=
      ⟨type, answers_pure type, answers_pure type⟩
    split
    · exact hstay
    · split
      · exact hstay
      · exact ⟨type, .ite ((answers_report _ _ _).bind_ok (answers_pure type)) (answers_pure type),
          .ite ((answers_report _ _ _).bind_ok (answers_pure type)) (answers_pure type)⟩
      · rename_i u v vs hrest
        have hle := length_dropSuffix_le rest
        rw [hrest, length_cons, length_cons] at hle
        split
        · exact ih vs.length (by omega) _ vs rfl
        · exact hstay

theorem agree_followMembers : Agree Eq (x.followMembers stop expression type rest)
      (x.followMembers stop' expression' type rest) := by
  obtain ⟨last, h, h'⟩ := x.exists_answers_followMembers stop stop' expression expression' type rest
  exact agree_of_ok h h' rfl

/-- The type does not depend on the place. -/
theorem agree_typeOfTokens (offset' : Int) (ts : List Token) :
    Agree Eq (x.typeOfTokens offset ts) (x.typeOfTokens offset' ts) := by
  have hthrow (fault : Fault) :
      Agree Eq (throw fault : Audit String) (throw fault : Audit String) :=
    ⟨_, _, answers_throw fault, answers_throw fault, .error fault⟩
  induction hweight : weight ts using Nat.strongRecOn generalizing offset offset' ts with
  | ind size ih =>
    subst hweight
    rw [typeOfTokens, typeOfTokens]
    split
    · exact agree_pure rfl
    · exact hthrow _
    · refine Agree.bind (R := Eq) ?_ fun type type' htype => ?_
      · split
        · rename_i hlighter
          exact ih _ hlighter _ _ _ rfl
        · exact agree_pure rfl
      · subst htype
        refine .ite ?_ (agree_pure rfl)
        split
        · exact hthrow _
        · split
          · rename_i hlighter
            exact ih _ hlighter _ _ _ rfl
          · exact agree_pure rfl
    · refine .ite (.ite (agree_pure rfl) ?_) (.ite (agree_followMembers ..) ?_)
      · split
        · rename_i hlighter
          refine (ih _ hlighter _ _ _ rfl).bind fun type type' htype => ?_
          subst htype
          exact agree_followMembers ..
        · exact agree_pure rfl
      · exact agree_of_ok ((answers_report _ _ _).bind_ok (answers_pure ""))
          ((answers_report _ _ _).bind_ok (answers_pure "")) rfl

/-- What the deduction of a type comes back with. -/
def deduced (x : Subject) (ts : List Token) : Except Fault String := (x.typeOfTokens 0 ts).start.1

theorem answers_typeOfTokens (ts : List Token) :
    Answers (x.typeOfTokens offset ts) (x.deduced ts) := by
  obtain ⟨r, r', hr, hr', hsame⟩ := x.agree_typeOfTokens offset 0 ts
  have heq : r = x.deduced ts := by
    rw [deduced, hr'.start_fst]
    cases hsame with
    | ok h => rw [h]
    | error fault => rfl
  rwa [heq] at hr

end

section Equations

variable {x : Subject} {ts second third rest : List Token} {question first : Token}

theorem deduced_nothing (h : Form.of ts = .nothing) : x.deduced ts = .ok "" := by
  rw [deduced, typeOfTokens, h]
  exact (answers_pure "").start_fst

theorem deduced_dangling (h : Form.of ts = .dangling) :
    x.deduced ts = .error .nothingAfterCondition := by
  rw [deduced, typeOfTokens, h]
  exact (answers_throw _).start_fst

theorem deduced_conditional (h : Form.of ts = .conditional question second third) :
    x.deduced ts = x.deduced second >>= fun type =>
      if type.isEmpty then if third = [] then .error .noAlternative else x.deduced third
      else .ok type := by
  obtain ⟨hsecond, hthird⟩ := weight_lt_of_conditional h
  rw [deduced, typeOfTokens, h]
  dsimp only
  rw [dif_pos hsecond]
  refine Answers.start_fst ((x.answers_typeOfTokens _ _).bind fun type => ?_)
  by_cases htype : type.isEmpty = true
  · rw [if_pos htype, if_pos htype]
    cases third with
    | nil => exact answers_throw _
    | cons t third =>
      show Answers (dite (weight (t :: third) < weight ts) _ _) _
      rw [dif_pos hthird]
      exact x.answers_typeOfTokens _ _
  · rw [if_neg htype, if_neg htype]
    exact answers_pure type

theorem exists_deduced_operand (h : Form.of ts = .operand first rest)
    (hother : first.kind = .paren → makesCast rest = true) : ∃ type, x.deduced ts = .ok type := by
  rw [deduced, typeOfTokens, h]
  dsimp only
  by_cases hparen : first.kind = .paren
  · rw [if_pos (beq_iff_eq.mpr hparen), if_pos (hother hparen)]
    exact ⟨_, (answers_pure _).start_fst⟩
  · rw [if_neg (by simpa using hparen)]
    split
    · obtain ⟨last, hlast, -⟩ := x.exists_answers_followMembers _ 0 _ [] _ rest
      exact ⟨last, hlast.start_fst⟩
    · exact ⟨"", ((answers_report _ _ _).bind_ok (answers_pure "")).start_fst⟩

theorem exists_deduced_inside (h : Form.of ts = .operand first rest) (hne : first.value ≠ "")
    (hparen : first.kind = .paren) (hcast : makesCast rest = false) :
    (∃ type, x.deduced ts = .ok type) ↔
      ∃ type, x.deduced (Tokens.code (scan (Text.interior first.chars) 0)) = .ok type := by
  have hanswers : ∃ follow : String → String, x.deduced ts =
      (x.deduced (Tokens.code (scan (Text.interior first.chars) 0))).map follow := by
    have hfollow (type : String) := x.exists_answers_followMembers
      (0 + ((first :: rest).getLastD first).span.stop) 0 (first :: rest) []
      (x.codebase.untypedef type) rest
    choose follow hfollow using hfollow
    refine ⟨follow, ?_⟩
    rw [deduced, typeOfTokens, h]
    dsimp only
    rw [if_pos (beq_iff_eq.mpr hparen), hcast, if_neg Bool.false_ne_true,
      dif_pos (weight_inside_lt h hne)]
    exact Answers.start_fst ((x.answers_typeOfTokens _ _).bind fun type => (hfollow type).1)
  obtain ⟨follow, heq⟩ := hanswers
  rw [heq]
  cases x.deduced (Tokens.code (scan (Text.interior first.chars) 0)) with
  | ok type => exact iff_of_true ⟨_, rfl⟩ ⟨type, rfl⟩
  | error fault => exact iff_of_false (by rintro ⟨_, ⟨⟩⟩) (by rintro ⟨_, ⟨⟩⟩)

end Equations

/-! ## Expressions that are asked for their type -/

/-- One expression asks for the type of another: of an operand of a conditional, or of what is in
parentheses. -/
inductive Asks (x : Subject) : List Token → List Token → Prop
  | second {ts second third : List Token} {question : Token} :
      Form.of ts = .conditional question second third → Asks x ts second
  | third {ts second third : List Token} {question : Token} :
      Form.of ts = .conditional question second third → third ≠ [] → x.deduced second = .ok "" →
      Asks x ts third
  | inside {ts rest : List Token} {first : Token} : Form.of ts = .operand first rest →
      first.kind = .paren → makesCast rest = false →
      Asks x ts (Tokens.code (scan (Text.interior first.chars) 0))

/-- A question mark with nothing behind it, or a conditional without a third operand whose second
has no known type. -/
def Broken (x : Subject) (ts : List Token) : Prop :=
  Form.of ts = .dangling ∨
    ∃ question second, Form.of ts = .conditional question second [] ∧ x.deduced second = .ok ""

/-- All tokens have a text. -/
def Texted (ts : List Token) : Prop := ∀ t ∈ ts, t.value ≠ ""

theorem texted_code (s : List Char) (base : Int) : Texted (Tokens.code (scan s base)) := by
  intro t ht hempty
  obtain ⟨u, hu, rfl⟩ := Tokens.mem_code ht
  obtain ⟨-, -, -, -, hne, -⟩ := found_of_mem_scan hu
  exact hne (String.toList_eq_nil_iff.mpr hempty)

section Asking

variable {x : Subject} {ts us : List Token}
variable {form : Form}

theorem Asks.texted (h : Asks x ts us) (hts : Texted ts) : Texted us := by
  cases h with
  | second hform =>
    obtain ⟨front, behind, rfl, -, hsub, -⟩ := Form.describes hform
    exact fun t ht => hts t (mem_append_right _ (mem_cons_of_mem _ (hsub.subset ht)))
  | third hform =>
    obtain ⟨front, behind, rfl, -, -, hsub⟩ := Form.describes hform
    exact fun t ht => hts t (mem_append_right _ (mem_cons_of_mem _ (hsub.subset ht)))
  | inside => exact texted_code _ _

theorem Asks.weight_lt (h : Asks x ts us) (hts : Texted ts) : weight us < weight ts := by
  cases h with
  | second hform => exact (weight_lt_of_conditional hform).1
  | third hform => exact (weight_lt_of_conditional hform).2
  | inside hform =>
    exact weight_inside_lt hform (hts _ (Form.mem_of_operand hform))

/-- What an expression of some form asks for. -/
def Form.Asked (x : Subject) (us : List Token) : Form → Prop
  | .conditional _ second third =>
    us = second ∨ us = third ∧ third ≠ [] ∧ x.deduced second = .ok ""
  | .operand first rest => us = Tokens.code (scan (Text.interior first.chars) 0) ∧
      first.kind = .paren ∧ makesCast rest = false
  | _ => False

theorem asks_iff (h : Form.of ts = form) : Asks x ts us ↔ form.Asked x us := by
  constructor
  · intro hasks
    cases hasks with
    | second hform => exact h ▸ hform ▸ .inl rfl
    | third hform hthird hsecond => exact h ▸ hform ▸ .inr ⟨rfl, hthird, hsecond⟩
    | inside hform hparen hcast => exact h ▸ hform ▸ ⟨rfl, hparen, hcast⟩
  · intro hasked
    cases form with
    | nothing | dangling => exact hasked.elim
    | conditional question second third =>
      rcases hasked with rfl | ⟨rfl, hthird, hsecond⟩
      · exact .second h
      · exact .third h hthird hsecond
    | operand first rest =>
      obtain ⟨rfl, hparen, hcast⟩ := hasked
      exact .inside h hparen hcast

/-- Are expressions of some form broken? -/
def Form.IsBroken (x : Subject) : Form → Prop
  | .dangling => True
  | .conditional _ second third => third = [] ∧ x.deduced second = .ok ""
  | _ => False

theorem broken_iff (h : Form.of ts = form) : Broken x ts ↔ form.IsBroken x := by
  rw [Broken, h]
  cases form <;> simp [Form.IsBroken]

/-- One step of the deduction of a type. -/
theorem exists_deduced_iff_asks (hts : Texted ts) : (∃ type, x.deduced ts = .ok type) ↔
      ¬ Broken x ts ∧ ∀ us, Asks x ts us → ∃ type, x.deduced us = .ok type := by
  cases hform : Form.of ts with
  | nothing =>
    simp only [asks_iff hform, broken_iff hform]
    exact iff_of_true ⟨"", deduced_nothing hform⟩ ⟨id, nofun⟩
  | dangling =>
    refine iff_of_false ?_ fun h => h.1 (.inl hform)
    rw [deduced_dangling hform]
    exact nofun
  | conditional question second third =>
    rw [deduced_conditional hform, broken_iff hform]
    simp only [asks_iff hform, Form.Asked, Form.IsBroken]
    cases hsecond : x.deduced second with
    | error fault =>
      refine iff_of_false nofun fun h => ?_
      obtain ⟨type, htype⟩ := h.2 second (.inl rfl)
      rw [hsecond] at htype
      cases htype
    | ok type =>
      change (∃ known, (if type.isEmpty then
        if third = [] then .error .noAlternative else x.deduced third
        else .ok type : Except Fault String) = .ok known) ↔ _
      by_cases htype : type = ""
      · subst htype
        by_cases hthird : third = []
        · exact iff_of_false (by simp [hthird]) fun h => h.1 ⟨hthird, rfl⟩
        · rw [if_pos (String.isEmpty_iff.mpr rfl), if_neg hthird]
          refine ⟨fun h => ⟨fun hnone => hthird hnone.1, ?_⟩,
            fun h => h.2 third (.inr ⟨rfl, hthird, rfl⟩)⟩
          rintro us (rfl | ⟨rfl, -⟩)
          · exact ⟨"", hsecond⟩
          · exact h
      · have hknown : ¬ type.isEmpty = true := fun h => htype (String.isEmpty_iff.mp h)
        rw [if_neg hknown]
        refine iff_of_true ⟨type, rfl⟩ ⟨fun h => htype (Except.ok.inj h.2), ?_⟩
        rintro us (rfl | ⟨-, -, h⟩)
        · exact ⟨type, hsecond⟩
        · exact absurd (Except.ok.inj h) htype
  | operand first rest =>
    by_cases hinside : first.kind = .paren ∧ makesCast rest = false
    · have hne : first.value ≠ "" :=
        hts first (Form.mem_of_operand hform)
      rw [exists_deduced_inside hform hne hinside.1 hinside.2]
      refine ⟨fun h => ⟨(broken_iff hform).mp, fun us hasks => ?_⟩, fun h => ?_⟩
      · obtain ⟨rfl, -⟩ := (asks_iff hform).mp hasks
        exact h
      · exact h.2 _ (.inside hform hinside.1 hinside.2)
    · refine iff_of_true (exists_deduced_operand hform fun hparen => ?_)
        ⟨(broken_iff hform).mp, fun us hasks => ?_⟩
      · exact Bool.of_not_eq_false fun hcast => hinside ⟨hparen, hcast⟩
      · exact absurd ((asks_iff hform).mp hasks).2 hinside

/-- The run: a type is deduced exactly if no expression on the way is broken. -/
theorem exists_deduced_iff (hts : Texted ts) : (∃ type, x.deduced ts = .ok type) ↔
      ∀ us, Relation.ReflTransGen (Asks x) ts us → ¬ Broken x us := by
  induction hweight : weight ts using Nat.strongRecOn generalizing ts with
  | ind size ih =>
    subst hweight
    have hasked : (∀ us, Asks x ts us → ∃ type, x.deduced us = .ok type) ↔
        ∀ us, Asks x ts us → ∀ vs, Relation.ReflTransGen (Asks x) us vs → ¬ Broken x vs :=
      forall_congr' fun us => forall_congr' fun hasks =>
        ih _ (hasks.weight_lt hts) (hasks.texted hts) rfl
    rw [exists_deduced_iff_asks hts, hasked]
    constructor
    · rintro ⟨hhere, hasked⟩ us hus
      rcases hus.cases_head with rfl | ⟨vs, hvs, hus⟩
      · exact hhere
      · exact hasked vs hvs us hus
    · intro hall
      exact ⟨hall ts .refl, fun us hus vs hvs => hall vs (.head hus hvs)⟩

/-! ## Texts without question marks -/

/-- No token holds a question mark. -/
def Unmarked (ts : List Token) : Prop := ∀ t ∈ ts, '?' ∉ t.chars

theorem unmarked_code {s : List Char} (h : '?' ∉ s) (base : Int) :
    Unmarked (Tokens.code (scan s base)) := by
  intro t ht hmark
  obtain ⟨u, hu, rfl⟩ := Tokens.mem_code ht
  obtain ⟨front, rear, rfl, -⟩ := found_of_mem_scan hu
  exact h (mem_append_right _ (mem_append_left _ hmark))

theorem Unmarked.ne_mark (h : Unmarked ts) {t : Token} (ht : t ∈ ts) : t.value ≠ "?" := by
  intro hvalue
  have hchars : t.chars = ['?'] := by
    rw [chars, hvalue]
    rfl
  exact h t ht (hchars ▸ mem_singleton_self _)

theorem Unmarked.not_broken (h : Unmarked ts) : ¬ Broken x ts := by
  rintro (hform | ⟨question, second, hform, -⟩)
  · obtain ⟨question, hmem, hmark⟩ := Form.describes hform
    exact h.ne_mark hmem hmark
  · obtain ⟨front, behind, rfl, hmark, -⟩ := Form.describes hform
    exact h.ne_mark (mem_append_right _ mem_cons_self) hmark

theorem Asks.unmarked (hasks : Asks x ts us) (h : Unmarked ts) : Unmarked us := by
  cases hasks with
  | second hform | third hform =>
    obtain ⟨front, behind, rfl, hmark, -⟩ := Form.describes hform
    exact absurd hmark (h.ne_mark (mem_append_right _ mem_cons_self))
  | inside hform =>
    refine unmarked_code (fun hmark => ?_) 0
    refine h _ (Form.mem_of_operand hform) ?_
    exact mem_of_mem_drop (mem_of_mem_dropLast hmark)

theorem Unmarked.not_broken_of_asked (h : Unmarked ts)
    (hus : Relation.ReflTransGen (Asks x) ts us) : ¬ Broken x us := by
  induction hus using Relation.ReflTransGen.head_induction_on with
  | refl => exact h.not_broken
  | head hasks _ ih => exact ih (hasks.unmarked h)

end Asking

end Access.Subject

end CBoundary
