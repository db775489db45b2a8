import CBoundary.Proofs.Declaration.Declarator

/-!
# Parameters

A parameter is read from its start, a definition from its end.  Both find the same name and the same
type when a star stands in front of the name, and else in some cases only.
-/

namespace CBoundary

open List

variable {words stars suffixes ts rest : List Token} {builtin : Bool} {t name : Token}

namespace Declaration

/-- What the words before a name say: words of built-in types among qualifiers, or one defined type
with only qualifiers behind it that do not stay. -/
inductive Names : List Token → Bool → Prop where
  | builtin {words : List Token} (hwords : ∀ t ∈ words,
        t.IsTypeWord ∧ (t.isQualifier = true ∨ t.isBuiltinType = true))
      (hsome : ∃ t ∈ words, t.isQualifier = false) : Names words true
  | defined {front back : List Token} {t : Token}
      (hfront : ∀ u ∈ front, u.IsTypeWord ∧ u.isQualifier = true) (ht : t.IsFree)
      (hdefined : t.isBuiltinType = false)
      (hback : ∀ u ∈ back, u.IsTypeWord ∧ u.isQualifier = true ∧ stays u = false) :
      Names (front ++ t :: back) false

theorem Names.isTypeWord (h : Names words builtin) : ∀ t ∈ words, t.IsTypeWord := by
  cases h with
  | builtin hwords => exact fun t ht => (hwords t ht).1
  | defined hfront ht _ hback =>
    exact forall_mem_append.mpr ⟨fun u hu => (hfront u hu).1,
      forall_mem_cons.mpr ⟨ht.toIsTypeWord, fun u hu => (hback u hu).1⟩⟩

theorem dropIgnored_eq_filter (h : ∀ t ∈ ts, t.kind ≠ .paren) :
    dropIgnored true ts = ts.filter stays := by
  induction ts with
  | nil => rfl
  | cons t ts ih =>
    obtain ⟨-, hts⟩ := forall_mem_cons.mp h
    cases hstays : stays t with
    | true =>
      obtain ⟨hignored, hkept⟩ := stays_iff.mp hstays
      rw [dropIgnored_cons hignored fun _ => hkept, ih hts, filter_cons_of_pos hstays]
    | false =>
      have hdropped := mt stays_iff.mpr (by simpa using hstays)
      cases ts <;> simp_all [dropIgnored] <;> grind

theorem leadingType_append (hwords : ∀ t ∈ words,
      t.kind = .word ∧ (t.isQualifier = true ∨ t.isBuiltinType = true))
    (type : List Token) (builtin : Bool) (i : Nat) (rest : List Token) :
    leadingType true type builtin i (words ++ rest) =
      leadingType true (type ++ bareWords words) (builtin || words.any fun t => !t.isQualifier)
        (i + words.length) rest := by
  unfold bareWords
  induction words generalizing type builtin i with
  | nil => simp
  | cons t words ih =>
    obtain ⟨⟨hword, ht⟩, hwords⟩ := forall_mem_cons.mp hwords
    rw [cons_append, leadingType, if_neg (by simp [hword])]
    cases hq : t.isQualifier with
    | true =>
      rw [Bool.true_and, if_pos rfl, ih hwords]
      simp [hq, Nat.add_assoc, Nat.add_comm 1]
    | false =>
      rw [Bool.and_false, if_neg Bool.false_ne_true, if_pos (by simpa [hq] using ht), ih hwords]
      simp [hq, Nat.add_assoc, Nat.add_comm 1]

theorem bareWords_filter_stays (h : ∀ t ∈ words, t.IsTypeWord) :
    bareWords (words.filter stays) = bareWords words := by
  rw [bareWords, filter_filter]
  refine filter_congr fun t ht => ?_
  cases hq : t.isQualifier with
  | true => rfl
  | false => simp [stays_of_free ((h t ht).free hq)]

theorem Names.leadingType_eq (h : Names words builtin) (rest : List Token) :
    leadingType true [] false 0 (words.filter stays ++ rest) =
      if builtin then leadingType true (bareWords words) true (words.filter stays).length rest
      else ⟨bareWords words, (words.filter stays).length, false⟩ := by
  have hbare := bareWords_filter_stays h.isTypeWord
  cases h with
  | builtin h hsome =>
    obtain ⟨t, ht, hq⟩ := hsome
    have hany : (words.filter stays).any (fun t => !t.isQualifier) = true :=
      any_eq_true.mpr ⟨t, mem_filter.mpr ⟨ht, stays_of_free ((h t ht).1.free hq)⟩, by simp [hq]⟩
    rw [leadingType_append (fun t ht => ⟨(h t (mem_of_mem_filter ht)).1.kind,
      (h t (mem_of_mem_filter ht)).2⟩), hany, hbare]
    simp
  | @defined front back t hfront ht hdefined hback =>
    have hnone : back.filter stays = [] :=
      filter_eq_nil_iff.mpr fun u hu => by simp [(hback u hu).2]
    have hstays : stays t = true := stays_of_free (ht.free ht.isQualifier)
    have hq : ∀ u ∈ front.filter stays, u.isQualifier = true := fun u hu =>
      (hfront u (mem_of_mem_filter hu)).2
    have hfilter : bareWords (front.filter stays) = [] :=
      filter_eq_nil_iff.mpr fun u hu => by simp [hq u hu]
    have hany : (front.filter stays).any (fun t => !t.isQualifier) = false :=
      any_eq_false.mpr fun u hu => by simp [hq u hu]
    rw [← hbare, filter_append, filter_cons_of_pos hstays, hnone, append_assoc,
      leadingType_append (fun u hu => ⟨(hfront u (mem_of_mem_filter hu)).1.kind, .inl (hq u hu)⟩),
      hfilter, hany]
    simp only [bareWords] at hfilter
    simp [leadingType, ht.kind, ht.isQualifier, hdefined, bareWords, hfilter]

theorem length_trailingType (builtin : Bool) (type : List Token) (i : Int) (ts : List Token) :
    type.length ≤ (trailingType builtin type i ts).type.length + 1 := by
  induction ts generalizing type i with
  | nil => grind [trailingType]
  | cons t ts ih =>
    have hnext := ih (type ++ [t]) (i + 1)
    rw [trailingType]
    split_ifs <;> grind

theorem splitType_eq {lead : TypeLead} (hlead : leadingType true [] false 0 ts = lead)
    (hpos : 0 < lead.next) (hnext : lead.next < ts.length) :
    splitType true ts = trailingType lead.builtin lead.type lead.next (ts.drop lead.next) := by
  have hvoid : isVoid ts = false := by
    unfold isVoid
    split
    · rw [length_singleton] at hnext
      omega
    · rfl
  have hempty : ts.isEmpty = false :=
    isEmpty_eq_false_iff.mpr (ne_nil_of_length_pos (Nat.zero_lt_of_lt hnext))
  rw [splitType, hvoid, hempty, Bool.or_self, if_neg Bool.false_ne_true]
  rw [hlead, if_neg (Nat.not_le.mpr hnext)]

theorem Names.length_filter_pos (h : Names words builtin) : 0 < (words.filter stays).length := by
  obtain ⟨t, ht, hq⟩ : ∃ t ∈ words, t.isQualifier = false := by
    cases h with
    | builtin _ hsome => exact hsome
    | @defined _ _ t _ ht => exact ⟨t, by simp, ht.isQualifier⟩
  exact length_pos_of_mem (mem_filter.mpr ⟨ht, stays_of_free ((h.isTypeWord t ht).free hq)⟩)

theorem Names.splitType_eq (h : Names words builtin)
    (ht : builtin = true → t.kind ≠ .word ∨ (t.isQualifier = false ∧ t.isBuiltinType = false)) :
    splitType true (words.filter stays ++ t :: rest) =
      trailingType builtin (bareWords words) (words.filter stays).length (t :: rest) := by
  have hlead : leadingType true [] false 0 (words.filter stays ++ t :: rest) =
      ⟨bareWords words, (words.filter stays).length, builtin⟩ := by
    rw [h.leadingType_eq]
    cases builtin with
    | true =>
      rcases ht rfl with ht | ht <;> simp [leadingType, ht]
    | false => rfl
  rw [Declaration.splitType_eq hlead h.length_filter_pos (by simp), drop_left]

/-- A built-in type ends before a word not its own, a defined one before the last word. -/
def EndsBefore (builtin : Bool) (name : Token) (suffixes : List Token) : Prop :=
  if builtin then name.isBuiltinType = false else suffixes = []

theorem Names.splitType_name (h : Names words builtin) (hname : name.IsFree)
    (hsuffixes : ∀ t ∈ suffixes, t.IsSuffix) (hends : EndsBefore builtin name suffixes) :
    ∃ next : Int, next ≤ (words.filter stays).length ∧
      splitType true (words.filter stays ++ name :: suffixes) =
        ⟨bareWords words, next, some name⟩ := by
  rw [h.splitType_eq fun hbuiltin => .inr ⟨hname.isQualifier, by simpa [EndsBefore, hbuiltin] using
    hends⟩]
  cases suffixes with
  | nil => exact ⟨(words.filter stays).length + 1 - 2, by omega, by simp [trailingType, hname.kind]⟩
  | cons s ss =>
    cases builtin with
    | true =>
      have hbuiltin : name.isBuiltinType = false := hends
      refine ⟨(words.filter stays).length + 1 - 1, by omega, ?_⟩
      simp [trailingType, hname.kind, (hsuffixes s (by simp)).kind, hbuiltin]
    | false => cases (show s :: ss = [] from hends)

theorem Names.length_splitType (h : Names words builtin) (hname : name.IsFree)
    (hsuffixes : ∀ t ∈ suffixes, t.IsSuffix) (hends : ¬EndsBefore builtin name suffixes) :
    (bareWords words).length <
      (splitType true (words.filter stays ++ name :: suffixes)).type.length := by
  -- one more token is taken in after the name, and only that one can be given back
  have htaken : ∃ b i t ts, splitType true (words.filter stays ++ name :: suffixes) =
      trailingType b (bareWords words ++ [name] ++ [t]) i ts := by
    cases builtin with
    | true =>
      have hbuiltin : name.isBuiltinType = true := by simpa [EndsBefore] using hends
      have hlead := h.leadingType_eq (name :: suffixes)
      rw [if_pos rfl, leadingType, if_neg (by simp [hname.kind]),
        if_neg (by simp [hname.isQualifier]), if_pos hbuiltin] at hlead
      cases suffixes with
      | nil =>
        rw [leadingType, Nat.add_sub_cancel] at hlead
        rw [Declaration.splitType_eq hlead h.length_filter_pos (by simp), drop_left, trailingType,
          if_neg (by simp [hname.kind]), if_neg (by simp [hname.kind])]
        exact ⟨_, _, _, _, rfl⟩
      | cons s ss =>
        have hs := (hsuffixes s (by simp)).kind
        rw [leadingType, if_pos (by simp [hs])] at hlead
        rw [Declaration.splitType_eq hlead (by simp) (by simp)]
        exact ⟨true, _, s, ss, by simp [trailingType, hs, hbuiltin]; rfl⟩
    | false =>
      rw [h.splitType_eq (by simp)]
      cases suffixes with
      | nil => exact absurd rfl hends
      | cons s ss =>
        exact ⟨false, _, s, ss, by
          simp [trailingType, hname.kind, (hsuffixes s (by simp)).kind]; rfl⟩
  obtain ⟨b, i, t, ts, heq⟩ := htaken
  have hlength := length_trailingType b (bareWords words ++ [name] ++ [t]) i ts
  rw [← heq, length_append, length_append, length_singleton] at hlength
  exact Nat.le_of_succ_le_succ hlength

end Declaration

/-- The variable has the name and the words of its type. -/
def Declares (v? : Option Variable) (name : Token) (type : List Token) : Prop :=
  ∃ v, v? = some v ∧ v.name = name ∧ v.type = some type

namespace Variable

open Declaration

theorem type_ofParameter {scope : Scope} {v : Variable} (h : ofParameter scope ts = some v) :
    v.type = some (splitType true (dropIgnored true (Tokens.code ts))).type := by
  unfold ofParameter at h
  grind

theorem parameterName_stars (hstars : ∀ t ∈ stars, t.IsStar) (hname : name.IsFree)
    (rest : List Token) : parameterName (stars ++ name :: rest) = some name := by
  induction stars with
  | nil =>
    have hstar : name.value ≠ "*" := hname.value_ne rfl
    simp [parameterName, hname.kind, hstar]
  | cons t stars ih =>
    obtain ⟨ht, hstars⟩ := forall_mem_cons.mp hstars
    simp [parameterName, ht.value, ih hstars]

/-- **Parameters and definitions.** Words of a type, stars, a name and array suffixes, read as a
definition, declare that name and those words. Read as a parameter they do exactly if a star stands
before the name or the type ends there. -/
theorem ofParameter_declares_iff (hnames : Names words builtin) (hstars : ∀ t ∈ stars, t.IsStar)
    (hname : name.IsFree) (hvoid : name.value ≠ "void") (hsuffixes : ∀ t ∈ suffixes, t.IsSuffix)
    (hcode : Tokens.code ts = words ++ (stars ++ name :: suffixes)) (scope : Scope) :
    Declares (ofDefinition scope ts) name (bareWords words) ∧
      (Declares (ofParameter scope ts) name (bareWords words) ↔
        stars ≠ [] ∨ EndsBefore builtin name suffixes) := by
  have hdeclarator := Declarator.plain hstars hname.toIsWord hsuffixes
  refine ⟨?_, ?_⟩
  · obtain ⟨v, hv, hvname, hvtype, -⟩ := hdeclarator.exists_ofDefinition
      (fun t ht => (hnames.isTypeWord t ht).toIsWord) (fun h => absurd h hvoid) .nothing
      (by rw [hcode, append_nil]) scope
    exact ⟨v, hv, by rw [hvname, hname.onlyWordChars_eq], hvtype⟩
  have hdrop : dropIgnored true (Tokens.code ts) =
      words.filter stays ++ (stars ++ name :: suffixes) := by
    have hparen : ∀ t ∈ words ++ (stars ++ name :: suffixes), t.kind ≠ .paren := by
      simp only [forall_mem_append, forall_mem_cons]
      refine ⟨fun t ht => ?_, fun t ht => ?_, ?_, fun t ht => ?_⟩
      · simp [(hnames.isTypeWord t ht).kind]
      · simp [(hstars t ht).kind]
      · simp [hname.kind]
      · simp [(hsuffixes t ht).kind]
    rw [hcode, dropIgnored_eq_filter hparen, filter_append,
      filter_eq_self.mpr fun t ht => stays_of_free (hdeclarator.isPart (fun _ => hname) t ht).2]
  cases stars with
  | nil =>
    constructor
    · rintro ⟨v, hv, -, hvtype⟩
      by_contra hends
      have hlength := hnames.length_splitType hname hsuffixes fun h => hends (.inr h)
      rw [type_ofParameter hv, hdrop, nil_append, Option.some_inj] at hvtype
      exact absurd (congrArg List.length hvtype) (Nat.ne_of_gt hlength)
    · intro hends
      obtain ⟨next, hnext, hsplit⟩ := hnames.splitType_name hname hsuffixes
        (hends.resolve_left fun h => h rfl)
      unfold ofParameter
      dsimp only
      rw [hdrop, nil_append, hsplit]
      dsimp only
      rw [if_neg (by rw [length_append, length_cons]; omega)]
      exact ⟨_, rfl, rfl, rfl⟩
  | cons star stars =>
    refine iff_of_true ?_ (.inl (cons_ne_nil _ _))
    have hstar : star.kind = .operator := (hstars star (by simp)).kind
    have hfound := parameterName_stars hstars hname suffixes
    have hsplit : splitType true (words.filter stays ++ star :: (stars ++ name :: suffixes)) =
        ⟨bareWords words, (words.filter stays).length, none⟩ := by
      rw [hnames.splitType_eq fun _ => .inl (by simp [hstar])]
      simp [trailingType, hstar]
    unfold ofParameter
    dsimp only
    rw [hdrop, cons_append, hsplit]
    rw [if_neg (by simp; omega), Int.toNat_natCast, drop_left, ← cons_append, hfound]
    exact ⟨_, rfl, rfl, rfl⟩

/-- The array suffix behind a defined type is taken for the name. -/
theorem ofParameter_declares_iff_array :
    ¬Declares (ofParameter .blank (Token.scan "foo_t a[10]".toList 0))
      ⟨2, ⟨6, 7⟩, "a", some .word⟩ [⟨0, ⟨0, 5⟩, "foo_t", some .word⟩] := by
  have hcode : Tokens.code (Token.scan "foo_t a[10]".toList 0) =
      ([] ++ ⟨0, ⟨0, 5⟩, "foo_t", some .word⟩ :: []) ++ ([] ++ ⟨2, ⟨6, 7⟩, "a", some .word⟩ ::
        [⟨3, ⟨7, 11⟩, "[10]", some .bracket⟩]) := by decide +kernel
  have hnames : Names ([] ++ ⟨0, ⟨0, 5⟩, "foo_t", some .word⟩ :: []) false :=
    .defined (by simp) ⟨⟨⟨rfl, by decide, all_eq_true.mp rfl⟩, by decide⟩, rfl⟩ rfl (by simp)
  obtain ⟨-, hiff⟩ := ofParameter_declares_iff hnames (forall_mem_nil _)
    ⟨⟨⟨rfl, by decide, all_eq_true.mp rfl⟩, by decide⟩, rfl⟩ (by decide)
    (forall_mem_singleton.mpr ⟨rfl, rfl⟩) hcode .blank
  exact fun h => by simpa [EndsBefore] using hiff.mp h

end Variable

end CBoundary
