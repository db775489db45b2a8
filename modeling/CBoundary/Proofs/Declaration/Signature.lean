import CBoundary.Proofs.Declaration.Declarator

/-!
# Function definitions

The name of a function is the word in front of the arguments, the last word of the type, or a word
in parentheses.  It is taken in with the type if no star keeps it apart, and then it is given back.
-/

namespace CBoundary

open Text List Declaration

/-! ## Brackets -/

theorem Token.isLongName_of_head? {t : Token} {c : Char} (h : t.chars.head? = some c)
    (hc : isNameStart c = false) : t.isLongName = false := by
  obtain ⟨cs, hchars⟩ := head?_eq_some_iff.mp h
  rw [isLongName, hchars, Text.isLongName, hc, Bool.false_and]

namespace Token.StandsIn

variable {s : List Char} {base : Int} {t : Token}

theorem startsWith_paren_iff (h : t.StandsIn s base) :
    t.startsWith '(' = true ↔ t.kind = .paren := by
  rw [h.kind_eq, Kind.ofText_eq_iff_head? (o := '(') (by decide)]
  exact beq_iff_eq

theorem all_isWordChar (h : t.StandsIn s base) (hkind : t.kind = .word) :
    ∀ c ∈ t.chars, isWordChar c = true := by
  obtain ⟨c, cs, hchars, hc⟩ := Kind.exists_cons_of_word (h.kind_eq.symm.trans hkind)
  apply h.word
  change t.chars = c :: cs at hchars
  rwa [hchars, head?_cons]

end Token.StandsIn

/-! ## Words of types -/

namespace Declaration

variable {ts : List Token}

/-- Does the token stay without qualifiers? -/
def isKept (t : Token) : Bool := !(t.value == "const" || t.value == "static")

theorem dropIgnored_true (ts : List Token) :
    dropIgnored true ts = (dropIgnored false ts).filter isKept := by
  fun_induction dropIgnored true ts with
  | case1 => rfl
  | case2 t ht => rw [dropIgnored, if_pos ht, filter_nil]
  | case3 t ht hq => rw [dropIgnored, if_neg ht, Bool.false_and, if_neg Bool.false_ne_true,
      filter_cons_of_neg (by simpa [isKept, or_iff_not_imp_left] using hq), filter_nil]
  | case4 t ht hq => rw [dropIgnored, if_neg ht, Bool.false_and, if_neg Bool.false_ne_true,
      filter_cons_of_pos (by simpa [isKept] using hq), filter_nil]
  | case5 t u ts ht hu ih => rw [dropIgnored, if_pos ht, if_pos hu, ih]
  | case6 t u ts ht hu ih => rw [dropIgnored, if_pos ht, if_neg hu, ih]
  | case7 t u ts ht hq ih => rw [dropIgnored, if_neg ht, Bool.false_and, if_neg Bool.false_ne_true,
      filter_cons_of_neg (by simpa [isKept, or_iff_not_imp_left] using hq), ih]
  | case8 t u ts ht hq ih => rw [dropIgnored, if_neg ht, Bool.false_and, if_neg Bool.false_ne_true,
      filter_cons_of_pos (by simpa [isKept] using hq), ih]

theorem isKept_of_head? {t : Token} {c : Char} (h : t.chars.head? = some c)
    (hc : isNameStart c = false) : isKept t = true := by
  have hne (word : String) (hword : word.toList.head?.any isNameStart = true) :
      (t.value == word) = false := by
    apply beq_eq_false_iff_ne.mpr
    rintro rfl
    rw [← Token.chars, h, Option.any_some, hc] at hword
    cases hword
  rw [isKept, hne "const" (by decide), hne "static" (by decide)]
  rfl

/-- Words and array suffixes make up a type. -/
def IsTypePart (t : Token) : Prop := t.kind = .word ∨ t.kind = .bracket

theorem exists_trailingType {builtin : Bool} {type : List Token} {i : Int}
    (hname : (trailingType builtin type i ts).name = none)
    (htype : (trailingType builtin type i ts).type ≠ []) :
    ∃ words rest, ts = words ++ rest ∧ (trailingType builtin type i ts).type = type ++ words ∧
      (trailingType builtin type i ts).next = i + words.length ∧ ∀ t ∈ words, IsTypePart t := by
  fun_induction trailingType builtin type i ts with
  | case1 type i | case2 type i t ts ht hbuiltin =>
    rw [getLast?_eq_none_iff] at hname
    exact absurd (congrArg dropLast hname) htype
  | case3 type i t ts ht hbuiltin ih =>
    obtain ⟨words, rest, rfl, htype, hnext, hwords⟩ := ih hname htype
    refine ⟨t :: words, rest, rfl, by rw [htype]; simp, by rw [hnext]; simp; omega, ?_⟩
    exact forall_mem_cons.mpr ⟨.inr (eq_of_beq ht), hwords⟩
  | case4 type i t ts ht hword => exact ⟨[], t :: ts, rfl, by simp, by simp, by simp⟩
  | case5 type i t ts ht hword ih =>
    obtain ⟨words, rest, rfl, htype, hnext, hwords⟩ := ih hname htype
    refine ⟨t :: words, rest, rfl, by rw [htype]; simp, by rw [hnext]; simp; omega, ?_⟩
    exact forall_mem_cons.mpr ⟨.inl (by simpa using hword), hwords⟩

theorem exists_splitType (hname : (splitType false ts).name = none)
    (htype : (splitType false ts).type ≠ []) (hnext : (splitType false ts).next < ts.length) :
    ∃ rest, ts = (splitType false ts).type ++ rest ∧
      (splitType false ts).next = (splitType false ts).type.length ∧
      ∀ t ∈ (splitType false ts).type, IsTypePart t := by
  unfold splitType at hname htype hnext ⊢
  by_cases hvoid : (ts.isEmpty || isVoid ts) = true
  · rw [if_pos hvoid] at htype
    exact absurd rfl htype
  rw [if_neg hvoid] at hname htype hnext ⊢
  obtain ⟨words, rest, hts, hwords, hlead, -, hstop⟩ := exists_leadingType false [] false 0 ts
  rw [filter_isSkipped_false] at hlead
  generalize leadingType false [] false 0 ts = lead at *
  obtain ⟨type, next, builtin⟩ := lead
  dsimp only at hname htype hnext hlead hstop ⊢
  subst hlead
  by_cases hlong : ts.length ≤ next
  · rw [if_pos hlong] at hnext
    exact absurd hnext (by dsimp only; omega)
  rw [if_neg hlong] at hname htype hnext ⊢
  rcases hstop with ⟨hstop, -⟩ | ⟨rfl, hstop, -⟩
  · rw [Nat.zero_add] at hstop
    subst hstop hts
    rw [drop_left] at hname htype hnext ⊢
    obtain ⟨more, rest', rfl, htrail, hi, hmore⟩ := exists_trailingType hname htype
    rw [htrail, hi]
    refine ⟨rest', (append_assoc ..).symm, by simp, ?_⟩
    intro t ht
    rcases mem_append.mp ht with ht | ht
    · exact .inl (hwords t ht)
    · exact hmore t ht
  · -- there are only words: the last of them is looked at again, and is the name
    rw [append_nil] at hts
    subst hts
    rcases eq_nil_or_concat ts with rfl | ⟨front, last, rfl⟩
    · exact absurd rfl hvoid
    · have hlast : last.kind = .word := hwords last (by simp)
      rw [hstop, concat_eq_append, length_append, length_singleton,
        Nat.zero_add, Nat.add_sub_cancel, drop_left] at hname
      simp [trailingType, hlast] at hname

end Declaration

/-! ## What makes a statement a function definition -/

namespace StatementKind

variable {k : StatementKind}

theorem isFunctionDef_ofLead (hk : k.isFunctionDef = false) (ts : List Token) :
    (ofLead k ts).1.isFunctionDef = false := by
  fun_induction ofLead k ts <;> simp_all

theorem callsFunction_append {front rest : List Token} {parens : Token}
    (hparens : parens.startsWith '(' = true) (hne : front ≠ [])
    (hfront : ∀ t ∈ front, t.startsWith '(' = false)
    (hrest : ∀ t ∈ rest, t.startsWith '(' = false) :
    k.callsFunction (front ++ parens :: rest) = front.getLast?.any Token.isLongName := by
  obtain ⟨first, front, rfl⟩ := exists_cons_of_ne_nil hne
  have hfind : (front ++ parens :: rest).findIdx? (fun t => t.startsWith '(') =
      some front.length := by
    rw [findIdx?_append, findIdx?_eq_none_iff.mpr
      fun t ht => hfront t (mem_cons_of_mem first ht), findIdx?_cons, hparens]
    simp
  have hbefore : (first :: (front ++ parens :: rest))[front.length]? =
      (first :: front).getLast? := by
    rw [← cons_append, getElem?_append_left (by simp), getLast?_eq_getElem?]
    simp
  have hbehind : (front ++ parens :: rest)[front.length + 1]? = rest[0]? := by
    rw [getElem?_append_right (by omega)]
    simp
  have hnext : rest[0]?.any (fun t => t.startsWith '(') = false := by
    cases rest with
    | nil => rfl
    | cons t rest => simpa using hrest t mem_cons_self
  unfold callsFunction
  simp only [cons_append, hfind, hbefore, hbehind]
  rw [hnext, Bool.and_false, Bool.or_false]

theorem isFunctionDef_ofCode {k' : StatementKind} {code : List Token}
    (hcall : ∀ k'' : StatementKind, k''.callsFunction code = false) (h : k.ofCode code = .ok k')
    (hk : k.isFunctionDef = false) : k'.isFunctionDef = false := by
  unfold ofCode at h
  cases htypedef : (code.head?.map Token.value).getD "" == "typedef" <;>
    simp only [htypedef, Bool.not_true, Bool.not_false, Bool.false_eq_true, ↓reduceIte, hcall] at h
  all_goals repeat' split at h
  all_goals cases h
  all_goals exact hk

theorem exists_callsFunction {ts : List Token} (h : ofTokens ts = .ok k)
    (hdef : k.isFunctionDef = true) :
    ∃ k' : StatementKind,
      k'.callsFunction (dropIgnored true (Tokens.code ts)) = true := by
  by_contra hnone
  have hcall (k' : StatementKind) :
      k'.callsFunction (dropIgnored true (Tokens.code ts)) = false := by
    simpa using fun h => hnone ⟨k', h⟩
  have hlead := isFunctionDef_ofLead (k := {}) rfl ts
  unfold ofTokens at h
  generalize ofLead {} ts = lead at h hlead
  refine absurd hdef (Bool.eq_false_iff.mp ?_)
  dsimp only at h hlead
  split at h
  · cases h
    exact hlead
  · split at h
    · cases h
      exact hlead
    · cases h
      exact hlead
    · exact isFunctionDef_ofCode hcall h hlead

end StatementKind

/-! ## Names -/

namespace FunctionDecl

variable {ts type : List Token} {s : List Char} {k : StatementKind}

theorem forall_ne_paren {body body' : Option Token} (h : secondParens body ts = (body', none)) :
    ∀ t ∈ ts, t.kind ≠ .paren := by
  fun_induction secondParens body ts with
  | case1 => simp
  | case2 body t ts ht => cases h
  | case3 body t ts ht hbrace ih | case4 body t ts ht hbrace ih =>
    exact forall_mem_cons.mpr ⟨by simpa using ht, ih h⟩

theorem kind_name_shape {sh : Shape} (h : shape? type ts = some sh) :
    sh.name.kind = .word ∨ sh.name = .empty ∨
      type.getLast? = some sh.name ∧ ∃ stars parens rest, ts = stars ++ parens :: rest ∧
        (∀ t ∈ stars, t.value = "*") ∧ parens.kind = .paren ∧ ∀ t ∈ rest, t.kind ≠ .paren := by
  unfold shape? at h
  split at h
  · cases h
  · rename_i t rest hdrop
    have hts : ts = (ts.takeWhile fun t => t.value == "*") ++ t :: rest := by
      rw [← hdrop, takeWhile_append_dropWhile]
    have hstars : ∀ t ∈ ts.takeWhile fun t => t.value == "*", t.value = "*" := by
      intro t ht
      exact eq_of_beq (all_eq_true.mp all_takeWhile t ht)
    split at h
    · rename_i hkind
      split at h
      · cases h
      · cases h
        exact .inl hkind
    · rename_i hkind
      cases h
      unfold unnamedShape
      split
      · rename_i body hsecond
        cases hlast : type.getLast? with
        | none => exact .inr (.inl rfl)
        | some t' => exact .inr (.inr ⟨rfl, _, t, rest, hts, hstars, hkind, forall_ne_paren hsecond⟩)
      · dsimp only
        split
        · rename_i name hfind
          exact .inl (by simpa using find?_some hfind)
        · exact .inr (.inl rfl)
    · cases h

theorem kind_getLast?_of_callsFunction
    {stars rest : List Token} {parens last : Token}
    (hcode : ∀ t ∈ type ++ (stars ++ parens :: rest), t.StandsIn s 0)
    (htype : ∀ t ∈ type, Declaration.IsTypePart t) (hstars : ∀ t ∈ stars, t.value = "*")
    (hparens : parens.kind = .paren) (hrest : ∀ t ∈ rest, t.kind ≠ .paren)
    (hlast : type.getLast? = some last)
    (hcall : k.callsFunction ((type ++ (stars ++ parens :: rest)).filter isKept) =
      true) : last.kind = .word := by
  rcases htype last (mem_of_getLast? hlast) with hword | hbracket
  · exact hword
  -- an array suffix is kept and is no name, so that nothing is called
  refine absurd hcall (Bool.eq_false_iff.mp ?_)
  obtain ⟨front, rfl⟩ := getLast?_eq_some_iff.mp hlast
  have hbracket : last.chars.head? = some '[' := by
    rw [(hcode last (by simp)).kind_eq] at hbracket
    exact (Kind.ofText_eq_iff_head? (by decide)).mp hbracket
  have hparen : parens.startsWith '(' = true :=
    ((hcode parens (by simp)).startsWith_paren_iff).mpr hparens
  have hstar : ∀ t ∈ stars, t.chars.head? = some '*' := by
    intro t ht
    rw [Token.chars, hstars t ht]
    rfl
  have hnot : ∀ t ∈ front ++ [last] ++ (stars ++ parens :: rest), t.kind ≠ .paren →
      t.startsWith '(' = false := fun t ht hne =>
    Bool.eq_false_iff.mpr fun h => hne (((hcode t ht).startsWith_paren_iff).mp h)
  have hkept : (front ++ [last] ++ (stars ++ parens :: rest)).filter isKept =
      front.filter isKept ++ last :: stars ++
        parens :: rest.filter isKept := by
    rw [filter_append, filter_append, filter_append,
      filter_cons_of_pos (isKept_of_head? hbracket (by decide)),
      filter_cons_of_pos (isKept_of_head? (eq_of_beq hparen) (by decide)),
      filter_eq_self.mpr fun t ht => isKept_of_head? (hstar t ht) (by decide)]
    simp
  rw [hkept, StatementKind.callsFunction_append hparen (by simp)]
  · rw [getLast?_append_cons, getLast?_eq_some_getLast (cons_ne_nil _ _), Option.any_some]
    rcases mem_cons.mp (getLast_mem (cons_ne_nil last stars)) with h | h
    · exact Token.isLongName_of_head? (h ▸ hbracket) (by decide)
    · exact Token.isLongName_of_head? (hstar _ h) (by decide)
  · intro t ht
    rcases mem_append.mp ht with ht | ht
    · have hmem : t ∈ front := (mem_filter.mp ht).1
      apply hnot t (by simp [hmem])
      rcases htype t (by simp [hmem]) with h | h <;> simp [h]
    · rcases mem_cons.mp ht with rfl | ht
      · exact Bool.eq_false_iff.mpr fun h => by simp [Token.startsWith, hbracket] at h
      · exact Bool.eq_false_iff.mpr fun h => by simp [Token.startsWith, hstar t ht] at h
  · intro t ht
    have hmem : t ∈ rest := (mem_filter.mp ht).1
    exact hnot t (by simp [hmem]) (hrest t hmem)

theorem all_isWordChar_name {scope : Scope} {f : FunctionDecl} (hts : ∀ t ∈ ts, t.StandsIn s 0)
    (hk : StatementKind.ofTokens ts = .ok k) (hdef : k.isFunctionDef = true)
    (hf : ofTokens scope ts = some f) : ∀ c ∈ f.name.chars, isWordChar c = true := by
  unfold ofTokens at hf
  dsimp only at hf
  split at hf
  · cases hf
  rename_i hsplit
  obtain ⟨sh, hshape, rfl⟩ := Option.map_eq_some_iff.mp hf
  have hcode := standsIn_code hts
  rcases standsIn_name_splitType hcode hshape with hname | hname
  · apply hname.all_isWordChar
    rcases kind_name_shape hshape with
      hword | hempty | ⟨hlast, stars, parens, rest, hdrop, hstars, hparens, hrest⟩
    · exact hword
    · exact absurd (by rw [hempty]; rfl) hname.nonempty
    · obtain ⟨k', hcall⟩ := StatementKind.exists_callsFunction hk hdef
      rw [dropIgnored_true] at hcall
      generalize dropIgnored false (Tokens.code ts) = code at *
      simp only [Bool.or_eq_true, List.isEmpty_iff, decide_eq_true_eq, not_or, Int.not_le,
        Option.isSome_iff_ne_none, ne_eq, not_not] at hsplit
      obtain ⟨⟨hne, hnext⟩, hnone⟩ := hsplit
      obtain ⟨rest', htype, hstop, hparts⟩ := exists_splitType hnone hne hnext
      generalize splitType false code = split at *
      rw [hstop, Int.toNat_natCast, htype, drop_left] at hdrop
      subst hdrop
      rw [htype] at hcode hcall
      exact kind_getLast?_of_callsFunction hcode hparts hstars hparens hrest hlast hcall
  · rw [hname]
    exact forall_mem_nil _

end FunctionDecl

variable {words stars rest ts : List Token} {t name parens braces : Token}

namespace Declaration

theorem trailingType_append (hwords : ∀ u ∈ words, u.kind = .word) (ht : t.kind ≠ .word)
    (hbracket : t.kind ≠ .bracket) (builtin : Bool) (type : List Token) (i : Int) :
    trailingType builtin type i (words ++ t :: rest) = ⟨type ++ words, i + words.length, none⟩ := by
  induction words generalizing type i with
  | nil => simp [trailingType, ht, hbracket]
  | cons w words ih =>
    obtain ⟨hw, hwords⟩ := forall_mem_cons.mp hwords
    rw [cons_append, trailingType, if_neg (by simp [hw]), if_neg (by simp [hw]), ih hwords]
    simp
    omega

theorem splitType_append (hne : words ≠ []) (hwords : ∀ u ∈ words, u.kind = .word)
    (ht : t.kind ≠ .word) (hbracket : t.kind ≠ .bracket) :
    splitType false (words ++ t :: rest) = ⟨words, words.length, none⟩ := by
  obtain ⟨front, back, hts, hfront, htype, -, hnext⟩ :=
    exists_leadingType false [] false 0 (words ++ t :: rest)
  rw [filter_isSkipped_false] at htype
  obtain ⟨more, rfl, rfl⟩ : ∃ more, words = front ++ more ∧ back = more ++ t :: rest := by
    rcases append_eq_append_iff.mp hts with ⟨more, rfl, hrest⟩ | ⟨more, rfl, rfl⟩
    · cases more with
      | nil => exact ⟨[], by simp, by simpa using hrest.symm⟩
      | cons u more => exact absurd (hfront t (by simp [(cons.inj hrest).1])) ht
    · exact ⟨more, rfl, rfl⟩
  obtain ⟨hnext, -⟩ := hnext.resolve_right fun h => by simp at h
  have hvoid : isVoid (front ++ more ++ t :: rest) = false := by
    obtain ⟨w, ws, hws⟩ := exists_cons_of_ne_nil hne
    rw [hws]
    cases ws <;> rfl
  rw [splitType, hvoid, Bool.or_false, if_neg (by simp)]
  dsimp only
  rw [hnext, htype, if_neg (by simp only [length_append, length_cons]; omega), Nat.zero_add,
    append_assoc, drop_left, trailingType_append (forall_mem_append.mp hwords).2 ht hbracket]
  simp

end Declaration

namespace FunctionDecl

theorem exists_ofTokens_of_shape {sh : Shape} (hne : words ≠ [])
    (hwords : ∀ u ∈ words, u.kind = .word) (ht : t.kind ≠ .word) (hbracket : t.kind ≠ .bracket)
    (hcode : Declaration.dropIgnored false (Tokens.code ts) = words ++ t :: rest)
    (hshape : shape? words (t :: rest) = some sh) (scope : Scope) :
    ∃ f, ofTokens scope ts = some f ∧ f.name = sh.name ∧ f.args = sh.args ∧
      f.body = (sh.body <|> (sh.rest.find? fun t => t.kind == .brace).map Token.interior) ∧
      f.type = sh.type.filter (fun t => t.value != "const" && t.value != "static") ∧
      f.isConst = sh.type.any (fun t => t.value == "const") ∧
      f.isStatic = sh.type.any fun t => t.value == "static" := by
  unfold ofTokens
  dsimp only
  rw [hcode, Declaration.splitType_append hne hwords ht hbracket]
  have hlong : ¬((words ++ t :: rest).length : Int) ≤ words.length := by
    simp only [length_append, length_cons]
    omega
  rw [decide_eq_false hlong, if_neg (by simp [hne]), Int.toNat_natCast, drop_left, hshape,
    Option.map_some]
  exact ⟨_, rfl, rfl, rfl, rfl, rfl, rfl, rfl⟩

/-- The tokens of a function definition: words of a type, stars, a name, arguments and a body. -/
structure IsDefinition (words stars : List Token) (name parens braces : Token) : Prop where
  nonempty : words ≠ []
  words : ∀ t ∈ words, t.IsWord
  stars : ∀ t ∈ stars, t.IsStar
  name : name.IsWord
  parens : parens.Opens .paren '('
  braces : braces.Opens .brace '\x7b'

theorem IsDefinition.exists_ofTokens (h : IsDefinition words stars name parens braces)
    (hcode : Declaration.dropIgnored false (Tokens.code ts) =
      words ++ (stars ++ [name, parens, braces])) (scope : Scope) :
    ∃ f, ofTokens scope ts = some f ∧ f.name = name ∧ f.args = parens.interior ∧
      f.body = some braces.interior ∧
      f.type = words.filter (fun t => t.value != "const" && t.value != "static") ∧
      f.isConst = words.any (fun t => t.value == "const") ∧
      f.isStatic = words.any fun t => t.value == "static" := by
  have hwords : ∀ u ∈ words, u.kind = .word := fun u hu => (h.words u hu).kind
  have hstar : (parens.value == "*") = false := beq_eq_false_iff_ne.mpr fun hvalue => by
    have hhead := h.parens.head
    rw [Token.chars, hvalue] at hhead
    cases hhead
  obtain ⟨hne, -, hstars, hname, hparens, hbraces⟩ := h
  cases stars with
  | nil =>
    have hshape : shape? (words ++ [name]) [parens, braces] =
        some ⟨words, name, parens.interior, some braces.interior, []⟩ := by
      simp [shape?, unnamedShape, secondParens, hparens.kind, hbraces.kind, hstar]
    exact exists_ofTokens_of_shape (by simp) (forall_mem_append.mpr
      ⟨hwords, forall_mem_singleton.mpr hname.kind⟩) (by simp [hparens.kind])
      (by simp [hparens.kind]) (by rw [hcode]; simp) hshape scope
  | cons star stars =>
    have hkind := (hstars star mem_cons_self).kind
    have hnamed : (name.value == "*") = false := beq_eq_false_iff_ne.mpr (hname.value_ne rfl)
    have hshape : shape? words (star :: (stars ++ [name, parens, braces])) =
        some ⟨words, name, parens.interior, none, [braces]⟩ := by
      rw [shape?, ← cons_append, dropWhile_append_of_pos fun t ht => by simp [(hstars t ht).value],
        dropWhile_cons_of_neg (by simp [hnamed])]
      simp [hname.kind, hparens.kind]
    obtain ⟨f, hf, hparts⟩ := exists_ofTokens_of_shape hne hwords (by simp [hkind])
      (by simp [hkind]) hcode hshape scope
    exact ⟨f, hf, by simpa [hbraces.kind] using hparts⟩

theorem ofStatement_eq {f : FunctionDecl} {scope : Scope} (h : ofTokens scope ts = some f) :
    ofStatement scope ts = .ok (some f) := by
  cases ts with
  | nil => simp [ofTokens, Tokens.code, Declaration.dropIgnored, Declaration.splitType] at h
  | cons t ts => rw [ofStatement, h]; rfl

/-- **Function definitions.** Words of a type, stars, a name, arguments and a body are read as a
function with that name, the insides of the brackets, and the words without qualifiers, which the
function tells. -/
theorem ofStatement_definition (h : IsDefinition words stars name parens braces)
    (hfree : ∀ t ∈ name :: words, t.value ∉ Keyword.ignored)
    (hcode : Tokens.code ts = words ++ (stars ++ [name, parens, braces])) (scope : Scope) :
    ∃ f, ofStatement scope ts = .ok (some f) ∧ f.name = name ∧ f.args = parens.interior ∧
      f.body = some braces.interior ∧
      f.type = words.filter (fun t => t.value != "const" && t.value != "static") ∧
      f.isConst = words.any (fun t => t.value == "const") ∧
      f.isStatic = words.any fun t => t.value == "static" := by
  have hdrop : Declaration.dropIgnored false (Tokens.code ts) =
      words ++ (stars ++ [name, parens, braces]) := by
    rw [hcode]
    refine Declaration.dropIgnored_eq_self ?_ (by simp)
    simp only [forall_mem_append, forall_mem_cons] at hfree ⊢
    refine ⟨hfree.2, fun t ht => ?_, hfree.1, ?_, ?_, forall_mem_nil _⟩
    · rw [(h.stars t ht).value]
      decide
    · exact parens.value_not_mem h.parens.head rfl (by decide)
    · exact braces.value_not_mem h.braces.head rfl (by decide)
  obtain ⟨f, hf, hparts⟩ := h.exists_ofTokens hdrop scope
  exact ⟨f, ofStatement_eq hf, hparts⟩

/-- A star and a comment stand between type and name. -/
theorem ofStatement_definition_pointer : ∃ f,
    ofStatement .blank (Token.scan "static char */*x*/f(void)\x7b\x7d".toList 0) = .ok (some f) ∧
      f.name.value = "f" ∧ f.isStatic = true := by
  have hcode : Tokens.code (Token.scan "static char */*x*/f(void)\x7b\x7d".toList 0) =
      [⟨0, ⟨0, 6⟩, "static", some .word⟩, ⟨2, ⟨7, 11⟩, "char", some .word⟩] ++
        ([⟨4, ⟨12, 13⟩, "*", some .operator⟩] ++ [⟨6, ⟨18, 19⟩, "f", some .word⟩,
          ⟨7, ⟨19, 25⟩, "(void)", some .paren⟩, ⟨8, ⟨25, 27⟩, "\x7b\x7d", some .brace⟩]) := by
    decide +kernel
  have hwords : ∀ t ∈ [(⟨0, ⟨0, 6⟩, "static", some .word⟩ : Token), ⟨2, ⟨7, 11⟩, "char", some .word⟩],
      t.IsWord := forall_mem_cons.mpr ⟨⟨rfl, by decide, all_eq_true.mp rfl⟩,
        forall_mem_singleton.mpr ⟨rfl, by decide, all_eq_true.mp rfl⟩⟩
  obtain ⟨f, hf, hname, -, -, -, -, hstatic⟩ := ofStatement_definition
    ⟨by simp, hwords, forall_mem_singleton.mpr ⟨rfl, rfl⟩, ⟨rfl, by decide, all_eq_true.mp rfl⟩,
      ⟨rfl, rfl⟩, ⟨rfl, rfl⟩⟩ (by decide) hcode .blank
  exact ⟨f, hf, by rw [hname], by rw [hstatic]; rfl⟩

end FunctionDecl

end CBoundary
