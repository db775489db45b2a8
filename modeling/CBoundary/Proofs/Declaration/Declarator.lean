import CBoundary.Proofs.Declaration.Place
import CBoundary.Proofs.Statement.Grouping

/-!
# Declarators

A declaration starts with the words of a type, and each of its declarators spells a name.  A
definition is read from its end, and so the name is found whatever stands in front of it; what
is left are the words of the type.
-/

namespace CBoundary

open Text List Token Variable

variable {t name : Token} {c : Char} {words stars ts : List Token}

/-- Words that can neither be names nor words of a type. -/
def Keyword.reserved : List String := "typedef" :: (qualifiers ++ statements ++ ignored)

namespace Token

/-- A token that is a word. -/
structure IsWord (t : Token) : Prop where
  kind : t.kind = .word
  nonempty : t.chars ≠ []
  chars : ∀ c ∈ t.chars, isWordChar c = true

/-- A qualifier or a word of a type. -/
structure IsTypeWord (t : Token) : Prop extends t.IsWord where
  free : t.isQualifier = false → t.value ∉ Keyword.reserved

/-- A name, or a word of a type. -/
structure IsFree (t : Token) : Prop extends t.IsTypeWord where
  isQualifier : t.isQualifier = false

/-- A star of a declarator. -/
abbrev IsStar (t : Token) : Prop := t.Spells .operator "*"

/-- An array suffix. -/
abbrev IsSuffix (t : Token) : Prop := t.Opens .bracket '['

end Token

/-- The tokens of a declarator, and the one with the name: a word, or parentheses before arguments.
-/
inductive Declarator : List Token → Token → Prop where
  | plain {stars suffixes : List Token} {name : Token} (hstars : ∀ t ∈ stars, t.IsStar)
      (hname : name.IsWord) (hsuffixes : ∀ t ∈ suffixes, t.IsSuffix) :
      Declarator (stars ++ name :: suffixes) name
  | pointer {stars : List Token} {target arguments : Token} (hstars : ∀ t ∈ stars, t.IsStar)
      (htarget : target.Opens .paren '(') (harguments : arguments.Opens .paren '(') :
      Declarator (stars ++ [target, arguments]) target

/-! ## How tokens start -/

namespace Token

theorem IsWord.startsWith_eq_false (h : t.IsWord) (hc : isWordChar c = false) :
    t.startsWith c = false := by
  refine beq_eq_false_iff_ne.mpr fun hhead => ?_
  rw [h.chars c (mem_of_mem_head? hhead)] at hc
  cases hc

theorem IsWord.value_ne (h : t.IsWord) {mark : String}
    (hmark : mark.toList.all isWordChar = false) : t.value ≠ mark := by
  rintro rfl
  exact absurd (all_eq_true.mpr h.chars) (ne_true_of_eq_false hmark)

theorem IsFree.of_not_mem (hkind : t.kind = .word) (hchars : t.chars.all isWordChar = true)
    (hne : t.chars ≠ []) (hfree : t.value ∉ Keyword.reserved) : t.IsFree := by
  refine ⟨⟨⟨hkind, hne, all_eq_true.mp hchars⟩, fun _ => hfree⟩, ?_⟩
  simp only [Keyword.reserved, mem_cons, mem_append, not_or] at hfree
  simp [Token.isQualifier, hfree]

/-- A quiet token of code, as declarations are made of. -/
structure IsPart (t : Token) : Prop extends t.IsQuiet where
  code : t.kind ∈ [Kind.word, Kind.operator, Kind.paren, Kind.bracket]
  statement : t.value ∉ Keyword.statements

theorem IsTypeWord.isPart (h : t.IsTypeWord) : t.IsPart := by
  have hvalue : t.value ∉ "typedef" :: Keyword.statements := fun hmem => by
    have hq : t.isQualifier = false := by
      simpa [Token.isQualifier] using
        (by decide : ∀ w ∈ "typedef" :: Keyword.statements, w ∉ Keyword.qualifiers) t.value hmem
    exact h.free hq ((by decide : "typedef" :: Keyword.statements ⊆ Keyword.reserved) hmem)
  refine ⟨⟨by rw [h.kind]; decide, by simp [h.kind], fun c hc => ?_, fun hmem => hvalue ?_⟩,
    by rw [h.kind]; decide, fun hmem => hvalue (mem_cons_of_mem _ hmem)⟩
  · refine h.startsWith_eq_false ?_
    simp only [mem_cons, not_mem_nil, or_false] at hc
    rcases hc with rfl | rfl | rfl | rfl <;> decide
  · exact (by decide : ["if", "do", "typedef"] ⊆ "typedef" :: Keyword.statements) hmem

theorem Opens.isPart {kind : Kind} (h : t.Opens kind c)
    (hkind : (kind, c) ∈ [(.operator, '*'), (.paren, '('), (.bracket, '[')])
    (hstar : kind = .operator → t.value = "*") : t.IsPart ∧ t.value ∉ Keyword.reserved := by
  have hc : isWordChar c = false ∧ c ∉ [';', ',', '\x7b', '='] ∧
      kind ∉ [Kind.invalid, Kind.comment, Kind.directive] ∧
      kind ∈ [Kind.word, Kind.operator, Kind.paren, Kind.bracket] := by
    simp only [mem_cons, Prod.mk.injEq, not_mem_nil, or_false] at hkind
    rcases hkind with ⟨rfl, rfl⟩ | ⟨rfl, rfl⟩ | ⟨rfl, rfl⟩ <;> decide
  exact ⟨⟨⟨h.kind ▸ hc.2.2.1, h.kind ▸ hstar, startsWith_eq_false h.head hc.2.1,
    t.value_not_mem h.head hc.1 (by decide)⟩, h.kind ▸ hc.2.2.2,
    t.value_not_mem h.head hc.1 (by decide)⟩, t.value_not_mem h.head hc.1 (by decide)⟩

end Token

theorem Declarator.isPart {d : List Token} (h : Declarator d name)
    (hname : name.IsWord → name.IsFree) : ∀ t ∈ d, t.IsPart ∧ t.value ∉ Keyword.reserved := by
  have hstar : ∀ t : Token, t.IsStar → t.IsPart ∧ t.value ∉ Keyword.reserved := fun t ht =>
    (show t.Opens .operator '*' from ht.opens).isPart (by simp) fun _ => ht.value
  cases h with
  | plain hstars hword hsuffixes =>
    refine forall_mem_append.mpr ⟨fun t ht => hstar t (hstars t ht), forall_mem_cons.mpr
      ⟨⟨(hname hword).isPart, (hname hword).free (hname hword).isQualifier⟩, fun t ht => ?_⟩⟩
    exact (hsuffixes t ht).isPart (by simp) (by simp)
  | pointer hstars htarget harguments =>
    refine forall_mem_append.mpr ⟨fun t ht => hstar t (hstars t ht), forall_mem_cons.mpr
      ⟨htarget.isPart (by simp) (by simp), forall_mem_singleton.mpr ?_⟩⟩
    exact harguments.isPart (by simp) (by simp)

/-! ## Words that are dropped -/

namespace Declaration

/-- The words of a type without qualifiers. -/
def bareWords (words : List Token) : List Token := words.filter fun t => !t.isQualifier

/-- Does the token stay in a declaration? -/
def stays (t : Token) : Bool := !(Keyword.ignored ++ ["const", "static"]).contains t.value

theorem stays_iff :
    stays t = true ↔ t.value ∉ Keyword.ignored ∧ ¬(t.value = "const" ∨ t.value = "static") := by
  simp [stays]

theorem stays_of_free (h : t.value ∉ Keyword.reserved) : stays t = true := by
  simpa [stays] using fun hmem =>
    h ((by decide : Keyword.ignored ++ ["const", "static"] ⊆ Keyword.reserved) hmem)

theorem dropIgnored_cons {b : Bool} (h : t.value ∉ Keyword.ignored)
    (hb : b = true → ¬(t.value = "const" ∨ t.value = "static")) :
    dropIgnored b (t :: ts) = t :: dropIgnored b ts := by
  cases ts <;> cases b <;> simp_all [dropIgnored]

theorem dropIgnored_eq_self {b : Bool} (h : ∀ t ∈ ts, t.value ∉ Keyword.ignored)
    (hb : b = true → ∀ t ∈ ts, ¬(t.value = "const" ∨ t.value = "static")) :
    dropIgnored b ts = ts := by
  induction ts with
  | nil => rfl
  | cons t ts ih =>
    rw [dropIgnored_cons (h t mem_cons_self) fun hq => hb hq t mem_cons_self,
      ih (forall_mem_cons.mp h).2 fun hq => (forall_mem_cons.mp (hb hq)).2]

theorem mem_dropIgnored (ht : t ∈ ts) (hstays : stays t = true) (hkind : t.kind ≠ .paren) :
    t ∈ dropIgnored true ts := by
  obtain ⟨hignored, hqualifier⟩ := stays_iff.mp hstays
  fun_induction dropIgnored true ts with
  | case1 => cases ht
  | _ => grind

end Declaration

/-! ## Reading from the end -/

namespace Variable

/-- A star or an array suffix. -/
def isSuffix (t : Token) : Bool := t.startsWith '*' || t.startsWith '['

theorem isSuffix_eq (h : t.chars.head? = some c) : isSuffix t = (c == '*' || c == '[') := by
  rw [isSuffix, startsWith_eq h, startsWith_eq h]

theorem dropSuffixes_append {rear : List Token} (h : ∀ t ∈ rear, isSuffix t = true) :
    dropSuffixes (ts ++ rear) = dropSuffixes ts := by
  unfold dropSuffixes
  rw [reverse_append, dropWhile_append_of_pos]
  exact fun t ht => h t (mem_reverse.mp ht)

theorem dropSuffixes_concat (ts : List Token) (h : isSuffix t = false) :
    dropSuffixes (ts ++ [t]) = ts ++ [t] := by
  unfold dropSuffixes
  rw [reverse_concat, dropWhile_cons_of_neg (by rw [← isSuffix, h]; decide), ← reverse_concat,
    reverse_reverse]

theorem dropArguments_concat (ts : List Token) (t : Token) :
    dropArguments (ts ++ [t]) = if t.startsWith '(' then ts else ts ++ [t] := by
  rw [dropArguments, getLast?_concat, Option.any_some, dropLast_concat]

/-- What follows a declarator: nothing, or an equals sign with something behind it. -/
inductive IsInitializer : List Token → Prop where
  | nothing : IsInitializer []
  | value {mark : Token} {e : List Token} (hmark : mark.value = "=") (he : e ≠ []) :
      IsInitializer (mark :: e)

theorem beforeInitializer_append {init : List Token} (hts : ts ≠ [])
    (h : ∀ t ∈ ts, t.startsWith '=' = false) (hinit : IsInitializer init) :
    beforeInitializer (ts ++ init) = ts := by
  have hvalue : ∀ u ∈ ts, (u.value == "=") = false := fun u hu =>
    beq_eq_false_iff_ne.mpr fun hvalue => by
      have hstart := h u hu
      rw [startsWith, Token.chars, hvalue] at hstart
      cases hstart
  unfold beforeInitializer
  cases hinit with
  | nothing =>
    rw [append_nil, findIdx?_eq_none_iff.mpr fun u hu =>
      hvalue u (mem_of_mem_drop ((dropLast_sublist _).subset hu))]
  | value hmark he =>
    obtain ⟨t, ts, rfl⟩ := exists_cons_of_ne_nil hts
    rw [cons_append, drop_succ_cons, drop_zero, dropLast_append_of_ne_nil (cons_ne_nil _ _),
      dropLast_cons_of_ne_nil he, findIdx?_append,
      findIdx?_eq_none_iff.mpr (forall_mem_cons.mp hvalue).2]
    simp [findIdx?_cons, hmark]

theorem terminatorOf_append {front rear : List Token} {last : Token}
    (hlast : last.kind = .separator) (hvalue : last.value = "," ∨ last.value = ";")
    (hrear : ∀ t ∈ rear, t.kind = .space ∨ t.kind = .comment) :
    terminatorOf (front ++ last :: rear) = some last.value := by
  have hnone : rear.reverse.find? (fun t => t.kind != .space && t.kind != .comment) = none :=
    find?_eq_none.mpr fun t ht => by
      rcases hrear t (mem_reverse.mp ht) with h | h <;> simp [h]
  rw [terminatorOf, reverse_append, reverse_cons, find?_append, find?_append, hnone]
  simp [hlast, hvalue]

end Variable

namespace Declarator

variable {d : List Token}

theorem exists_stars (hd : Declarator d name) (words : List Token) :
    ∃ stars, (∀ t ∈ stars, t.IsStar) ∧ dropSuffixes (dropArguments
      (dropSuffixes (words ++ d))) = words ++ stars ++ [name] := by
  cases hd with
  | @plain stars _ _ hstars hname hsuffixes =>
    have hsuffix : isSuffix name = false := by
      rw [isSuffix, hname.startsWith_eq_false rfl, hname.startsWith_eq_false rfl]; rfl
    refine ⟨stars, hstars, ?_⟩
    rw [← append_assoc, append_cons, dropSuffixes_append fun t ht =>
        isSuffix_eq (hsuffixes t ht).head, dropSuffixes_concat _ hsuffix,
      dropArguments_concat, hname.startsWith_eq_false rfl, if_neg Bool.false_ne_true,
      dropSuffixes_concat _ hsuffix]
  | @pointer stars _ _ hstars htarget harguments =>
    refine ⟨stars, hstars, ?_⟩
    rw [← append_assoc, append_cons,
      dropSuffixes_concat _ (isSuffix_eq harguments.head),
      dropArguments_concat, if_pos (show _ = true from startsWith_eq harguments.head _),
      dropSuffixes_concat _ (isSuffix_eq htarget.head)]

theorem mem_and_starts (hd : Declarator d name) :
    name ∈ d ∧ name.value ≠ "..." ∧ ∀ t ∈ d, t.startsWith '=' = false := by
  have hstar : ∀ t : Token, t.IsStar → t.startsWith '=' = false := fun t ht =>
    startsWith_eq (show t.Opens .operator '*' from ht.opens).head _
  cases hd with
  | plain hstars hname hsuffixes =>
    exact ⟨by simp, hname.value_ne rfl, forall_mem_append.mpr ⟨fun t ht => hstar t (hstars t ht),
      forall_mem_cons.mpr ⟨hname.startsWith_eq_false rfl, fun t ht =>
        startsWith_eq (hsuffixes t ht).head _⟩⟩⟩
  | pointer hstars htarget harguments =>
    refine ⟨by simp, fun hdots => ?_, forall_mem_append.mpr ⟨fun t ht => hstar t (hstars t ht),
      forall_mem_cons.mpr ⟨startsWith_eq htarget.head _,
        forall_mem_singleton.mpr (startsWith_eq harguments.head _)⟩⟩⟩
    have hhead := htarget.head
    rw [Token.chars, hdots] at hhead
    cases hhead

end Declarator

/-! ## Names and types -/

theorem Token.IsWord.onlyWordChars_eq (h : t.IsWord) : onlyWordChars t.value = t.value := by
  have hchars := onlyWordChars_ofList h.chars
  rwa [Token.chars, String.ofList_toList] at hchars

theorem Token.onlyWordChars_eq_iff {front word rear : List Char}
    (hchars : t.chars = front ++ (word ++ rear)) (hword : ∀ c ∈ word, isWordChar c = true) :
    onlyWordChars t.value = String.ofList word ↔
      ∀ c ∈ front ++ rear, isWordCharOfAnyScript c = false := by
  have hkept : word.filter isWordCharOfAnyScript = word := filter_eq_self.mpr fun c hc => by
    rw [isWordCharOfAnyScript_of_lt (toNat_lt_of_isWordChar (hword c hc)), hword c hc]
  have hnone : ∀ l : List Char, l.filter isWordCharOfAnyScript = [] ↔
      ∀ c ∈ l, isWordCharOfAnyScript c = false := fun l => by simp
  unfold onlyWordChars
  rw [String.ofList_inj, ← Token.chars, hchars, filter_append, filter_append, hkept,
    forall_mem_append, ← hnone, ← hnone]
  constructor
  · intro h
    have hlength := congrArg length h
    rw [length_append, length_append] at hlength
    exact ⟨eq_nil_of_length_eq_zero (by omega), eq_nil_of_length_eq_zero (by omega)⟩
  · rintro ⟨hfront, hrear⟩
    rw [hfront, hrear, nil_append, append_nil]

theorem typeWords_append_stars (hwords : ∀ t ∈ words, t.IsWord) (hstars : ∀ t ∈ stars, t.IsStar) :
    Declaration.typeWords (words ++ stars) = Declaration.bareWords words := by
  have hnone : stars.filter (fun t => !t.isQualifier && t.value != "*") = [] :=
    filter_eq_nil_iff.mpr fun t ht => by simp [(hstars t ht).value]
  rw [Declaration.typeWords, Declaration.bareWords, filter_append, hnone, append_nil]
  refine filter_congr fun t ht => ?_
  rw [bne_iff_ne.mpr ((hwords t ht).value_ne rfl), Bool.and_true]

theorem Declarator.exists_ofDefinition {d init : List Token} (hd : Declarator d name)
    (hwords : ∀ t ∈ words, t.IsWord) (hvoid : name.value = "void" → words ++ d ≠ [name])
    (hinit : Variable.IsInitializer init) (hcode : Tokens.code ts = words ++ d ++ init)
    (scope : Scope) :
    ∃ v, ofDefinition scope ts = some v ∧
      v.name = { name with value := onlyWordChars name.value } ∧
      v.type = some (Declaration.bareWords words) ∧ v.terminator = terminatorOf ts := by
  obtain ⟨stars, hstars, hbare⟩ := hd.exists_stars words
  obtain ⟨hmem, hdots, hstarts⟩ := hd.mem_and_starts
  have hne : words ++ d ≠ [] := append_ne_nil_of_right_ne_nil _ (ne_nil_of_mem hmem)
  have hdeclares : Declaration.isVoid (words ++ d) = false := by
    unfold Declaration.isVoid
    split
    · rename_i t ht
      obtain rfl := mem_singleton.mp (ht ▸ mem_append_right words hmem)
      simpa [hdots] using fun h => hvoid h ht
    · rfl
  rw [ofDefinition, hcode, beforeInitializer_append hne (forall_mem_append.mpr
    ⟨fun t ht => (hwords t ht).startsWith_eq_false rfl, hstarts⟩) hinit]
  dsimp only
  rw [hdeclares, Bool.or_false, if_neg (by simpa using hne), hbare, getLast?_concat,
    dropLast_concat, typeWords_append_stars hwords hstars]
  exact ⟨_, rfl, rfl, rfl, rfl⟩

/-- **Definitions.** A definition declares the words in front of its declarator without qualifiers,
and keeps its separator. Its name is the one spelled exactly if the token that holds it makes no
word of its other characters, as a comment in the parentheses does. -/
theorem Variable.ofDefinition_names_iff {d init front rear : List Token} {last : Token}
    {left word right : List Char} (hwords : ∀ t ∈ words, t.IsWord) (hd : Declarator d name)
    (hvoid : name.value = "void" → words ++ d ≠ [name]) (hinit : IsInitializer init)
    (hchars : name.chars = left ++ (word ++ right)) (hword : ∀ c ∈ word, isWordChar c = true)
    (hts : ts = front ++ last :: rear) (hcode : Tokens.code ts = words ++ d ++ init)
    (hlast : last.kind = .separator) (hvalue : last.value = "," ∨ last.value = ";")
    (hrear : ∀ t ∈ rear, t.kind = .space ∨ t.kind = .comment) (scope : Scope) :
    ∃ v, ofDefinition scope ts = some v ∧ v.type = some (Declaration.bareWords words) ∧
      v.terminator = some last.value ∧ (v.name.value = String.ofList word ↔
        ∀ c ∈ left ++ right, isWordCharOfAnyScript c = false) := by
  obtain ⟨v, hv, hname, htype, hend⟩ := hd.exists_ofDefinition hwords hvoid hinit hcode scope
  refine ⟨v, hv, htype, ?_, ?_⟩
  · rw [hend, hts, terminatorOf_append hlast hvalue hrear]
  · rw [hname]
    exact onlyWordChars_eq_iff hchars hword

/-- A comment in front of the name goes into it. -/
theorem Variable.ofDefinition_names_iff_comment : ∃ v,
    ofDefinition .blank (Token.scan "const int (*/*x*/cb)(void) = 0; ".toList 0) = some v ∧
      v.name.value ≠ "cb" := by
  have hcode : Tokens.code (scan "const int (*/*x*/cb)(void) = 0; ".toList 0) =
      [⟨0, ⟨0, 5⟩, "const", some .word⟩, ⟨2, ⟨6, 9⟩, "int", some .word⟩] ++
        ([] ++ [⟨4, ⟨10, 20⟩, "(*/*x*/cb)", some .paren⟩, ⟨5, ⟨20, 26⟩, "(void)", some .paren⟩]) ++
        [⟨7, ⟨27, 28⟩, "=", some .operator⟩, ⟨9, ⟨29, 30⟩, "0", some .word⟩] := by decide +kernel
  have hts : scan "const int (*/*x*/cb)(void) = 0; ".toList 0 =
      (scan "const int (*/*x*/cb)(void) = 0; ".toList 0).take 10 ++
        ⟨10, ⟨30, 31⟩, ";", none⟩ :: [⟨11, ⟨31, 32⟩, " ", none⟩] := by decide +kernel
  have hword : ∀ t ∈ [⟨0, ⟨0, 5⟩, "const", some .word⟩, (⟨2, ⟨6, 9⟩, "int", some .word⟩ : Token)],
      t.IsWord := by
    refine forall_mem_cons.mpr ⟨⟨rfl, by decide, all_eq_true.mp rfl⟩, forall_mem_singleton.mpr ?_⟩
    exact ⟨rfl, by decide, all_eq_true.mp rfl⟩
  obtain ⟨v, hv, -, -, hiff⟩ := ofDefinition_names_iff hword
    (.pointer (forall_mem_nil _) ⟨rfl, rfl⟩ ⟨rfl, rfl⟩) (by simp) (.value rfl (by simp))
    (show _ = "(*/*x*/".toList ++ ("cb".toList ++ ")".toList) from rfl) (all_eq_true.mp rfl) hts
    hcode rfl (.inr rfl) (forall_mem_singleton.mpr (.inl rfl)) .blank
  refine ⟨v, hv, fun hname => ?_⟩
  have hx := hiff.mp hname 'x' (by decide)
  exact absurd hx (by decide)

end CBoundary
