import CBoundary.Proofs.Audit
import CBoundary.Proofs.Declaration.Tree
import CBoundary.Proofs.Declaration.TypeSplit
import CBoundary.Proofs.Token.Place
import CBoundary.Declaration.Function
import CBoundary.Macro.Basic

/-!
# Where declared names stand

A declaration keeps the scope in which it was read and the offset of its name in that scope.  For
functions and macros the name itself stands there, for a variable a token of which the name has the
word characters.  A record that has no name of its own is named after the start of its body.
-/

namespace CBoundary

open Text List

/-! ## Word characters -/

namespace Text

theorem toNat_lt_of_isWordChar {c : Char} (h : isWordChar c = true) : c.toNat < 0x80 := by
  have h' : c.isAlphanum = true ∨ c = '_' := by simpa [isWordChar] using h
  rcases h' with h' | rfl
  · have hval : c.val.toNat < 0x80 := by
      delta Char.isAlphanum Char.isAlpha Char.isUpper Char.isLower Char.isDigit at h'
      simp only [Bool.or_eq_true, Bool.and_eq_true, decide_eq_true_eq, UInt32.le_iff_toNat_le,
        ge_iff_le] at h'
      have hZ : 'Z'.val.toNat = 90 := rfl
      have hz : 'z'.val.toNat = 122 := rfl
      have hnine : '9'.val.toNat = 57 := rfl
      omega
    exact hval
  · decide

theorem onlyWordChars_ofList {w : List Char} (h : ∀ c ∈ w, isWordChar c = true) :
    onlyWordChars (String.ofList w) = String.ofList w := by
  rw [onlyWordChars, String.toList_ofList, filter_eq_self.mpr]
  intro c hc
  rw [isWordCharOfAnyScript_of_lt (toNat_lt_of_isWordChar (h c hc))]
  exact h c hc

end Text

/-- A name of at least two characters and no keyword of declarations can be a tag. -/
def Token.isTag (t : Token) : Bool := t.isLongName && !t.isQualifier && t.value != "typedef"

theorem Token.isTag_eq_false {t : Token} {word : String} (h : (t.value == word) = true)
    (hword : word ∈ "typedef" :: Keyword.qualifiers) : t.isTag = false := by
  have hvalue : t.value = word := eq_of_beq h
  rw [isTag, isQualifier, hvalue]
  rcases mem_cons.mp hword with rfl | hword
  · simp
  · simp [hword]

/-! ## Scopes and contexts -/

/-- The texts of files by their names. -/
abbrev Texts := String → Option (List Char)

namespace Scope

variable {texts : Texts} {sc : Scope} {i : Int}
variable {piece : List Char}

/-- The piece stands at an offset of the scope. -/
def Shows (texts : Texts) (sc : Scope) (i : Int) (piece : List Char) : Prop :=
  ∃ text, texts sc.file.name = some text ∧ StandsAt text (sc.offset + i) piece

/-- A token with those word characters stands there. -/
def ShowsWordsOf (texts : Texts) (sc : Scope) (i : Int) (name : String) : Prop :=
  ∃ token : List Char, token ≠ [] ∧ sc.Shows texts i token ∧
    name = onlyWordChars (String.ofList token) ∧
    (token.head?.any isWordChar = true → ∀ c ∈ token, isWordChar c = true)

/-- A body starts at an offset of the scope, with no tag before it in its statement. -/
def Untagged (texts : Texts) (sc : Scope) (i : Int) : Prop :=
  ∃ s, sc.Shows texts 0 s ∧ ∃ st ∈ Statement.scan s 0, ∃ front brace tail,
    st.tokens = front ++ brace :: tail ∧ brace.kind = .brace ∧ brace.span.start + 1 = i ∧
      ∀ t ∈ front, t.isTag = false

/-- The name of a record stands at an offset, or is made of the place where its body starts. -/
def ShowsTag (texts : Texts) (sc : Scope) (i : Int) (name : String) : Prop :=
  sc.Shows texts i name.toList ∨ (name = "(" ++ sc.location i ++ ")" ∧ sc.Untagged texts i)

theorem Shows.congr {sc' : Scope} (h : sc.Shows texts i piece)
    (hfile : sc'.file.name = sc.file.name) (hoffset : sc'.offset = sc.offset) :
    sc'.Shows texts i piece := by
  obtain ⟨text, htext, hplace⟩ := h
  exact ⟨text, hfile ▸ htext, hoffset ▸ hplace⟩

theorem Shows.trans {inner : List Char} {j : Int} (h : sc.Shows texts i piece)
    (h' : StandsAt piece j inner) : sc.Shows texts (i + j) inner := by
  obtain ⟨text, htext, hplace⟩ := h
  refine ⟨text, htext, ?_⟩
  rw [← Int.add_assoc]
  exact hplace.trans h'

theorem ShowsWordsOf.shows {name : String} {c : Char} (h : sc.ShowsWordsOf texts i name)
    (hc : isWordChar c = true) (hshows : sc.Shows texts i [c]) :
    sc.Shows texts i name.toList := by
  obtain ⟨token, hne, ⟨text, htext, hplace⟩, rfl, hwords⟩ := h
  obtain ⟨text', htext', hplace'⟩ := hshows
  have heq : text = text' := Option.some.inj (htext.symm.trans htext')
  subst heq
  have hhead : token.head? = some c :=
    (hplace.getElem? hne).symm.trans (hplace'.getElem? (cons_ne_nil c []))
  have hall := hwords (by rw [hhead]; exact hc)
  rw [onlyWordChars_ofList hall, String.toList_ofList]
  exact ⟨text, htext, hplace⟩

end Scope

namespace Context

variable {texts : Texts} {c : Context} {s : List Char}
variable {i : Int} {piece : List Char}

/-- The text of the innermost scope, as it stands in its file. -/
def Reads (texts : Texts) (c : Context) (s : List Char) : Prop :=
  c.scopes ≠ [] ∧ c.scope.Shows texts 0 s

theorem location_eq (h : c.scopes ≠ []) : c.location i = c.scope.location i := by
  unfold location scope
  cases hscopes : c.scopes with
  | nil => exact absurd hscopes h
  | cons sc scs => rfl

theorem Reads.shows (h : c.Reads texts s) (hpiece : StandsAt s i piece) :
    c.scope.Shows texts i piece := by
  have hshows := h.2.trans hpiece
  rwa [Int.zero_add] at hshows

theorem Reads.shows_token {t : Token} (h : c.Reads texts s) (ht : t.StandsIn s 0) :
    c.scope.Shows texts t.span.start t.chars := by
  have hplace := ht.place
  rw [Int.sub_zero] at hplace
  exact h.shows hplace

theorem Reads.enterPiece (h : c.Reads texts s) (hpiece : StandsAt s i piece) :
    (c.enterPiece i).Reads texts piece := by
  refine ⟨cons_ne_nil _ _, ?_⟩
  obtain ⟨text, htext, hplace⟩ := h.shows hpiece
  refine ⟨text, htext, ?_⟩
  rwa [Int.add_zero]

end Context

/-! ## Functions -/

namespace Declaration

variable {b : Bool} {ts : List Token} {t : Token}

theorem mem_of_mem_dropIgnored (h : t ∈ dropIgnored b ts) : t ∈ ts := by
  fun_induction dropIgnored b ts with
  | case1 => exact h
  | case2 u hu => cases h
  | case3 u hu hq => cases h
  | case4 u hu hq => exact h
  | case5 u v us hu hv ih => exact mem_cons_of_mem u (mem_cons_of_mem v (ih h))
  | case6 u v us hu hv ih => exact mem_cons_of_mem u (ih h)
  | case7 u v us hu hq ih => exact mem_cons_of_mem u (ih h)
  | case8 u v us hu hq ih =>
    rcases mem_cons.mp h with rfl | h
    · exact mem_cons_self
    · exact mem_cons_of_mem u (ih h)

theorem mem_of_mem_splitType (h : t ∈ (splitType b ts).type ++ (splitType b ts).name.toList) :
    t ∈ ts := by
  obtain ⟨words, rest, hts, -, htype, -⟩ := exists_leadingType b [] false 0 ts
  have hlead : ∀ u ∈ (leadingType b [] false 0 ts).type, u ∈ ts := by
    intro u hu
    rw [htype, nil_append] at hu
    exact hts ▸ mem_append_left rest (mem_of_mem_filter hu)
  unfold splitType at h
  split at h
  · cases h
  · dsimp only at h
    split at h
    · exact hlead t (by simpa using h)
    · rcases mem_append.mp ((isPrefix_trailingType ..).subset h) with h | h
      · exact hlead t h
      · exact mem_of_mem_drop h

end Declaration

namespace FunctionDecl

variable {s : List Char}
variable {parens : Token} {type ts : List Token}

theorem standsIn_of_mem_innerTokens {t : Token} (h : parens.StandsIn s 0)
    (ht : t ∈ innerTokens parens.interior) : t.StandsIn s 0 := by
  obtain ⟨u, hu, rfl⟩ := Tokens.mem_code (Declaration.mem_of_mem_dropIgnored (mem_reverse.mp ht))
  exact ((Token.standsIn_of_mem_scan hu).settled).trans h.interior

theorem standsIn_name_unnamedShape {rest : List Token} (htype : ∀ t ∈ type, t.StandsIn s 0)
    (hparens : parens.StandsIn s 0) :
    (unnamedShape type parens rest).name.StandsIn s 0 ∨
      (unnamedShape type parens rest).name = .empty := by
  unfold unnamedShape
  split
  · cases hlast : type.getLast? with
    | none => exact .inr rfl
    | some t => exact .inl (htype t (mem_of_getLast? hlast))
  · dsimp only
    split
    · rename_i t hfind
      exact .inl (standsIn_of_mem_innerTokens hparens (mem_of_find?_eq_some hfind))
    · exact .inr rfl

theorem standsIn_name_shape {sh : Shape} (htype : ∀ t ∈ type, t.StandsIn s 0)
    (hts : ∀ t ∈ ts, t.StandsIn s 0) (h : shape? type ts = some sh) :
    sh.name.StandsIn s 0 ∨ sh.name = .empty := by
  unfold shape? at h
  split at h
  · cases h
  · rename_i t rest hdrop
    have hmem : t ∈ ts.dropWhile fun t => t.value == "*" := by
      rw [hdrop]
      exact mem_cons_self
    have ht : t.StandsIn s 0 := hts t ((dropWhile_sublist _).subset hmem)
    split at h
    · split at h
      · cases h
      · cases h
        exact .inl ht
    · cases h
      exact standsIn_name_unnamedShape htype ht
    · cases h

theorem standsIn_code (h : ∀ t ∈ ts, t.StandsIn s 0) :
    ∀ t ∈ Declaration.dropIgnored false (Tokens.code ts), t.StandsIn s 0 := by
  intro t ht
  obtain ⟨u, hu, rfl⟩ := Tokens.mem_code (Declaration.mem_of_mem_dropIgnored ht)
  exact (h u hu).settled

theorem standsIn_name_splitType {sh : Shape} {n : Nat} (hts : ∀ t ∈ ts, t.StandsIn s 0)
    (h : shape? (Declaration.splitType false ts).type (ts.drop n) = some sh) :
    sh.name.StandsIn s 0 ∨ sh.name = .empty :=
  standsIn_name_shape
    (fun t ht => hts t (Declaration.mem_of_mem_splitType (mem_append_left _ ht)))
    (fun t ht => hts t (mem_of_mem_drop ht)) h

variable {texts : Texts} {c : Context}

theorem shows_name {f : FunctionDecl} (hc : c.Reads texts s) (hts : ∀ t ∈ ts, t.StandsIn s 0)
    (h : ofTokens c.scope ts = some f) :
    f.scope = c.scope ∧ f.scope.Shows texts f.name.span.start f.name.chars := by
  unfold ofTokens at h
  dsimp only at h
  split at h
  · cases h
  · obtain ⟨sh, hshape, rfl⟩ := Option.map_eq_some_iff.mp h
    refine ⟨rfl, ?_⟩
    rcases standsIn_name_splitType (standsIn_code hts) hshape with hname | hname
    · exact hc.shows_token hname
    · rw [hname]
      exact hc.shows (standsAt_self s).nil

end FunctionDecl

/-! ## Macros -/

namespace MacroDecl

variable {s : List Char}

theorem standsAt_name_readDefine {t : Token} {d : Define} (ht : t.StandsIn s 0)
    (h : readDefine t = some d) : StandsAt s d.name.span.start d.name.chars := by
  unfold readDefine at h
  dsimp only at h
  split at h
  · cases h
  split at h
  · cases h
  · rename_i hname
    cases h
    generalize hgap : Text.runLength isSpace (t.chars.drop "#define".toList.length) = gap at hname ⊢
    have hne : ¬ Text.runLength isWordChar
        (List.drop gap (t.chars.drop "#define".toList.length)) = 0 := by
      intro hzero
      rw [hzero] at hname
      simp at hname
    -- the name is not empty, so that it starts inside the directive
    have hbound : "#define".toList.length + gap ≤ t.chars.length := by
      refine Nat.le_of_not_lt fun hlt => hne ?_
      rw [drop_drop, drop_eq_nil_of_le (Nat.le_of_lt hlt)]
      rfl
    have hplace := ht.place.trans (standsAt_take_drop hbound
      (Text.runLength isWordChar (t.chars.drop ("#define".toList.length + gap))))
    simpa [Token.chars, drop_drop] using hplace

theorem shows_name {texts : Texts} {c : Context} {ts : List Token}
    {m : MacroDecl} (hc : c.Reads texts s) (hts : ∀ t ∈ ts, t.StandsIn s 0)
    (h : ofTokens ts = some m) : c.scope.Shows texts m.name.span.start m.name.chars := by
  unfold ofTokens at h
  simp only [Option.bind_eq_bind, Option.bind_eq_some_iff] at h
  obtain ⟨t, hfind, d, hdefine, hm⟩ := h
  cases hm
  exact hc.shows (standsAt_name_readDefine (hts t (mem_of_find?_eq_some hfind)) hdefine)

end MacroDecl

/-! ## Variables -/

namespace Variable

variable {ts : List Token} {t : Token}

/-- The name of a variable is read off a token at its place, where a word starts if the token is
one. -/
structure Named (texts : Texts) (v : Variable) : Prop where
  words : v.scope.ShowsWordsOf texts v.name.span.start v.name.value
  word : v.name.kind = .word → ∃ c, isWordChar c = true ∧ v.scope.Shows texts v.name.span.start [c]

theorem mem_of_mem_beforeInitializer (h : t ∈ beforeInitializer ts) : t ∈ ts := by
  unfold beforeInitializer at h
  split at h
  · exact mem_of_mem_take h
  · exact h

theorem mem_of_mem_dropSuffixes (h : t ∈ dropSuffixes ts) : t ∈ ts := by
  exact mem_reverse.mp ((dropWhile_sublist _).subset (mem_reverse.mp h))

theorem mem_of_mem_dropArguments (h : t ∈ dropArguments ts) : t ∈ ts := by
  unfold dropArguments at h
  split at h
  · exact (dropLast_sublist _).subset h
  · exact h

variable {texts : Texts} {c : Context} {s : List Char}

theorem named_ofDefinition {v : Variable} (hc : c.Reads texts s) (hts : ∀ t ∈ ts, t.StandsIn s 0)
    (h : ofDefinition c.scope ts = some v) : v.scope = c.scope ∧ v.Named texts := by
  unfold ofDefinition at h
  dsimp only at h
  split at h
  · cases h
  · obtain ⟨t, hlast, rfl⟩ := Option.map_eq_some_iff.mp h
    have hmem := mem_of_mem_beforeInitializer (mem_of_mem_dropSuffixes (mem_of_mem_dropArguments
      (mem_of_mem_dropSuffixes (mem_of_getLast? hlast))))
    obtain ⟨u, hu, rfl⟩ := Tokens.mem_code hmem
    have hu : u.StandsIn s 0 := hts u hu
    have hshows := hc.shows_token hu
    refine ⟨rfl, ⟨u.chars, hu.nonempty, hshows, ?_, hu.word⟩, fun hword => ?_⟩
    · show onlyWordChars u.value = onlyWordChars (String.ofList u.value.toList)
      rw [String.ofList_toList]
    · have hkind : Kind.ofText u.value = .word := hu.kind_eq.symm.trans hword
      obtain ⟨d, ds, hchars, hd⟩ := Kind.exists_cons_of_word hkind
      have hfirst : StandsAt u.chars 0 [d] := ⟨[], ds, hchars, rfl⟩
      have hplace := hshows.trans hfirst
      rw [Int.add_zero] at hplace
      exact ⟨d, hd, hplace⟩

end Variable

variable {s : List Char} {base : Int} {t : Token} {ts : List Token}

/-! ## Names of arguments -/

/-- The token stands where its span says. -/
def Token.SpansAt (s : List Char) (base : Int) (t : Token) : Prop :=
  StandsAt s (t.span.start - base) t.chars ∧ t.span.stop = t.span.start + t.chars.length

namespace Variable

variable {scope : Scope} {v : Variable}

theorem of_parameterName (h : parameterName ts = some t) :
    t ∈ ts ∨ ∃ parens ∈ ts, parens.kind = .paren ∧ t.kind = .word ∧
      ∃ u ∈ Token.scan (interior parens.chars) parens.span.start, t = u.settled := by
  fun_induction parameterName ts with
  | case1 => cases h
  | case2 u us _ ih =>
    refine (ih h).imp (mem_cons_of_mem u) ?_
    rintro ⟨p, hp, hin⟩
    exact ⟨p, mem_cons_of_mem u hp, hin⟩
  | case3 u us => exact .inl (Option.some.inj h ▸ mem_cons_self)
  | case4 u us _ hkind =>
    have hmem := Declaration.mem_of_mem_dropIgnored (mem_reverse.mp (mem_of_find?_eq_some h))
    exact .inr ⟨u, mem_cons_self, hkind, by simpa using find?_some h, Tokens.mem_code hmem⟩
  | case5 => cases h

theorem name_ofParameter (h : ofParameter scope ts = some v) (hname : v.name.value ≠ "") :
    v.name ∈ Tokens.code ts ∨ ∃ parens ∈ Tokens.code ts, parens.kind = .paren ∧
      v.name.kind = .word ∧
      ∃ u ∈ Token.scan (interior parens.chars) parens.span.start, v.name = u.settled := by
  unfold ofParameter at h
  dsimp only at h
  generalize hcode : Declaration.dropIgnored true (Tokens.code ts) = code at h
  have hmem : ∀ t ∈ code, t ∈ Tokens.code ts := by
    rw [← hcode]
    exact fun t ht => Declaration.mem_of_mem_dropIgnored ht
  have hunnamed : ∀ type : List Token, (if type.isEmpty then none
      else some ({ name := .empty, type := some type, scope } : Variable)) ≠ some v := by
    intro type heq
    split at heq
    · cases heq
    · cases heq
      exact hname rfl
  split at h
  · exact absurd h (hunnamed _)
  · split at h
    · rename_i name hfound
      cases h
      exact .inl (hmem _ (Declaration.mem_of_mem_splitType
        (mem_append_right _ (Option.mem_toList.mpr hfound))))
    · split at h
      · rename_i name hfound
        cases h
        refine (of_parameterName hfound).imp (fun h => hmem _ (mem_of_mem_drop h)) ?_
        rintro ⟨p, hp, hin⟩
        exact ⟨p, hmem p (mem_of_mem_drop hp), hin⟩
      · exact absurd h (hunnamed _)

end Variable

theorem Token.spansAt_of_mem_scan (h : t ∈ scan s base) : t.SpansAt s base := by
  obtain ⟨front, rear, hs, hspan, -⟩ := found_of_mem_scan h
  rw [SpansAt, hspan]
  exact ⟨⟨front, rear, hs, by dsimp only; omega⟩, rfl⟩

/-- **Where the names of arguments stand.** A name that is a token of its parameter stands at its
span. Any other, inside parentheses, stands one character further on, and not at its span unless a
word character stands before it. -/
theorem FunctionDecl.arguments_spansAt (f : FunctionDecl) (scope : Scope) {v : Variable}
    (hv : v ∈ f.arguments scope) (hname : v.name.value ≠ "") :
    let s := f.args.chars
    let base := f.args.span.start
    ∃ st ∈ Statement.scan s base, Variable.ofParameter scope st.tokens = some v ∧
      (v.name ∈ st.tokens ∧ v.name.SpansAt s base ∨ ∃ parens ∈ st.tokens, parens.kind = .paren ∧
          (∃ u ∈ Token.scan (interior parens.chars) parens.span.start, v.name = u.settled) ∧
          v.name.SpansAt s (base - 1) ∧
          (wordAt s[(v.name.span.start - base).toNat]? = false → ¬v.name.SpansAt s base)) := by
  obtain ⟨st, hst, hparameter⟩ := mem_filterMap.mp hv
  have hspans : ∀ t ∈ st.tokens, t.SpansAt f.args.chars f.args.span.start :=
    Statement.forall_mem_group (fun _ ht => by cases ht)
      (fun t ht => (Token.spansAt_of_mem_scan ht : t.SpansAt _ _)) st hst
  have hcode : ∀ t ∈ Tokens.code st.tokens, t ∈ st.tokens := by
    intro t ht
    obtain ⟨u, hu, rfl⟩ := Tokens.mem_code ht
    rwa [Statement.settled_of_mem_scan hst u hu]
  refine ⟨st, hst, hparameter, (Variable.name_ofParameter hparameter hname).imp
    (fun h => ⟨hcode _ h, hspans _ (hcode _ h)⟩) ?_⟩
  rintro ⟨parens, hparens, hkind, hword, u, hu, hsettled⟩
  have hparens := hcode _ hparens
  have hinside := (Statement.standsIn_of_mem_scan hst parens hparens).inside
  obtain ⟨hplace, hstop⟩ := Token.spansAt_of_mem_scan hu
  have hplace := hinside.trans hplace
  rw [show ∀ a b c : Int, a + 1 - b + (c - a) = c - (b - 1) by omega] at hplace
  rw [hsettled] at hword ⊢
  refine ⟨parens, hparens, hkind, ⟨u, hu, rfl⟩, ⟨hplace, hstop⟩, fun hfront hown => ?_⟩
  have hstands := Token.standsIn_of_mem_scan hu
  obtain ⟨c, cs, hcs, hc⟩ := Kind.exists_cons_of_word (hstands.kind_eq.symm.trans hword)
  have hchars : u.settled.chars = c :: cs := hcs
  rw [hown.1.getElem? (by simp [hchars]), hchars, head?_cons] at hfront
  exact absurd hc (by simpa [wordAt] using hfront)

/-- The name of a function pointer stands one character behind its span. -/
theorem FunctionDecl.arguments_spansAt_pointer :
    ∃ v ∈ arguments ⟨[], .empty, ⟨0, ⟨7, 22⟩, "int (*cb)(void)", none⟩, none, none, none, false,
      false, .blank⟩ .blank, v.name.value = "cb" ∧ v.name.SpansAt "int (*cb)(void)".toList 6 ∧
        ¬v.name.SpansAt "int (*cb)(void)".toList 7 := by
  have hnames : (arguments ⟨[], .empty, ⟨0, ⟨7, 22⟩, "int (*cb)(void)", none⟩, none, none, none, false,
      false, .blank⟩ .blank).map Variable.name = [⟨1, ⟨12, 14⟩, "cb", some .word⟩] := by decide +kernel
  obtain ⟨v, hlist, hname⟩ := map_eq_singleton_iff.mp hnames
  have hv := hlist ▸ mem_singleton_self v
  have hnot : ¬v.name.SpansAt "int (*cb)(void)".toList 7 := by
    intro h
    have hfirst := h.1.getElem? (by rw [hname]; decide)
    rw [hname] at hfirst
    exact absurd hfirst (by decide)
  obtain ⟨st, -, -, ⟨-, hspans⟩ | ⟨_, -, -, -, hspans, -⟩⟩ :=
    arguments_spansAt _ _ hv (by rw [hname]; decide)
  · exact absurd hspans hnot
  · exact ⟨v, hv, by rw [hname], hspans, hnot⟩

end CBoundary
