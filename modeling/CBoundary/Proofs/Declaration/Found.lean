import CBoundary.Proofs.Declaration.Declarator

/-!
# Local variables of known types

The search for local variables stops at the name of a known type that white space follows.  The
declarators behind it are all found, each with this type.  A type with a star right behind it is
passed over.
-/

namespace CBoundary

open List

/-! ## Tokens with a text -/

namespace Variable

theorem endsInNothing_eq_false {ts : List Token} (h : ∀ t ∈ ts, t.value ≠ "") :
    endsInNothing ts = false := by
  have hcode : ∀ t ∈ Tokens.code ts, t.value ≠ "" := by
    intro t ht
    obtain ⟨u, hu, rfl⟩ := Tokens.mem_code ht
    exact h u hu
  have hbefore : beforeInitializer (Tokens.code ts) ⊆ Tokens.code ts := by
    unfold beforeInitializer
    split
    · exact take_subset _ _
    · exact List.Subset.refl _
  have hsuffixes : dropSuffixes (beforeInitializer (Tokens.code ts)) ⊆ Tokens.code ts := by
    intro t ht
    exact hbefore (mem_reverse.mp ((dropWhile_sublist _).subset (mem_reverse.mp ht)))
  unfold endsInNothing
  cases hlast : (dropSuffixes (beforeInitializer (Tokens.code ts))).getLast? with
  | none => rfl
  | some t =>
    have hvalue := hcode t (hsuffixes (mem_of_getLast? hlast))
    simpa using hvalue

end Variable

namespace FunctionDecl

variable {names : List String}

/-! ## The next type -/

theorem typeBeforeSpace?_some (hnames : names ≠ []) {s : List Char} {n : Nat}
    (h : typeBeforeSpace? names s = some n) :
    ∃ name ∈ names, s.take n = name.toList ∧ ((s.drop n).head?).any Text.isSpace = true := by
  have hmem := max?_mem h
  rw [if_neg (by simpa using hnames), mem_filterMap] at hmem
  obtain ⟨name, hname, hn⟩ := hmem
  dsimp only at hn
  split at hn
  · rename_i hfound
    cases hn
    obtain ⟨hfits, hspace⟩ := Bool.and_eq_true_iff.mp hfound
    obtain ⟨rest, rfl⟩ := isPrefixOf_iff_prefix.mp hfits
    exact ⟨name, hname, take_left, hspace⟩
  · cases hn

theorem nextType?_some (hnames : names ≠ []) {before : Option Char} {pos start n : Nat}
    {s found : List Char} (h : nextType? names before pos s = some (start, n, found)) :
    ∃ name ∈ names, found.take n = name.toList ∧
      ((found.drop n).head?).any Text.isSpace = true := by
  fun_induction nextType? names before pos s with
  | case1 => cases h
  | case2 before pos c cs m hhere =>
    cases h
    split at hhere
    · exact typeBeforeSpace?_some hnames hhere
    · cases hhere
  | case3 before pos c cs hhere ih => exact ih h

/-! ## Declarators -/

theorem declarators_ok (scope : Scope) (names : List String) (base : Int) (type : Token)
    {pending : List Token} (idx pos : Nat) (before : Option Char) (s : List Char)
    (hpending : ∀ t ∈ pending, t.value ≠ "") :
    ∃ r, declarators scope names base type pending idx pos before s = .ok r := by
  induction hsize : s.length using Nat.strongRecOn generalizing pending idx pos before s with
  | ind size ih =>
    subst hsize
    unfold declarators
    split
    · exact ⟨_, rfl⟩
    · rename_i c cs
      split
      · exact ⟨_, rfl⟩
      · rename_i n hlength
        dsimp only
        split
        · exact ⟨_, rfl⟩
        · have hall : ∀ t ∈ pending ++ [(⟨idx + 1, ⟨base + pos, base + pos + n + 1⟩,
              String.ofList (c :: cs.take n), none⟩ : Token)], t.value ≠ "" := by
            intro t ht
            rcases mem_append.mp ht with ht | ht
            · exact hpending t ht
            · rw [mem_singleton.mp ht]
              simp
          rw [Variable.endsInNothing_eq_false hall, Bool.and_false, if_neg Bool.false_ne_true]
          generalize pending ++ [_] = declared at hall ⊢
          split
          · exact ⟨_, rfl⟩
          · -- a separator starts the next declarator afresh
            have hshorter : (cs.drop n).length < (c :: cs).length := by
              rw [length_drop, length_cons]
              omega
            have hnext : ∀ t ∈ if (String.ofList (c :: cs.take n) == ";" ||
                String.ofList (c :: cs.take n) == ",") = true then [] else declared,
                t.value ≠ "" := by
              split
              · exact fun t ht => absurd ht not_mem_nil
              · exact hall
            obtain ⟨r, hr⟩ := ih _ hshorter (idx + 1) (pos + n + 1) (c :: cs.take n).getLast? _
              hnext rfl
            rw [hr]
            exact ⟨_, rfl⟩

/-! ## Local variables -/

theorem variablesOfTypes_ok (hnames : names ≠ []) (hnamed : "" ∉ names) (scope : Scope)
    (base : Int) (before : Option Char) (pos : Nat) (s : List Char) :
    ∃ vars, variablesOfTypes scope names base before pos s = .ok vars := by
  induction hsize : s.length using Nat.strongRecOn generalizing before pos s with
  | ind size ih =>
    subst hsize
    rw [variablesOfTypes]
    split
    · exact ⟨_, rfl⟩
    · rename_i start n found hnext
      obtain ⟨name, hname, htake, hspace⟩ := nextType?_some hnames hnext
      have htype : String.ofList (found.take n) ≠ "" := by
        rw [htake, String.ofList_toList]
        rintro rfl
        exact hnamed hname
      have hgap : String.ofList ((found.drop n).take (Text.runLength Text.isSpace (found.drop n))) ≠
          "" := by
        cases hrest : found.drop n with
        | nil =>
          rw [hrest] at hspace
          cases hspace
        | cons c cs =>
          rw [hrest] at hspace
          have hc : Text.isSpace c = true := hspace
          simp [Text.runLength, hc]
      extract_lets gap stop type space
      have hpending : ∀ t ∈ [type, space], t.value ≠ "" := by
        intro t ht
        rcases mem_pair.mp ht with rfl | rfl
        · exact htype
        · exact hgap
      obtain ⟨⟨vars, after, next, rest⟩, hdeclared⟩ := declarators_ok scope names base type 1
        (stop + gap) (found.take (n + gap)).getLast? (found.drop (n + gap)) hpending
      rw [hdeclared]
      by_cases hshorter : rest.length < s.length
      · obtain ⟨more, hmore⟩ := ih _ hshorter after next rest rfl
        refine ⟨vars ++ more, ?_⟩
        show dite (rest.length < s.length) _ _ = _
        rw [dif_pos hshorter, hmore]
        rfl
      · refine ⟨vars, ?_⟩
        show dite (rest.length < s.length) _ _ = _
        rw [dif_neg hshorter]
        rfl

/-- **Local variables can be read**, if some types are known, and all by a name. -/
theorem localsOfTypes_ok (hnames : names ≠ []) (hnamed : "" ∉ names) (f : FunctionDecl)
    (scope : Scope) (text : Option (List Char)) :
    ∃ vars, f.localsOfTypes scope names text = .ok vars := by
  unfold localsOfTypes
  split
  · exact ⟨_, rfl⟩
  · exact variablesOfTypes_ok hnames hnamed scope _ none 0 _

end FunctionDecl

end CBoundary

namespace CBoundary.FunctionDecl

open Text List

variable {names : List String} {scope : Scope} {base : Int} {type : Token} {pending : List Token}
variable {idx pos : Nat} {before : Option Char} {p s tail : List Char} {declared : List String}

/-! ## Declarators -/

/-- A text starts with a token, which is no name of a type. -/
structure Starts (names : List String) (p s : List Char) : Prop where
  nonempty : p ≠ []
  length : Lex.code.tokenLength (p ++ s) = p.length
  free : String.ofList p ∉ names ++ Keyword.types

/-- The token at a position of the body. -/
def tokenAt (base : Int) (idx pos : Nat) (p : List Char) : Token :=
  ⟨idx + 1, ⟨base + pos, base + pos + p.length⟩, String.ofList p, none⟩

/-- The variable that a separator completes. -/
def completed (scope : Scope) (type : Token) (pending : List Token) (p : List Char) :
    List Variable :=
  if p = [';'] ∨ p = [','] then
    ((Variable.ofDefinition scope pending).map fun v => { v with type := some [type] }).toList
  else []

theorem declarators_append (h : Starts names p s) (hpending : ∀ t ∈ pending, t.value ≠ "") :
    declarators scope names base type pending idx pos before (p ++ s) = if p = [';'] then
        .ok (completed scope type (pending ++ [tokenAt base idx pos p]) p, p.getLast?,
          pos + p.length, s)
      else (declarators scope names base type
        (if p = [','] then [] else pending ++ [tokenAt base idx pos p]) (idx + 1) (pos + p.length)
        p.getLast? s).map fun r =>
          (completed scope type (pending ++ [tokenAt base idx pos p]) p ++ r.1, r.2) := by
  obtain ⟨c, cs, rfl⟩ := exists_cons_of_ne_nil h.nonempty
  have hlength := h.length
  have hfree := h.free
  have hall : ∀ t ∈ pending ++ [tokenAt base idx pos (c :: cs)], t.value ≠ "" := by
    simpa [or_imp, forall_and, tokenAt] using hpending
  have hvalues (text : String) :
      (String.ofList (c :: cs) == text) = decide (c :: cs = text.toList) := by
    rw [Bool.eq_iff_iff]
    simp [← String.toList_inj]
  have hspan : (⟨idx + 1, ⟨base + pos, base + pos + cs.length + 1⟩, String.ofList (c :: cs),
      none⟩ : Token) = tokenAt base idx pos (c :: cs) := by
    simp [tokenAt, Int.add_assoc]
  simp only [mem_append, not_or] at hfree
  rw [cons_append, declarators]
  simp only [cons_append, length_cons] at hlength
  rw [hlength]
  simp only [take_left, drop_left, hspan, hvalues, contains_eq_mem, hfree, decide_false,
    Bool.or_self, Bool.false_eq_true, if_false, Variable.endsInNothing_eq_false hall,
    Bool.and_false]
  simp only [show ";".toList = [';'] from rfl, show ",".toList = [','] from rfl, decide_eq_true_eq,
    Bool.or_eq_true, completed]
  by_cases hlast : c :: cs = [';']
  · obtain ⟨rfl, rfl⟩ := cons.inj hlast
    rfl
  · simp only [hlast, if_false, false_or]
    generalize declarators scope names base type _ _ _ _ s = rest
    cases rest <;> rfl

/-- Tokens that name a variable: words, a declarator and maybe an initializer. -/
def Names (pending : List Token) (name : String) : Prop :=
  ∃ words d init t, (∀ w ∈ words, Token.IsWord w) ∧ Declarator d t ∧ t.IsWord ∧ t.value ≠ "void" ∧
    Variable.IsInitializer init ∧ Tokens.code pending = words ++ d ++ init ∧ t.value = name

/-- Tokens without a gap up to a semicolon, none the name of a type; separators complete
declarators. -/
inductive Declares (names : List String) (base : Int) (tail : List Char) :
    List Token → Nat → Nat → List Char → List String → Prop where
  | token {pending : List Token} {idx pos : Nat} {p s : List Char} {declared : List String}
      (hp : Starts names p s) (hmark : p ≠ [','] ∧ p ≠ [';'])
      (h : Declares names base tail (pending ++ [tokenAt base idx pos p]) (idx + 1)
        (pos + p.length) s declared) : Declares names base tail pending idx pos (p ++ s) declared
  | comma {pending : List Token} {idx pos : Nat} {s : List Char} {name : String}
      {declared : List String} (hp : Starts names [','] s) (hname : Names pending name)
      (h : Declares names base tail [] (idx + 1) (pos + 1) s declared) :
      Declares names base tail pending idx pos (',' :: s) (name :: declared)
  | last {pending : List Token} {idx pos : Nat} {name : String} (hp : Starts names [';'] tail)
      (hname : Names pending name) : Declares names base tail pending idx pos (';' :: tail) [name]

theorem Names.exists_completed {name : String} (h : Names pending name) (hp : p = [';'] ∨ p = [','])
    (scope : Scope) (type : Token) (base : Int) (idx pos : Nat) :
    ∃ v : Variable, completed scope type (pending ++ [tokenAt base idx pos p]) p = [v] ∧
      v.name.value = name ∧ v.type = some [type] := by
  obtain ⟨words, d, init, t, hwords, hd, ht, hvoid, hinit, hcode, rfl⟩ := h
  have hmark : Tokens.code (pending ++ [tokenAt base idx pos p]) = words ++ d ++ init := by
    have hnone : (tokenAt base idx pos p).isCode = false := by
      simp only [tokenAt, Token.isCode, Token.kind, Option.getD_none]
      rcases hp with rfl | rfl <;> decide
    rw [← hcode, Tokens.code, List.filter_append, filter_cons_of_neg (by simp [hnone]), filter_nil,
      append_nil]
    rfl
  obtain ⟨v, hv, hname, -⟩ :=
    hd.exists_ofDefinition hwords (fun h => absurd h hvoid) hinit hmark scope
  refine ⟨{ v with type := some [type] }, ?_, hname ▸ ht.onlyWordChars_eq, rfl⟩
  rw [completed, if_pos hp, hv]
  rfl

theorem Declares.exists_declarators (h : Declares names base tail pending idx pos s declared)
    (hpending : ∀ t ∈ pending, t.value ≠ "") (scope : Scope) (type : Token)
    (before : Option Char) :
    ∃ vs after next, declarators scope names base type pending idx pos before s =
        .ok (vs, after, next, tail) ∧
      Forall₂ (fun name (v : Variable) => v.name.value = name ∧ v.type = some [type])
        declared vs := by
  induction h generalizing before with
  | @token pending idx pos p s declared hp hmark _ ih =>
    have hmore : ∀ t ∈ pending ++ [tokenAt base idx pos p], t.value ≠ "" := by
      simpa [or_imp, forall_and, tokenAt, hp.nonempty] using hpending
    obtain ⟨vs, after, next, hread, hvs⟩ := ih hmore p.getLast?
    refine ⟨vs, after, next, ?_, hvs⟩
    rw [declarators_append hp hpending, if_neg hmark.2, if_neg hmark.1]
    simp [hread, completed, hmark, Except.map]
  | @comma pending idx pos s name declared hp hname _ ih =>
    obtain ⟨v, hv, hvname, htype⟩ := hname.exists_completed (.inr rfl) scope type base idx pos
    obtain ⟨vs, after, next, hread, hvs⟩ := ih (by simp) (some ',')
    refine ⟨v :: vs, after, next, ?_, .cons ⟨hvname, htype⟩ hvs⟩
    rw [← singleton_append, declarators_append hp hpending, if_neg (by simp), if_pos rfl, hv]
    exact congrArg (Except.map _) hread
  | @last pending idx pos name hp hname =>
    obtain ⟨v, hv, hvname, htype⟩ := hname.exists_completed (.inl rfl) scope type base idx pos
    refine ⟨[v], some ';', pos + 1, ?_, .cons ⟨hvname, htype⟩ .nil⟩
    rw [← singleton_append, declarators_append hp hpending, if_pos rfl, hv]
    rfl

theorem Declares.length_lt (h : Declares names base tail pending idx pos s declared) :
    tail.length < s.length := by
  induction h with
  | token _ _ _ ih => exact ih.trans_le (by simp)
  | comma _ _ _ ih => exact ih.trans_le (by simp)
  | last => exact Nat.lt_succ_self _

/-! ## The search -/

/-- Where the search stands: the character in front of it, the position and the rest of the text. -/
abbrev Place := Option Char × Nat × List Char

/-- The name of a type at a position, and the white space with which a text starts there. -/
def typeAt (base : Int) (pos : Nat) (type : List Char) : Token :=
  ⟨0, ⟨base + pos, base + (pos + type.length : Nat)⟩, String.ofList type, none⟩

/-- The white space at a position. -/
def spaceAt (base : Int) (pos : Nat) (s : List Char) : Token :=
  ⟨1, ⟨base + pos, base + pos + (runLength isSpace s : Nat)⟩,
    String.ofList (s.take (runLength isSpace s)), none⟩

/-- The declarators behind a type that was found. -/
def behindType (scope : Scope) (names : List String) (base : Int) (pos : Nat) (type s : List Char) :
    Except Fault (List Variable × Place) :=
  declarators scope names base (typeAt base pos type)
    [typeAt base pos type, spaceAt base (pos + type.length) s] 1
    (pos + type.length + runLength isSpace s)
    ((type ++ s).take (type.length + runLength isSpace s)).getLast? (s.drop (runLength isSpace s))

/-- The search comes from one place to another, finding no type or passing over declarators. -/
inductive Arrives (scope : Scope) (names : List String) (base : Int) : Place → Place → Prop where
  | skip {here there : Place}
      (hnext : nextType? names here.1 here.2.1 here.2.2 =
        nextType? names there.1 there.2.1 there.2.2)
      (hlength : there.2.2.length ≤ here.2.2.length) : Arrives scope names base here there
  | past {here mid there : Place} {pos : Nat} {type s : List Char} {vars : List Variable}
      (hnext : nextType? names here.1 here.2.1 here.2.2 = some (pos, type.length, type ++ s))
      (hread : behindType scope names base pos type s = .ok (vars, mid))
      (hlength : mid.2.2.length < here.2.2.length) (h : Arrives scope names base mid there) :
      Arrives scope names base here there

section

variable {here there mid : Place} {type : List Char} {vars more : List Variable}

theorem variablesOfTypes_eq
    (hnext : nextType? names here.1 here.2.1 here.2.2 = some (pos, type.length, type ++ s))
    (hread : behindType scope names base pos type s = .ok (vars, mid))
    (hlength : mid.2.2.length < here.2.2.length)
    (hmore : variablesOfTypes scope names base mid.1 mid.2.1 mid.2.2 = .ok more) :
    variablesOfTypes scope names base here.1 here.2.1 here.2.2 = .ok (vars ++ more) := by
  unfold behindType typeAt spaceAt at hread
  rw [variablesOfTypes, hnext]
  dsimp only
  rw [take_left, drop_left, drop_length_add_append, hread]
  show dite (mid.2.2.length < here.2.2.length) _ _ = _
  rw [dif_pos hlength, hmore]
  rfl

theorem Arrives.exists_variablesOfTypes (h : Arrives scope names base here there)
    (hnext : nextType? names there.1 there.2.1 there.2.2 = some (pos, type.length, type ++ s))
    (hread : behindType scope names base pos type s = .ok (vars, mid))
    (hlength : mid.2.2.length < there.2.2.length)
    (hmore : variablesOfTypes scope names base mid.1 mid.2.1 mid.2.2 = .ok more) :
    ∃ pre, variablesOfTypes scope names base here.1 here.2.1 here.2.2 =
      .ok (pre ++ (vars ++ more)) := by
  induction h with
  | skip hsame hle =>
    have hhere := variablesOfTypes_eq (hsame.trans hnext) hread (hlength.trans_le hle) hmore
    exact ⟨[], hhere⟩
  | past hfirst hpassed hshorter _ ih =>
    obtain ⟨pre, hpre⟩ := ih hnext hlength
    exact ⟨_ ++ pre, by rw [variablesOfTypes_eq hfirst hpassed hshorter hpre, append_assoc]⟩

end

/-- Names of types are words. -/
def AllWords (names : List String) : Prop :=
  ∀ n ∈ names, n ≠ "" ∧ ∀ c ∈ n.toList, isWordChar c = true

theorem eq_of_isPrefix {word type : List Char} (hword : ∀ c ∈ word, isWordChar c = true)
    (htype : ∀ c ∈ type, isWordChar c = true) (hs : ∀ c ∈ s.head?, isWordChar c = false)
    (h : word <+: type ++ s) (hspace : ((type ++ s).drop word.length).head?.any isSpace = true) :
    word = type := by
  rcases prefix_or_prefix_of_prefix h (prefix_append type s) with
    ⟨_ | ⟨c, rest⟩, rfl⟩ | ⟨_ | ⟨c, rest⟩, rfl⟩
  · exact (append_nil word).symm
  · rw [append_assoc, drop_left] at hspace
    have hc : isSpace c = true := hspace
    have hnot : isWordChar c = false := by
      simp only [isSpace, Bool.or_eq_true, beq_iff_eq] at hc
      rcases hc with ((((rfl | rfl) | rfl) | rfl) | rfl) | rfl <;> decide
    exact absurd (htype c (by simp)) (ne_true_of_eq_false hnot)
  · exact append_nil type
  · obtain ⟨rear, rfl⟩ := (prefix_append_right_inj type).mp h
    exact absurd (hs c rfl) (by simp [hword])

variable {name : String}

theorem typeBeforeSpace?_append (hnames : AllWords names) (hname : name ∈ names)
    (hs : ∀ c ∈ s.head?, isWordChar c = false) :
    typeBeforeSpace? names (name.toList ++ s) =
      if s.head?.any isSpace then some name.toList.length else none := by
  unfold typeBeforeSpace?
  rw [if_neg (by simpa using ne_nil_of_mem hname)]
  have hall : ∀ m ∈ names.filterMap (fun n => if n.toList.isPrefixOf (name.toList ++ s) &&
      ((name.toList ++ s).drop n.toList.length).head?.any isSpace then some n.toList.length
      else none), m = name.toList.length ∧ s.head?.any isSpace = true := by
    intro m hm
    obtain ⟨n, hn, hm⟩ := mem_filterMap.mp hm
    split at hm
    · rename_i hfits
      obtain ⟨hfits, hspace⟩ := Bool.and_eq_true_iff.mp hfits
      have hprefix := isPrefixOf_iff_prefix.mp hfits
      have heq := eq_of_isPrefix (hnames n hn).2 (hnames name hname).2 hs hprefix hspace
      rw [heq, drop_left] at hspace
      exact ⟨heq ▸ (Option.some.inj hm).symm, hspace⟩
    · cases hm
  split
  · rename_i hspace
    refine max?_eq_some_iff.mpr ⟨mem_filterMap.mpr ⟨name, hname, ?_⟩, fun m hm => (hall m hm).1.le⟩
    rw [if_pos (by simp [hspace])]
  · rename_i hnot
    exact max?_eq_none_iff.mpr (eq_nil_iff_forall_not_mem.mpr fun m hm => hnot (hall m hm).2)

theorem nextType?_word {word : List Char} (hword : ∀ c ∈ word, isWordChar c = true) {c : Char}
    (hc : isWordChar c = true) :
    nextType? names (some c) pos (word ++ s) =
      nextType? names (c :: word).getLast? (pos + word.length) s := by
  induction word generalizing c pos with
  | nil => rfl
  | cons d cs ih =>
    obtain ⟨hd, hcs⟩ := forall_mem_cons.mp hword
    rw [cons_append, nextType?, if_neg (by simp [isBoundary, wordAt, hc, hd])]
    rw [ih hcs hd, getLast?_cons_cons, length_cons, Nat.add_assoc, Nat.add_comm 1]

theorem nextType?_append (hnames : AllWords names) (hname : name ∈ names)
    (hbefore : wordAt before = false) (hs : ∀ c ∈ s.head?, isWordChar c = false) (pos : Nat) :
    nextType? names before pos (name.toList ++ s) =
      if s.head?.any isSpace then some (pos, name.toList.length, name.toList ++ s)
      else nextType? names name.toList.getLast? (pos + name.toList.length) s := by
  obtain ⟨hne, hword⟩ := hnames name hname
  have hfind := typeBeforeSpace?_append hnames hname hs
  obtain ⟨c, cs, hchars⟩ := exists_cons_of_ne_nil (mt String.toList_eq_nil_iff.mp hne)
  rw [hchars] at hword hfind ⊢
  obtain ⟨hc, hcs⟩ := forall_mem_cons.mp hword
  have hboundary : isBoundary before (some c) = true := by
    rw [isBoundary, hbefore]
    simpa [wordAt] using hc
  rw [cons_append, nextType?, if_pos hboundary, ← cons_append, hfind]
  by_cases hspace : s.head?.any isSpace = true
  · rw [if_pos hspace, if_pos hspace]
  · rw [if_neg hspace, if_neg hspace]
    rw [nextType?_word hcs hc, length_cons, Nat.add_assoc, Nat.add_comm 1]

/-- **Local variables of known types.** Where the search comes to a type, it finds all declarators
behind it if white space follows the name, and passes over the type if anything else does. -/
theorem localsOfTypes_declared {f : FunctionDecl} {body : Token} (hbody : f.body = some body)
    {text : Option (List Char)} (hnames : AllWords names) (hname : name ∈ names)
    (h : Arrives scope names body.span.start (none, 0, text.getD body.chars)
      (before, pos, name.toList ++ s))
    (hbefore : wordAt before = false) (hs : ∀ c ∈ s.head?, isWordChar c = false) :
    let type := typeAt body.span.start pos name.toList
    if s.head?.any isSpace then
      ∀ tail declared, Declares names body.span.start tail
          [type, spaceAt body.span.start (pos + name.toList.length) s] 1
          (pos + name.toList.length + runLength isSpace s) (s.drop (runLength isSpace s)) declared →
        ∃ pre vs post, f.localsOfTypes scope names text = .ok (pre ++ (vs ++ post)) ∧
          Forall₂ (fun name (v : Variable) => v.name.value = name ∧ v.type = some [type]) declared vs
    else nextType? names before pos (name.toList ++ s) =
      nextType? names name.toList.getLast? (pos + name.toList.length) s := by
  dsimp only
  have hnext := nextType?_append hnames hname hbefore hs pos
  split
  · rename_i hspace
    rw [if_pos hspace] at hnext
    intro tail declared hdeclares
    have hpending : ∀ t ∈ [typeAt body.span.start pos name.toList,
        spaceAt body.span.start (pos + name.toList.length) s], t.value ≠ "" := by
      refine forall_mem_cons.mpr ⟨?_, forall_mem_singleton.mpr ?_⟩
      · simpa [typeAt] using (hnames name hname).1
      · obtain _ | ⟨c, cs⟩ := s
        · cases hspace
        · have hc : isSpace c = true := hspace
          simp [spaceAt, runLength, hc]
    obtain ⟨vs, after, next, hread, hvs⟩ := hdeclares.exists_declarators hpending scope
      (typeAt body.span.start pos name.toList)
      ((name.toList ++ s).take (name.toList.length + runLength isSpace s)).getLast?
    obtain ⟨more, hmore⟩ := variablesOfTypes_ok (ne_nil_of_mem hname)
      (fun hnil => (hnames "" hnil).1 rfl) scope body.span.start after next tail
    have hlength : tail.length < (name.toList ++ s).length := by
      have hshorter := hdeclares.length_lt
      rw [length_drop] at hshorter
      rw [length_append]
      omega
    obtain ⟨pre, hpre⟩ := h.exists_variablesOfTypes hnext hread hlength hmore
    refine ⟨pre, vs, more, ?_, hvs⟩
    rw [localsOfTypes, hbody]
    exact hpre
  · rename_i hspace
    rw [hnext, if_neg hspace]

/-- A body with one declaration. -/
def sampleBody : Token := ⟨0, ⟨0, 8⟩, "foo_t a;", none⟩

/-- The variable behind a known type and a space is found. -/
theorem localsOfTypes_declared_space :
    ∃ pre vs post, localsOfTypes { (default : FunctionDecl) with body := some sampleBody } .blank
        ["foo_t"] none = .ok (pre ++ (vs ++ post)) ∧ vs.map (fun v => v.name.value) = ["a"] := by
  have hnames : AllWords ["foo_t"] := forall_mem_singleton.mpr ⟨by decide, all_eq_true.mp rfl⟩
  have harrives : Arrives .blank ["foo_t"] sampleBody.span.start
      (none, 0, (none : Option (List Char)).getD sampleBody.chars)
      (none, 0, "foo_t".toList ++ " a;".toList) := .skip rfl (Nat.le_refl _)
  have hfound := localsOfTypes_declared
    (f := { (default : FunctionDecl) with body := some sampleBody }) rfl hnames mem_cons_self harrives
    rfl (by simp [isWordChar])
  have ha : Starts ["foo_t"] ['a'] [';'] := ⟨by decide, by decide +kernel, by decide⟩
  have hend : Starts ["foo_t"] [';'] [] := ⟨by decide, by decide +kernel, by decide⟩
  have hname : Names [typeAt 0 0 "foo_t".toList, spaceAt 0 5 " a;".toList, tokenAt 0 1 6 ['a']]
      "a" := by
    refine ⟨[⟨0, ⟨0, 5⟩, "foo_t", some .word⟩], [⟨2, ⟨6, 7⟩, "a", some .word⟩], [], _, ?_,
      .plain (forall_mem_nil _) ⟨rfl, by decide, all_eq_true.mp rfl⟩ (forall_mem_nil _), ?_,
      by decide, .nothing, by decide +kernel, rfl⟩
    · exact forall_mem_singleton.mpr ⟨rfl, by decide, all_eq_true.mp rfl⟩
    · exact ⟨rfl, by decide, all_eq_true.mp rfl⟩
  obtain ⟨pre, vs, post, hread, hvs⟩ := hfound [] ["a"] (.token ha (by decide) (.last hend hname))
  refine ⟨pre, vs, post, hread, ?_⟩
  cases hvs with
  | cons hv hvs =>
    cases hvs
    exact congrArg (fun n => [n]) hv.1

end CBoundary.FunctionDecl
