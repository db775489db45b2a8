import CBoundary.Proofs.Declaration.Signature

/-!
# Statements that cannot be told

What a statement is follows from its code.  Literals, array suffixes, stars and the words that
announce a record tell nothing, so that a statement of at least two tokens all of which are of
that sort cannot be told.
-/

namespace CBoundary

open List Declaration

/-- A token of code that does not tell a declaration from an expression. -/
def Token.IsMute (t : Token) : Prop :=
  t.kind ∈ [Kind.literal, Kind.bracket, Kind.undefined, Kind.invalid] ∨
    t.kind = .operator ∧ t.value = "*" ∨ t.kind = .word ∧ t.value ∈ Keyword.records

theorem Token.IsFree.not_mem_records {t : Token} (h : t.IsFree) : t.value ∉ Keyword.records := by
  have hqualifier := h.isQualifier
  simp only [Token.isQualifier, contains_eq_mem, decide_eq_false_iff_not] at hqualifier
  exact fun hmem => hqualifier ((by decide : Keyword.records ⊆ Keyword.qualifiers) hmem)

theorem Token.IsFree.not_isMute {t : Token} (h : t.IsFree) : ¬t.IsMute := by
  simp [IsMute, h.kind, h.not_mem_records]

namespace StatementKind

variable {k k' : StatementKind} {t : Token} {ts code : List Token}

theorem value_not_mem_of_isMute (h : t.IsMute) (ht : t.kind = Kind.ofText t.value) :
    t.value ∉ "extern" :: "typedef" :: Keyword.statements := by
  intro hvalue
  obtain ⟨hword, hrecord⟩ := (by decide : ∀ v ∈ "extern" :: "typedef" :: Keyword.statements,
    Kind.ofText v = .word ∧ v ∉ Keyword.records) _ hvalue
  rw [← ht] at hword
  simp [Token.IsMute, hword, hrecord] at h

/-- At least two tokens count, and none of them tells what the statement is. -/
def Undecided (ts : List Token) : Prop :=
  2 ≤ (dropIgnored true (Tokens.code ts)).length ∧
    ∀ t ∈ dropIgnored true (Tokens.code ts), t.IsMute

instance (t : Token) : Decidable t.IsMute := inferInstanceAs (Decidable (_ ∨ _))

instance (ts : List Token) : Decidable (Undecided ts) := inferInstanceAs (Decidable (_ ∧ _))

theorem isTelling_eq_false_iff (hcode : t.isCode = true) : isTelling t = false ↔ t.IsMute := by
  unfold Token.isCode at hcode
  unfold isTelling Token.IsMute
  cases hkind : t.kind <;> simp_all [Kind.isCode, Token.announcesRecord]

theorem isTelling_eq_false {f : Fault} (h : k.ofCode code = .error f) :
    ∀ t ∈ code, isTelling t = false := by
  unfold ofCode at h
  by_cases htypedef : ((code.head?.map Token.value).getD "" == "typedef") = true
  · simp only [htypedef, Bool.not_true, Bool.false_eq_true, ↓reduceIte] at h
    repeat' split at h
    all_goals cases h
  · simp only [htypedef, Bool.not_false, Bool.false_eq_true, ↓reduceIte] at h
    have hsilent : (code.filter isTelling).take 3 = [] := by
      repeat' split at h
      all_goals first | assumption | cases h
    simpa [take_eq_nil_iff, filter_eq_nil_iff] using hsilent

theorem ofCode_eq_error (hcode : ∀ t ∈ code, isTelling t = false)
    (hfirst : ∀ t ∈ code.head?, t.value ∉ ["extern", "typedef"]) :
    k.ofCode code = .error .undecidedStatement := by
  have hsilent : (code.filter isTelling).take 3 = [] := by
    rw [filter_eq_nil_iff.mpr fun t ht => by simp [hcode t ht], take_nil]
  have hvalue : (code.head?.map Token.value).getD "" ∉ ["extern", "typedef"] := by
    cases code with
    | nil => decide
    | cons t ts => exact hfirst t rfl
  simp only [mem_cons, not_mem_nil, or_false, not_or] at hvalue
  simp [ofCode, hvalue, hsilent, throw, throwThe, MonadExceptOf.throw, bind, Except.bind]

theorem mem_statements_of_ofLead (h : (ofLead k ts).2 = false)
    (hkinds : ∀ t ∈ ts, t.kind = Kind.ofText t.value)
    (hdirective : ∀ front t rear, ts = front ++ t :: rear → t.kind = .directive → rear = []) :
    ∀ t ∈ (Tokens.code ts).head?, t.value ∈ Keyword.statements := by
  have hskip : ∀ (t : Token) (ts : List Token), t.isCode = false →
      Tokens.code (t :: ts) = Tokens.code ts := by
    intro t ts ht
    rw [Tokens.code, filter_cons_of_neg (by simp [ht])]
    rfl
  fun_induction ofLead k ts with
  | case1 => exact fun _ ht => absurd ht (Option.not_mem_none _)
  | case2 k t ts hkind ih | case3 k t ts hkind ih =>
    rw [hskip t ts (by simp [Token.isCode, hkind, Kind.isCode])]
    exact ih h (forall_mem_cons.mp hkinds).2
      fun front u rear heq => hdirective (t :: front) u rear (by rw [heq]; rfl)
  | case4 k t ts hkind =>
    rw [hdirective [] t ts rfl hkind, hskip t [] (by simp [Token.isCode, hkind, Kind.isCode])]
    exact fun _ ht => absurd ht (Option.not_mem_none _)
  | case5 k t ts hkeyword =>
    rw [contains_iff_mem] at hkeyword
    have hword : t.isCode = true := by
      rw [Token.isCode, hkinds t mem_cons_self]
      exact (by decide : ∀ v ∈ Keyword.statements, (Kind.ofText v).isCode = true) _ hkeyword
    rw [Tokens.code, filter_cons_of_pos hword]
    exact fun u hu => Option.some.inj hu ▸ hkeyword
  | case6 => cases h

theorem ofTokens_eq {k : StatementKind} (hlead : ofLead {} ts = (k, true)) {code : List Token}
    (hcode : dropIgnored true (Tokens.code ts) = code) (hlength : 2 ≤ code.length) :
    ofTokens ts = ofCode { k with postComment := Tokens.postComment ts } code := by
  rw [ofTokens, hlead, hcode]
  obtain _ | ⟨a, _ | ⟨b, code⟩⟩ := code
  · cases hlength
  · simp at hlength
  · rfl

theorem exists_ofTokens_iff (hkinds : ∀ t ∈ ts, t.kind = Kind.ofText t.value)
    (hdirective : ∀ front t rear, ts = front ++ t :: rear → t.kind = .directive → rear = []) :
    (∃ k, ofTokens ts = .ok k) ↔ ¬Undecided ts := by
  have hcode : ∀ t ∈ Tokens.code ts, t.isCode = true ∧ t.kind = Kind.ofText t.value := by
    intro t ht
    obtain ⟨u, hu, rfl⟩ := mem_map.mp ht
    obtain ⟨hu, hcode⟩ := mem_filter.mp hu
    exact ⟨hcode, hkinds u hu⟩
  have hcount : ∀ t ∈ dropIgnored true (Tokens.code ts),
      (isTelling t = false ↔ t.IsMute) ∧ t.kind = Kind.ofText t.value := fun t ht =>
    (hcode t (mem_of_mem_dropIgnored ht)).imp_left isTelling_eq_false_iff
  by_cases hlength : 2 ≤ (dropIgnored true (Tokens.code ts)).length
  · obtain ⟨⟨k, more⟩, hlead⟩ : ∃ lead, ofLead {} ts = lead := ⟨_, rfl⟩
    cases more with
    | true =>
      rw [ofTokens_eq hlead rfl hlength]
      constructor
      · rintro ⟨k', hk⟩ ⟨-, hall⟩
        rw [ofCode_eq_error (fun t ht => (hcount t ht).1.mpr (hall t ht))] at hk
        · cases hk
        · intro t ht hvalue
          have ht := mem_of_mem_head? ht
          exact value_not_mem_of_isMute (hall t ht) (hcount t ht).2
            ((by decide : ["extern", "typedef"] ⊆ "extern" :: "typedef" :: Keyword.statements) hvalue)
      · intro hnot
        cases hkind : ofCode { k with postComment := Tokens.postComment ts } _ with
        | ok k' => exact ⟨k', rfl⟩
        | error f =>
          exact absurd ⟨hlength, fun t ht => (hcount t ht).1.mp (isTelling_eq_false hkind t ht)⟩ hnot
    | false =>
      refine iff_of_true ⟨k, by rw [ofTokens, hlead]; rfl⟩ fun hall => ?_
      have hkeyword := mem_statements_of_ofLead (k := {}) (by rw [hlead]) hkinds hdirective
      cases hts : Tokens.code ts with
      | nil => simp [hts, dropIgnored] at hlength
      | cons t rest =>
        have ht : t.value ∈ Keyword.statements := hkeyword t (by rw [hts]; rfl)
        have hkept := (by decide : ∀ v ∈ Keyword.statements,
          v ∉ Keyword.ignored ∧ ¬(v = "const" ∨ v = "static")) _ ht
        have hmem : t ∈ dropIgnored true (Tokens.code ts) := by
          rw [hts, dropIgnored_cons hkept.1 fun _ => hkept.2]
          exact mem_cons_self
        exact value_not_mem_of_isMute (hall.2 t hmem) (hcount t hmem).2
          (mem_cons_of_mem _ (mem_cons_of_mem _ ht))
  · refine iff_of_true ?_ fun h => hlength h.1
    unfold ofTokens
    rcases hdrop : dropIgnored true (Tokens.code ts) with _ | ⟨a, _ | ⟨b, rest⟩⟩
    · exact ⟨(ofLead {} ts).1, ite_self _⟩
    · dsimp only
      split <;> exact ⟨_, rfl⟩
    · simp [hdrop] at hlength

/-! ## Records -/

theorem isRecord_eq_of_ofCode (h : k.ofCode code = .ok k') (hnone : ∀ t ∈ code, t.kind ≠ .brace) :
    k'.isDirective = k.isDirective ∧ k'.isRecord = k.isRecord := by
  have hbody (n : Nat) : hasBody (code.drop n) = false := by
    rw [hasBody, ← Bool.not_eq_true, Option.any_eq_true]
    rintro ⟨t, ht, hkind⟩
    exact hnone t (mem_of_mem_drop (mem_of_find?_eq_some ht)) (eq_of_beq hkind)
  have hwhole := hbody 0
  have hrest := hbody 1
  unfold ofCode at h
  simp only [bind, Except.bind, pure, Except.pure, throw, throwThe, MonadExceptOf.throw] at h
  repeat' split at h
  all_goals cases h
  all_goals first | exact ⟨rfl, rfl⟩ | simp_all

theorem isDirective_ofLead (hdirective : ∀ front t rear, ts = front ++ t :: rear →
      t.kind = .directive → rear = []) (hcode : Tokens.code ts ≠ []) :
    (ofLead k ts).1.isDirective = k.isDirective ∧ (ofLead k ts).1.isRecord = k.isRecord := by
  have htail {t : Token} {ts : List Token} (h : ∀ front u rear, t :: ts = front ++ u :: rear →
      u.kind = .directive → rear = []) :
      ∀ front u rear, ts = front ++ u :: rear → u.kind = .directive → rear = [] :=
    fun front u rear hts => h (t :: front) u rear (congrArg _ hts)
  fun_induction ofLead k ts with
  | case1 => exact absurd rfl hcode
  | case2 k t ts hkind ih | case3 k t ts hkind ih =>
    exact ih (htail hdirective)
      (by simpa [Tokens.code, Token.isCode, hkind, Kind.isCode] using hcode)
  | case4 k t ts hkind =>
    obtain rfl := hdirective [] t ts rfl hkind
    exact absurd (by simp [Tokens.code, Token.isCode, hkind, Kind.isCode]) hcode
  | case5 => exact ⟨rfl, rfl⟩
  | case6 => exact ⟨rfl, rfl⟩

theorem exists_ofTokens_of_not_isMute (hkinds : ∀ t ∈ ts, t.kind = Kind.ofText t.value)
    (hdirective : ∀ front t rear, ts = front ++ t :: rear → t.kind = .directive → rear = [])
    (ht : t ∈ dropIgnored true (Tokens.code ts)) (hmute : ¬t.IsMute)
    (hnone : ∀ u ∈ Tokens.code ts, u.kind ≠ .brace) :
    ∃ k, ofTokens ts = .ok k ∧ k.isDirective = false ∧ k.isRecord = false := by
  obtain ⟨k, hk⟩ := (exists_ofTokens_iff hkinds hdirective).mpr fun hall => hmute (hall.2 t ht)
  refine ⟨k, hk, ?_⟩
  have hlead := isDirective_ofLead (k := {}) hdirective
    (ne_nil_of_mem (mem_of_mem_dropIgnored ht))
  unfold ofTokens at hk
  generalize ofLead {} ts = lead at hk hlead
  repeat' split at hk
  · cases hk
    exact hlead
  · cases hk
    exact hlead
  · cases hk
    exact hlead
  · obtain ⟨hd, hr⟩ := isRecord_eq_of_ofCode hk fun u hu =>
      hnone u (mem_of_mem_dropIgnored hu)
    exact ⟨hd.trans hlead.1, hr.trans hlead.2⟩

/-! ## Flags that go together -/

/-- Only what comments tell. -/
def bare (k : StatementKind) : StatementKind :=
  { isComment := k.isComment, preComment := k.preComment, postComment := k.postComment }

/-- The flags of a kind fit together; a directive, a keyword and an `extern "C"` stand alone. -/
structure Coherent (k : StatementKind) : Prop where
  functionDef : k.isFunctionDef = true → k.isFunctionDecl = true
  functionDecl : k.isFunctionDecl = true → k.isFunction = true ∧ k.isDecl = true
  initialization : k.isInitialization = true → k.isExpression = true
  unnamedRecord : k.isUnnamedRecord = true → k.isRecord = true
  record : k.isRecord = true → k.isFunction = false
  typedef : k.isTypedef = true → k.isDecl = false ∧ k.isExpression = false ∧ k.isFunction = false
  directive : k.isDirective = true → k = { k.bare with isDirective := true }
  statement : k.isStatement = true → k = { k.bare with isStatement := true }
  externC : k.isExternC = true → k = { k.bare with isExternC := true }

theorem coherent_bare (k : StatementKind) : k.bare.Coherent := by
  constructor <;> simp [bare]

theorem ofLead_cases (h : k = k.bare) (ts : List Token) :
    (ofLead k ts).1.Coherent ∧ ((ofLead k ts).2 = true → (ofLead k ts).1 = (ofLead k ts).1.bare) := by
  fun_induction ofLead k ts with
  | case1 => exact ⟨h ▸ coherent_bare _, by simp⟩
  | case2 k t ts hkind ih => exact ih h
  | case3 k t ts hkind ih => exact ih (by rw [h]; rfl)
  | case4 k t ts hkind | case5 k t ts hkeyword =>
    rw [h]; exact ⟨by constructor <;> simp [bare], by simp⟩
  | case6 => exact ⟨h ▸ coherent_bare _, fun _ => h⟩

theorem coherent_ofCode (hk : k = k.bare) (h : k.ofCode code = .ok k') : k'.Coherent := by
  rw [hk] at h
  unfold ofCode bare at h
  cases htypedef : (code.head?.map Token.value).getD "" == "typedef" <;>
    simp only [htypedef, Bool.not_true, Bool.not_false, Bool.false_eq_true, ↓reduceIte] at h
  all_goals repeat' split at h
  all_goals cases h
  all_goals constructor <;> simp +contextual [bare]

/-- **The flags of a statement fit together**, for every list of tokens whose kind is known. -/
theorem ofTokens_coherent (h : ofTokens ts = .ok k) : k.Coherent := by
  obtain ⟨hlead, hmore⟩ := ofLead_cases (k := {}) rfl ts
  unfold ofTokens at h
  dsimp only at h
  split at h
  · cases h
    exact hlead
  · rename_i hnot
    have hbare := hmore (by simpa using hnot)
    split at h
    · cases h
      exact hlead
    · cases h
      rw [hbare]
      constructor <;> simp [bare]
    · exact coherent_ofCode (by rw [hbare]; rfl) h

/-- A function with a body is a function that is declared. -/
theorem ofTokens_coherent_function :
    ∃ k, ofTokens (Token.scan "int ff(void) \x7b \x7d".toList 0) = .ok k ∧ k.isFunctionDef = true ∧
      k.isFunction = true ∧ k.isDecl = true := by
  have hkind : (ofTokens (Token.scan "int ff(void) \x7b \x7d".toList 0)).toOption.any
      isFunctionDef = true := by decide +kernel
  cases h : ofTokens (Token.scan "int ff(void) \x7b \x7d".toList 0) with
  | error e =>
    rw [h] at hkind
    cases hkind
  | ok k =>
    rw [h] at hkind
    have hcoherent := ofTokens_coherent h
    exact ⟨k, rfl, hkind, hcoherent.functionDecl (hcoherent.functionDef hkind)⟩

end StatementKind

/-- **Which statements can be told**: exactly those that are not undecided. -/
theorem Statement.exists_kind_iff_of_mem_scan {s : List Char} {base : Int} {st : Statement}
    (h : st ∈ scan s base) : (∃ k, st.kind = .ok k) ↔ ¬StatementKind.Undecided st.tokens := by
  rw [kind, kind?_of_mem_group {} _ st h]
  exact StatementKind.exists_ofTokens_iff (fun t ht => (standsIn_of_mem_scan h t ht).kind_eq)
    (sealed_group Pending.sound_empty _ st h).directive_last

/-- Two string literals are a statement that cannot be told. -/
theorem Statement.exists_kind_iff_of_mem_scan_literals :
    ∃ st ∈ scan "\"a\" \"b\";".toList 0, ¬∃ k, st.kind = .ok k := by
  have hany : (scan "\"a\" \"b\";".toList 0).any
      (fun st => decide (StatementKind.Undecided st.tokens)) = true := by decide +kernel
  obtain ⟨st, hst, hundecided⟩ := any_eq_true.mp hany
  exact ⟨st, hst, fun h => (exists_kind_iff_of_mem_scan hst).mp h (of_decide_eq_true hundecided)⟩

end CBoundary
