import CBoundary.Proofs.Code.Finding
import CBoundary.Proofs.Statement.Readable

/-!
# Which names are recognised

The words of a built-in type, a name, arguments and a body are a function definition exactly if
the name has at least two characters.  A record whose tag is as short as that goes by the place
of its body.
-/

namespace CBoundary

open Text List Statement StatementKind Token

variable {words stars ts l : List Token} {t name parens braces : Token}

/-- An identifier that is no reserved word. -/
structure Token.IsIdentifier (t : Token) : Prop extends t.IsFree where
  start : t.chars.head?.any isNameStart = true

theorem Token.IsIdentifier.isLongName_eq (h : t.IsIdentifier) :
    t.isLongName = decide (2 ≤ t.chars.length) := by
  have hstart := h.start
  have hchars := h.chars
  unfold isLongName
  generalize t.chars = chars at hstart hchars
  cases chars with
  | nil => cases hstart
  | cons c cs =>
    have hnone : cs.dropWhile isWordChar = [] := by
      rw [← append_nil cs, dropWhile_append_of_pos (forall_mem_cons.mp hchars).2]
      rfl
    change isNameStart c = true at hstart
    cases cs <;> simp [Text.isLongName, hstart, hnone]

/-! ## White space -/

theorem Statement.spaced_scan {s : List Char} (h : (Token.scan s 0).all (fun t =>
      !([Kind.invalid, .comment, .directive].contains t.settled.kind)) = true)
    (hl : ((Token.scan s 0).map settled).filter (fun t => t.kind != .space) = l) :
    Spaced ((Token.scan s 0).map settled) l := by
  rw [← hl]
  refine spaced_filter (forall_settled_scan s 0) (fun t ht => ?_)
  obtain ⟨u, hu, rfl⟩ := mem_map.mp ht
  simpa using all_eq_true.mp h u hu

theorem Statement.Spaced.code_eq (h : Spaced ts l) : Tokens.code ts = l.filter Token.isCode := by
  induction h with
  | nil => rfl
  | space _ hkind _ ih =>
    rw [← ih, Tokens.code, filter_cons_of_neg (by simp [Token.isCode, hkind, Kind.isCode])]
    rfl
  | @token t ts l ht _ _ ih =>
    unfold Tokens.code at ih ⊢
    rw [filter_cons, filter_cons, ← ih]
    split
    · rw [map_cons, ht.settled_eq]
    · rfl

theorem Statement.Spaced.exists_front (h : Spaced ts (t :: l)) :
    ∃ front rest, ts = front ++ t :: rest ∧ (∀ u ∈ front, Settled u ∧ u.kind = .space) ∧
      Settled t ∧ Spaced rest l := by
  obtain ⟨front, rest, rfl, hfront, hrest⟩ := Spaced.exists_mid (l := []) h
  refine ⟨front, rest, rfl, fun u hu => ?_, (h.space_or_mem (by simp)).1, hrest⟩
  exact (hfront.space_or_mem hu).imp_right fun h => h.resolve_right not_mem_nil

/-! ## Function definitions -/

namespace StatementKind

theorem ofLead_eq (k : StatementKind) (h : Statement.Spaced ts (t :: l))
    (ht : t.value ∉ Keyword.statements) : ofLead k ts = (k, true) := by
  generalize hl : t :: l = all at h
  induction h with
  | nil => cases hl
  | space _ hkind _ ih => rw [ofLead, hkind]; exact ih hl
  | token _ hkind _ _ =>
    unfold ofLead
    split <;> simp_all

theorem ofCode_of_isBuiltinType (k : StatementKind) {code rest : List Token} {w u : Token}
    (hhead : code.head? = some w) (hw : w.isBuiltinType = true)
    (htelling : (code.filter isTelling).take 3 = w :: u :: rest)
    (hoperator : code.tail.dropLast.find? (fun t => t.kind == .operator && t.value != "*") = none)
    (hbody : hasBody code = true) {b : Bool} (hcall : ∀ k, callsFunction k code = b) :
    k.ofCode code = .ok { k with
      isTypedef := false
      isDecl := true
      isFunction := b || k.isFunction
      isFunctionDecl := b || k.isFunctionDecl
      isFunctionDef := b || k.isFunctionDef } := by
  have hdecl : startsDeclaration (w :: u :: rest) = true := by simp [startsDeclaration, hw]
  have hfree : w.value ∉ "extern" :: "typedef" :: Keyword.records :=
    (by decide : ∀ v ∈ Keyword.types, v ∉ "extern" :: "typedef" :: Keyword.records) w.value
      (by simpa [isBuiltinType] using hw)
  have htypedef : (w.value == "typedef") = false :=
    beq_eq_false_iff_ne.mpr fun h => hfree (by simp [h])
  have hrecord : w.announcesRecord = false := by
    simpa [announcesRecord] using fun h => hfree (by simp [h])
  have hextern : (w.value == "extern") = false :=
    beq_eq_false_iff_ne.mpr fun h => hfree (by simp [h])
  unfold ofCode
  cases b <;> simp [hhead, hextern, htypedef, hrecord, htelling, hdecl, hoperator, hbody, hcall,
    pure, Except.pure]

end StatementKind

namespace FunctionDecl.IsDefinition

variable (h : IsDefinition words stars name parens braces)

include h

theorem front : ∀ u ∈ words ++ stars ++ [name], u.startsWith '(' = false ∧ u.kind ≠ .brace ∧
    u.value ≠ "=" ∧ (u.kind = .operator → u.value = "*") := by
  have hword : ∀ u : Token, u.IsWord → u.startsWith '(' = false ∧ u.kind ≠ .brace ∧
      u.value ≠ "=" ∧ (u.kind = .operator → u.value = "*") := fun u hu =>
    ⟨hu.startsWith_eq_false rfl, by simp [hu.kind], hu.value_ne rfl, by simp [hu.kind]⟩
  simp only [forall_mem_append, forall_mem_singleton]
  refine ⟨⟨fun u hu => hword u (h.words u hu), fun u hu => ?_⟩, hword name h.name⟩
  obtain ⟨hkind, hvalue⟩ := h.stars u hu
  exact ⟨by simp [startsWith, chars, hvalue], by simp [hkind], by simp [hvalue],
    fun _ => hvalue⟩

theorem callsFunction_eq (k : StatementKind) :
    k.callsFunction (words ++ stars ++ [name] ++ [parens, braces]) = name.isLongName := by
  rw [callsFunction_append (startsWith_eq h.parens.head _) (by simp)
    (fun u hu => (h.front u hu).1) (forall_mem_singleton.mpr (startsWith_eq h.braces.head _)),
    getLast?_concat, Option.any_some]

theorem hasBody_eq :
    hasBody (words ++ stars ++ [name] ++ [parens, braces]) = true := by
  have hnone : (words ++ stars ++ [name]).find? (fun t => t.kind == .brace || t.value == "=") =
      none := find?_eq_none.mpr fun t ht => by simp [h.front t ht]
  have hequals : parens.value ≠ "=" := fun hvalue => by
    have hhead := h.parens.head
    rw [chars, hvalue] at hhead
    cases hhead
  rw [hasBody, find?_append, hnone]
  simp [h.parens.kind, h.braces.kind, hequals]

theorem ofCode_eq (hbuiltin : ∀ t ∈ words, t.isBuiltinType = true) (k : StatementKind) :
    k.ofCode (words ++ (stars ++ [name, parens, braces])) = .ok { k with
      isTypedef := false
      isDecl := true
      isFunction := name.isLongName || k.isFunction
      isFunctionDecl := name.isLongName || k.isFunctionDecl
      isFunctionDef := name.isLongName || k.isFunctionDef } := by
  have hcall := h.callsFunction_eq
  have hbody := h.hasBody_eq
  have hfront := h.front
  obtain ⟨w, ws, rfl⟩ := exists_cons_of_ne_nil h.nonempty
  have hw := hbuiltin w mem_cons_self
  have htells : isTelling w = true := by
    have hrecord : w.value ∉ Keyword.records :=
      (by decide : ∀ v ∈ Keyword.types, v ∉ Keyword.records) w.value
        (by simpa [isBuiltinType] using hw)
    simpa [isTelling, (h.words w mem_cons_self).kind, announcesRecord] using hrecord
  have hmem : parens ∈ (ws ++ stars ++ [name] ++ [parens, braces]).filter isTelling :=
    mem_filter.mpr ⟨by simp, by simp [isTelling, h.parens.kind]⟩
  obtain ⟨u, rest, hrest⟩ := exists_cons_of_ne_nil (ne_nil_of_mem hmem)
  have htelling : ((w :: (ws ++ stars ++ [name] ++ [parens, braces])).filter
      isTelling).take 3 = w :: u :: rest.take 1 := by
    rw [filter_cons_of_pos htells, hrest]
    rfl
  have hoperator : (ws ++ stars ++ [name] ++ [parens, braces]).dropLast.find?
      (fun t => t.kind == .operator && t.value != "*") = none := by
    refine find?_eq_none.mpr fun t ht => ?_
    rcases mem_append.mp ((dropLast_sublist _).subset ht) with ht | ht
    · simpa using (hfront t (mem_cons_of_mem w ht)).2.2.2
    · simp only [mem_cons, not_mem_nil, or_false] at ht
      rcases ht with rfl | rfl
      · simp [h.parens.kind]
      · simp [h.braces.kind]
  rw [show w :: ws ++ (stars ++ [name, parens, braces]) =
    w :: (ws ++ stars ++ [name] ++ [parens, braces]) by simp]
  exact ofCode_of_isBuiltinType k rfl hw htelling hoperator hbody hcall

theorem dropIgnored_eq (hbuiltin : ∀ t ∈ words, t.isBuiltinType = true)
    (hname : name.value ∉ Keyword.reserved) (b : Bool) :
    Declaration.dropIgnored b (words ++ (stars ++ [name, parens, braces])) =
      words ++ (stars ++ [name, parens, braces]) := by
  have hfree : ∀ t ∈ words ++ (stars ++ [name, parens, braces]), t.value ∉ Keyword.reserved := by
    simp only [forall_mem_append, forall_mem_cons]
    refine ⟨fun t ht => ?_, fun t ht => ?_, hname, ?_, ?_, forall_mem_nil _⟩
    · exact (by decide : ∀ w ∈ Keyword.types, w ∉ Keyword.reserved) t.value
        (by simpa [isBuiltinType] using hbuiltin t ht)
    · rw [(h.stars t ht).value]
      decide
    · exact parens.value_not_mem h.parens.head rfl (by decide)
    · exact braces.value_not_mem h.braces.head rfl (by decide)
  have hstays := fun t ht => Declaration.stays_iff.mp (Declaration.stays_of_free (hfree t ht))
  exact Declaration.dropIgnored_eq_self (fun t ht => (hstays t ht).1) fun _ t ht => (hstays t ht).2

theorem isCode : ∀ t ∈ words ++ (stars ++ [name, parens, braces]), t.isCode = true := by
  simp only [forall_mem_append, forall_mem_cons]
  refine ⟨fun t ht => ?_, fun t ht => ?_, ?_, ?_, ?_, forall_mem_nil _⟩
  · rw [Token.isCode, (h.words t ht).kind]; rfl
  · rw [Token.isCode, (h.stars t ht).kind]; rfl
  · rw [Token.isCode, h.name.kind]; rfl
  · rw [Token.isCode, h.parens.kind]; rfl
  · rw [Token.isCode, h.braces.kind]; rfl

end FunctionDecl.IsDefinition

/-! ## Records -/

namespace RecordDecl

theorem readFront_append {front : List Token} (hfront : ∀ u ∈ front, Settled u ∧ u.kind = .space)
    (f : Front) (ts : List Token) : readFront f (front ++ ts) = readFront f ts := by
  induction front with
  | nil => rfl
  | cons u front ih =>
    obtain ⟨⟨hsettled, hkind⟩, hfront⟩ := forall_mem_cons.mp hfront
    obtain ⟨-, c, hhead, hc⟩ := isQuiet_of_space hsettled hkind
    have hvalue : u.value ∉ "typedef" :: "union" :: "enum" :: "struct" :: Keyword.qualifiers :=
      u.value_not_mem hhead hc (by decide)
    simp only [mem_cons, not_or] at hvalue
    have hlong : u.isLongName = false := isLongName_of_head? hhead
      (by simp_all [isNameStart, isWordChar, Char.isAlphanum])
    rw [cons_append, readFront]
    simpa [hvalue, isQualifier, hlong, hkind] using ih hfront

variable {record body : Token}

theorem readFront_body (hbody : body.Opens .brace '\x7b') (hts : Statement.Spaced ts (body :: l))
    (f : Front) :
    ∃ rest, Statement.Spaced rest l ∧ readFront f ts = some (f, body.interior, rest) := by
  obtain ⟨front, rest, rfl, hfront, -, hrest⟩ := hts.exists_front
  have hvalue : body.value ∉ "typedef" :: Keyword.qualifiers :=
    body.value_not_mem hbody.head rfl (by decide)
  have hlong : body.isLongName = false := isLongName_of_head? hbody.head rfl
  refine ⟨rest, hrest, ?_⟩
  rw [readFront_append hfront, readFront]
  simp only [mem_cons, Keyword.qualifiers, not_or] at hvalue
  simp [hvalue, isQualifier, Keyword.qualifiers, hlong, hbody.kind]

theorem exists_ofTokens {tag : Option Token} (hrecord : record.IsWord)
    (hkind : record.value ∈ ["struct", "union"]) (htag : ∀ t ∈ tag, t.IsIdentifier)
    (hbody : body.Opens .brace '\x7b')
    (hts : Statement.Spaced ts (record :: (tag.toList ++ body :: l))) (c : Context)
    (parent : Option String) :
    ∃ r rest, ofTokens c ts parent = .ok (some r) ∧ Statement.Spaced rest l ∧
      r.name = (tag.filter Token.isLongName).getD ⟨body.interior.idx, body.interior.span,
        "(" ++ c.location body.interior.span.start ++ ")", none⟩ ∧
      r.body = some body.interior ∧ r.members = none ∧
      r.vardefs = some ((Statement.ofTokens rest).filterMap fun s =>
        (Variable.ofDefinition c.scope s.tokens).map fun v => { v with type := some [r.name] }) ∧
      r.unnamed = ((tag.filter Token.isLongName).isNone && (r.vardefs.getD []).isEmpty) := by
  obtain ⟨front, rest, rfl, hfront, hsettled, hrest⟩ := hts.exists_front
  have hlead : Tokens.lead? (front ++ record :: rest) = some ⟨none, front.length⟩ := by
    have hindex : (front ++ record :: rest).findIdx? (fun t => t.kind != .space) =
        some front.length := by
      rw [findIdx?_append, findIdx?_eq_none_iff.mpr fun t ht => by simp [(hfront t ht).2],
        findIdx?_cons, hrecord.kind]
      simp
    unfold Tokens.lead?
    split
    · simp at *
    · simp [hindex, hrecord.kind]
  obtain ⟨kind, hfirst⟩ : ∃ kind, readFront {} (record :: rest) = readFront { kind := kind } rest := by
    simp only [mem_cons, not_mem_nil, or_false] at hkind
    rcases hkind with hvalue | hvalue
    · exact ⟨.struct, by simp [readFront, hvalue]⟩
    · exact ⟨.union, by simp [readFront, hvalue]⟩
  obtain ⟨behind, hbehind, hread⟩ : ∃ behind, Statement.Spaced behind l ∧
      readFront {} (record :: rest) =
        some (⟨kind, tag.filter Token.isLongName, false⟩, body.interior, behind) := by
    rw [hfirst]
    cases tag with
    | none => exact readFront_body hbody hrest _
    | some t =>
      have ht := htag t rfl
      obtain ⟨space, rest, rfl, hspace, -, hrest⟩ := hrest.exists_front
      obtain ⟨behind, hbehind, hread⟩ := readFront_body hbody hrest
        ⟨kind, (some t).filter Token.isLongName, false⟩
      refine ⟨behind, hbehind, hread ▸ ?_⟩
      have hvalue : t.value ∉ "typedef" :: Keyword.qualifiers := fun hmem =>
        ht.free ht.isQualifier ((by decide : "typedef" :: Keyword.qualifiers ⊆ Keyword.reserved) hmem)
      simp only [mem_cons, Keyword.qualifiers, not_or] at hvalue
      rw [readFront_append hspace, readFront]
      cases hlong : t.isLongName <;>
        simp [hvalue, ht.isQualifier, ht.kind, hlong, Option.filter]
  unfold ofTokens
  simp only [hlead, drop_left, Option.isNone_none, if_true, take_succ_cons, take_zero, map_cons,
    map_nil, hsettled.settled_eq, singleton_append, drop_succ_cons, drop_zero, hread]
  exact ⟨_, behind, rfl, hbehind, rfl, rfl, rfl, rfl, rfl⟩

end RecordDecl

/-! ## Names of any length -/

open Audit Codebase in
/-- **Names of one character.** A function definition of a built-in type is entered exactly if its
name has two characters or more. A record has its tag for a name under the same condition. -/
theorem recognized_iff_two_le_length (h : FunctionDecl.IsDefinition words stars name parens braces)
    (hbuiltin : ∀ t ∈ words, t.isBuiltinType = true) (hname : name.IsIdentifier) {st : Statement}
    (hst : Statement.Spaced st.tokens (words ++ (stars ++ [name, parens, braces])))
    {record tag body : Token} (hrecord : record.Spells .word "struct") (htag : tag.IsIdentifier)
    (hbody : body.Opens .brace '\x7b') (hts : Statement.Spaced ts (record :: tag :: body :: l))
    (c : Context) (directives : Bool) (cb : Codebase) :
    (∃ k f, StatementKind.ofTokens st.tokens = .ok k ∧
      (k.isFunctionDef = true ↔ 2 ≤ name.chars.length) ∧ f.name = name ∧
      Answers (addStatement c directives st k cb)
        (.ok (if 2 ≤ name.chars.length then cb.enter (.function c f) else cb))) ∧
      ∃ r, RecordDecl.ofTokens c ts none = .ok (some r) ∧
        (r.name = tag ↔ 2 ≤ tag.chars.length) := by
  constructor
  · have hdrop (b : Bool) : Declaration.dropIgnored b (Tokens.code st.tokens) =
        words ++ (stars ++ [name, parens, braces]) := by
      rw [hst.code_eq, filter_eq_self.mpr h.isCode]
      exact h.dropIgnored_eq hbuiltin (hname.free hname.isQualifier) b
    have hlead : ofLead {} st.tokens = ({}, true) := by
      obtain ⟨w, ws, rfl⟩ := exists_cons_of_ne_nil h.nonempty
      refine ofLead_eq {} hst ?_
      exact (by decide : ∀ v ∈ Keyword.types, v ∉ Keyword.statements) w.value
        (by simpa [isBuiltinType] using hbuiltin w mem_cons_self)
    have hkind := ofTokens_eq hlead (hdrop true) (by simp; omega)
    rw [h.ofCode_eq hbuiltin] at hkind
    obtain ⟨f, hf, hfname, -, hfbody, -⟩ := h.exists_ofTokens (hdrop false) c.scope
    obtain ⟨k, hk, hdef, hrecord, hdecl, hdeclares⟩ : ∃ k : StatementKind,
        StatementKind.ofTokens st.tokens = .ok k ∧ k.isFunctionDef = name.isLongName ∧
          k.isRecord = false ∧ k.isFunctionDecl = name.isLongName ∧ k.isDecl = true :=
      ⟨_, hkind, Bool.or_false _, rfl, Bool.or_false _, rfl⟩
    rw [hname.isLongName_eq] at hdef hdecl
    have hanswers := answers_addStatement c directives st k cb
    unfold statementFindings at hanswers
    refine ⟨k, f, hk, by rw [hdef, decide_eq_true_eq], hfname, ?_⟩
    rw [hdef, hrecord, hdecl, hdeclares, FunctionDecl.ofStatement_eq hf] at hanswers
    by_cases hlong : 2 ≤ name.chars.length
    · simpa [hlong, Except.map, hfbody, enterAll] using hanswers
    · simpa [hlong, Except.map] using hanswers
  · have hword : record.IsWord := ⟨hrecord.kind, by simp [chars, hrecord.value],
      by rw [chars, hrecord.value]; exact all_eq_true.mp rfl⟩
    have hspaced : Statement.Spaced ts (record :: ((some tag).toList ++ body :: l)) := hts
    obtain ⟨r, -, hr, -, hrname, -⟩ := RecordDecl.exists_ofTokens hword (by simp [hrecord.value])
      (fun t ht => by cases ht; exact htag) hbody hspaced c none
    refine ⟨r, hr, ?_⟩
    have hlong := htag.isLongName_eq
    rw [hrname, Option.filter]
    split
    · rename_i h
      rw [h] at hlong
      simpa using hlong
    · rename_i h
      have hne : tag.value ≠ "(" ++ c.location body.interior.span.start ++ ")" :=
        htag.toIsWord.value_ne (by simp [String.toList_append, isWordChar])
      exact iff_of_false (fun heq => hne (congrArg value heq).symm)
        fun hlength => h (hlong.trans (decide_eq_true hlength))

/-- A function and a record whose names have one character. -/
theorem recognized_iff_two_le_length_short :
    (∃ k, StatementKind.ofTokens ((Token.scan "int f(void) \x7b\x7d".toList 0).map Token.settled) =
        .ok k ∧ k.isFunctionDef = false) ∧
      ∃ r, RecordDecl.ofTokens {} ((Token.scan "struct s \x7b\x7d;".toList 0).map Token.settled) none =
        .ok (some r) ∧ r.name ≠ ⟨2, ⟨7, 8⟩, "s", some .word⟩ := by
  have hst : Statement.Spaced (Statement.tokens
      ⟨(Token.scan "int f(void) \x7b\x7d".toList 0).map settled, none⟩)
      ([⟨0, ⟨0, 3⟩, "int", some .word⟩] ++ ([] ++ [⟨2, ⟨4, 5⟩, "f", some .word⟩,
        ⟨3, ⟨5, 11⟩, "(void)", some .paren⟩, ⟨5, ⟨12, 14⟩, "\x7b\x7d", some .brace⟩])) :=
    spaced_scan (by decide +kernel) (by decide +kernel)
  have hts : Statement.Spaced ((Token.scan "struct s \x7b\x7d;".toList 0).map settled)
      [⟨0, ⟨0, 6⟩, "struct", some .word⟩, ⟨2, ⟨7, 8⟩, "s", some .word⟩,
        ⟨4, ⟨9, 11⟩, "\x7b\x7d", some .brace⟩, ⟨5, ⟨11, 12⟩, ";", some .separator⟩] :=
    spaced_scan (by decide +kernel) (by decide +kernel)
  have hname : Token.IsIdentifier ⟨2, ⟨4, 5⟩, "f", some .word⟩ :=
    ⟨⟨⟨⟨rfl, by decide, all_eq_true.mp rfl⟩, fun _ => by decide⟩, by decide⟩, by decide⟩
  obtain ⟨⟨k, -, hk, hdef, -⟩, r, hr, hrname⟩ := recognized_iff_two_le_length
    ⟨cons_ne_nil _ _, forall_mem_singleton.mpr ⟨rfl, by decide, all_eq_true.mp rfl⟩,
      forall_mem_nil _, hname.toIsWord, ⟨rfl, rfl⟩, ⟨rfl, rfl⟩⟩ (by decide) hname hst ⟨rfl, rfl⟩
    ⟨⟨⟨⟨rfl, by decide, all_eq_true.mp rfl⟩, fun _ => by decide⟩, by decide⟩, by decide⟩
    ⟨rfl, rfl⟩ hts {} true {}
  exact ⟨⟨k, hk, Bool.eq_false_iff.mpr fun h => absurd (hdef.mp h) (by decide)⟩, r, hr,
    fun h => absurd (hrname.mp h) (by decide)⟩

end CBoundary
