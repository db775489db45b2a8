import CBoundary.Proofs.Code.Recognition
import CBoundary.Proofs.Declaration.Inside

/-!
# Member declarations

Each declaration in the body of a record is one statement or several.  What a statement adds to
the members depends on the ones before it only by the type that a comma hands on.
-/

namespace CBoundary

open Text List Statement Token StatementKind Declaration

variable {t record body mark : Token} {ts l words d rest : List Token} {name text : String}
variable {names : List String}

/-! ## Declarators -/

/-- The token that holds a name: the name itself, or parentheses without any other word. -/
inductive Token.Bears : Token → String → Prop where
  | word {t : Token} (h : t.IsFree) (hvoid : t.value ≠ "void") : Bears t t.value
  | inside {t : Token} {left word right : List Char} (h : t.Opens .paren '(')
      (hchars : t.chars = left ++ (word ++ right)) (hword : ∀ c ∈ word, isWordChar c = true)
      (hrest : ∀ c ∈ left ++ right, isWordCharOfAnyScript c = false) : Bears t (String.ofList word)

/-- Declarators with commas between them and a semicolon behind them, and their names. -/
inductive DeclaratorList : List Token → List String → Prop where
  | last {d : List Token} {t mark : Token} {name : String} (hd : Declarator d t)
      (hname : t.Bears name) (hmark : mark.Spells .separator ";") :
      DeclaratorList (d ++ [mark]) [name]
  | more {d l : List Token} {t mark : Token} {name : String} {names : List String}
      (hd : Declarator d t) (hname : t.Bears name) (hmark : mark.Spells .separator ",")
      (h : DeclaratorList l names) : DeclaratorList (d ++ mark :: l) (name :: names)

/-- A statement that declares a variable. -/
structure Statement.Declares (st : Statement) (words : List Token) (name text : String) : Prop where
  kind : ∃ k, st.kind = .ok k ∧ k.isDirective = false ∧ k.isRecord = false
  reads : ∀ scope, ∃ v, Variable.ofDefinition scope st.tokens = some v ∧ v.name.value = name ∧
    v.type = some (bareWords words) ∧ v.terminator = some text

theorem Token.Bears.onlyWordChars_eq (h : t.Bears name) : onlyWordChars t.value = name := by
  cases h with
  | word h _ => exact h.onlyWordChars_eq
  | inside _ hchars hword hrest => exact (onlyWordChars_eq_iff hchars hword).mpr hrest

theorem Token.Bears.isFree (h : t.Bears name) (ht : t.IsWord) : t.IsFree := by
  cases h with
  | word h _ => exact h
  | inside h _ _ _ => exact absurd (h.kind.symm.trans ht.kind) (by decide)

theorem Token.Bears.not_isMute (h : t.Bears name) : ¬t.IsMute ∧ t.value ≠ "void" := by
  cases h with
  | word h hvoid => exact ⟨h.not_isMute, hvoid⟩
  | inside h _ _ _ =>
    refine ⟨by simp [IsMute, h.kind], fun hvoid => ?_⟩
    have hhead := h.head
    simp [chars, hvoid] at hhead

theorem Statement.Spaced.terminatorOf_eq (h : Spaced ts (l ++ [mark]))
    (hmark : mark.Spells .separator text) (htext : text ∈ [",", ";"]) :
    Variable.terminatorOf ts = some text := by
  obtain ⟨front, rear, rfl, -, hrear⟩ := h.exists_mid
  rw [Variable.terminatorOf_append hmark.kind (by simpa [hmark.value] using htext)
    fun u hu => .inl ((hrear.space_or_mem hu).2.resolve_right not_mem_nil), hmark.value]

theorem Declarator.exists_declares (hd : Declarator d t) (hname : t.Bears name)
    (hmark : mark.Spells .separator text) (htext : text ∈ [",", ";"])
    (hwords : ∀ u ∈ words, u.IsTypeWord) (hfree : words = [] ∨ bareWords words ≠ [])
    (hts : Statement.Spaced ts (words ++ (d ++ mark :: rest))) :
    ∃ st behind, group {} ts = st :: group {} behind ∧ st.Declares words name text ∧
      Statement.Spaced behind rest := by
  have hparts : ∀ u ∈ words ++ d, u.IsPart := forall_mem_append.mpr
    ⟨fun u hu => (hwords u hu).isPart, fun u hu => (hd.isPart hname.isFree u hu).1⟩
  rw [← append_assoc] at hts
  obtain ⟨st, behind, hgroup, hnone, hst, hbehind⟩ := hts.exists_group fun front behind hfront =>
    hfront.completes (fun u hu => (hparts u hu).toIsQuiet) hmark htext behind
  have hcode : Tokens.code st.tokens = words ++ d := by
    rw [hst.code_eq, List.filter_append, filter_eq_self.mpr fun u hu => ?_,
      filter_cons_of_neg (by simp [isCode, hmark.kind, Kind.isCode]), filter_nil, append_nil]
    exact (by decide : ∀ k ∈ [Kind.word, .operator, .paren, .bracket], k.isCode = true) _
      (hparts u hu).code
  refine ⟨st, behind, hgroup, ⟨?_, fun scope => ?_⟩, hbehind⟩
  · obtain ⟨u, hu, hmute⟩ : ∃ u ∈ dropIgnored true (words ++ d), ¬u.IsMute := by
      rcases hfree with rfl | hfree
      · have hstays := fun u hu => stays_iff.mp
          (stays_of_free (hd.isPart hname.isFree u hu).2)
        refine ⟨t, ?_, hname.not_isMute.1⟩
        rw [nil_append, dropIgnored_eq_self (fun u hu => (hstays u hu).1) fun _ u hu =>
          (hstays u hu).2]
        exact hd.mem_and_starts.1
      · obtain ⟨u, hu⟩ := exists_mem_of_ne_nil _ hfree
        obtain ⟨hu, hqualifier⟩ := mem_filter.mp hu
        have hu' : u.IsFree := ⟨hwords u hu, by simpa using hqualifier⟩
        exact ⟨u, mem_dropIgnored (mem_append_left _ hu)
          (stays_of_free (hu'.free hu'.isQualifier)) (by simp [hu'.kind]), hu'.not_isMute⟩
    rw [Statement.kind, hnone]
    refine exists_ofTokens_of_not_isMute (fun u hu => (hst.space_or_mem hu).1.kind_eq)
      (sealed_group Pending.sound_empty ts st (hgroup ▸ mem_cons_self)).directive_last (hcode ▸ hu)
      hmute fun u hu hkind => ?_
    simpa [hkind] using (hparts u (hcode ▸ hu)).code
  · obtain ⟨v, hv, hvname, htype, hend⟩ := hd.exists_ofDefinition (fun u hu => (hwords u hu).toIsWord)
      (fun hvoid => absurd hvoid hname.not_isMute.2) .nothing (append_nil (words ++ d) ▸ hcode) scope
    exact ⟨v, hv, hvname ▸ hname.onlyWordChars_eq, htype, hend.trans (hst.terminatorOf_eq hmark htext)⟩

namespace StatementKind

variable {k : StatementKind}

theorem isRecord_ofCode (hword : record.kind = .word) (hrecord : record.value ∈ ["struct", "union"])
    (hbody : body.Opens .brace '\x7b') (htag : ∀ u ∈ words, u.kind ≠ .brace ∧ u.value ≠ "=")
    (hrest : 2 ≤ ((words ++ body :: rest).filter isTelling).length ∨ words ++ rest = []) :
    ∃ k', k.ofCode (record :: (words ++ body :: rest)) = .ok k' ∧ k'.isDirective = k.isDirective ∧
      k'.isRecord = true := by
  obtain ⟨hannounces, hvalue⟩ := (by decide : ∀ v ∈ ["struct", "union"], v ∈ Keyword.records ∧
    v ∉ ["extern", "typedef", "="]) _ hrecord
  have hhead : record.announcesRecord = true := by simpa [announcesRecord] using hannounces
  have hsilent : isTelling record = false := by simp [isTelling, hword, hhead]
  have htells : isTelling body = true := by simp [isTelling, hbody.kind]
  simp only [mem_cons, not_mem_nil, or_false, not_or] at hvalue
  have hblock : hasBody (record :: (words ++ body :: rest)) = true := by
    have hnone : (record :: words).find? (fun t => t.kind == .brace || t.value == "=") = none :=
      find?_eq_none.mpr (forall_mem_cons.mpr
        ⟨by simp [hword, hvalue], fun t ht => by simp [htag t ht]⟩)
    rw [hasBody, ← cons_append, find?_append, hnone]
    simp [hbody.kind]
  have hqualifier : body.isQualifier = false ∧ body.isBuiltinType = false := by
    have h : body.value ∉ Keyword.qualifiers ++ Keyword.types :=
      body.value_not_mem hbody.head rfl (by decide)
    simpa [isQualifier, isBuiltinType] using h
  rcases hrest with hrest | hrest
  · obtain ⟨a, b, more, htelling⟩ : ∃ a b more,
        ((record :: (words ++ body :: rest)).filter isTelling).take 3 = a :: b :: more := by
      rw [filter_cons_of_neg (by simp [hsilent])]
      generalize (words ++ body :: rest).filter isTelling = telling at hrest
      obtain _ | ⟨a, _ | ⟨b, more⟩⟩ := telling
      · cases hrest
      · simp at hrest
      · exact ⟨a, b, more.take 1, rfl⟩
    have hfirst : (record :: (words ++ body :: rest)).head? = some record := rfl
    generalize record :: (words ++ body :: rest) = code at *
    simp [ofCode, hfirst, hvalue, htelling, hhead, hblock, pure, Except.pure]
    split <;> exact ⟨_, rfl, rfl, rfl⟩
  · obtain ⟨rfl, rfl⟩ := append_eq_nil_iff.mp hrest
    simp_all [ofCode, hbody.kind, pure, Except.pure]

end StatementKind

namespace RecordDecl

variable {c : Context} {parent : Option String} {acc : Reading} {st : Statement}
variable {sts : List Statement} {type : Option (List Token)}

/-! ## Reading members -/

/-- What a member is: its name and, for the declarators of a list, the words of its type. -/
abbrev Member := String × Option (List Token)

/-- The variable has the name, and the type if known. -/
def Member.Describes (m : Member) (v : Variable) : Prop :=
  v.name.value = m.1 ∧ ∀ words ∈ m.2, v.type = some words

variable {ms ms' : List Member}

/-- Statements add members, the first of which inherits a type. -/
def Adds (sts : List Statement) (type : Option (List Token)) (ms : List Member) : Prop :=
  ∀ c parent (acc : Reading), acc.inherited = type → ∃ vs acc',
    sts.foldlM (readStatement c parent) acc = .ok acc' ∧ acc'.inherited = none ∧
      acc'.members = acc.members ++ vs ∧ Forall₂ Member.Describes ms vs

/-- Tokens are whole statements that add members, before whatever follows. -/
def Contributes (l : List Token) (ms : List Member) : Prop :=
  ∀ ts rest, Statement.Spaced ts (l ++ rest) → ∃ sts behind, group {} ts = sts ++ group {} behind ∧
    Statement.Spaced behind rest ∧ Adds sts none ms

theorem Adds.append {sts' : List Statement} (h : Adds sts type ms) (h' : Adds sts' none ms') :
    Adds (sts ++ sts') type (ms ++ ms') := by
  intro c parent acc hacc
  obtain ⟨vs, acc', hread, hnone, hmembers, hvs⟩ := h c parent acc hacc
  obtain ⟨vs', acc'', hread', hnone', hmembers', hvs'⟩ := h' c parent acc' hnone
  refine ⟨vs ++ vs', acc'', ?_, hnone', by simp [hmembers, hmembers'], rel_append hvs hvs'⟩
  rw [foldlM_append, hread]
  exact hread'

theorem Contributes.append {l' : List Token} (h : Contributes l ms) (h' : Contributes l' ms') :
    Contributes (l ++ l') (ms ++ ms') := by
  intro ts rest hts
  obtain ⟨sts, behind, hgroup, hbehind, hadds⟩ := h ts (l' ++ rest) (append_assoc l l' rest ▸ hts)
  obtain ⟨sts', behind', hgroup', hbehind', hadds'⟩ := h' behind rest hbehind
  exact ⟨sts ++ sts', behind', by rw [hgroup, hgroup', append_assoc], hbehind', hadds.append hadds'⟩

theorem ofDefinition_eq_none (h : ∀ u ∈ ts, u.isCode = false) (scope : Scope) :
    Variable.ofDefinition scope ts = none := by
  have hcode : Tokens.code ts = [] := by
    rw [Tokens.code, filter_eq_nil_iff.mpr fun u hu => by simp [h u hu], map_nil]
  simp [Variable.ofDefinition, hcode, Variable.beforeInitializer]

theorem adds_of_space (hsts : ∀ st ∈ sts, st.kind? = none ∧ ∀ u ∈ st.tokens, u.kind = .space) :
    Adds sts none [] := by
  intro c parent acc hacc
  suffices hread : sts.foldlM (readStatement c parent) acc = .ok acc from
    ⟨[], acc, hread, hacc, (append_nil _).symm, .nil⟩
  induction sts with
  | nil => rfl
  | cons st sts ih =>
    obtain ⟨⟨hnone, hspace⟩, hsts⟩ := forall_mem_cons.mp hsts
    have hlead : ∀ ts : List Token, (∀ u ∈ ts, u.kind = .space) →
        ofLead {} ts = ({}, false) := fun ts hts => by
      induction ts with
      | nil => rfl
      | cons u ts ih => simpa [ofLead, hts] using ih (forall_mem_cons.mp hts).2
    have hkind : st.kind = .ok {} := by
      simp [Statement.kind, hnone, StatementKind.ofTokens, hlead _ hspace]
    have hread : readStatement c parent acc st = .ok acc := by
      rw [readStatement_eq ⟨_, hkind, rfl, rfl⟩, ofDefinition_eq_none fun u hu => by
        simp [isCode, hspace u hu, Kind.isCode]]
      simp [Reading.addVariable, ← hacc]
    rw [foldlM_cons, hread]
    exact ih hsts

theorem adds_space (hts : Statement.Spaced ts []) : Adds (group {} ts) none [] := by
  have hspace : ∀ st ∈ group {} ts, ∀ u ∈ st.tokens, u.kind = .space := by
    refine forall_mem_group (by simp) fun u hu => ?_
    exact (hts.space_or_mem hu).2.resolve_right not_mem_nil
  exact adds_of_space fun st hst => ⟨kind?_of_mem_group {} ts st hst, hspace st hst⟩

theorem exists_withMembers {r : RecordDecl} (hmembers : r.members = none) (hbody : r.body = some body)
    (hts : Statement.Spaced ((Token.scan body.chars 0).map settled) l) (h : Contributes l ms)
    (c : Context) :
    ∃ read, r.withMembers c = .ok (r.withRead read) ∧ Forall₂ Member.Describes ms read.members := by
  obtain ⟨sts, behind, hgroup, hbehind, hadds⟩ := h _ [] (append_nil l ▸ hts)
  obtain ⟨vs, read, hread, -, hvs, hms⟩ := hadds.append (adds_space hbehind)
    (c.enterPiece body.span.start) (some r.name.value) {} rfl
  refine ⟨read, ?_, by simpa [hvs] using hms⟩
  rw [withMembers_eq hmembers hbody, Statement.scan, Statement.ofTokens, ← group_map_settled,
    hgroup, hread]
  rfl

/-- A variable has the words in front of it for a type, or else what it inherits. -/
theorem readStatement_of_declares (h : st.Declares words name text) {bare : List Token}
    (hbare : if bareWords words = [] then acc.inherited = some bare
      else bare = bareWords words) (c : Context) (parent : Option String) :
    ∃ v acc', readStatement c parent acc st = .ok acc' ∧ acc'.members = acc.members ++ [v] ∧
      acc'.inherited = (if text = "," then some bare else none) ∧
      Member.Describes (name, some bare) v := by
  obtain ⟨v, hv, hname, htype, hend⟩ := h.reads c.scope
  have hbecomes : (v.inherit acc.inherited).name = v.name ∧
      (v.inherit acc.inherited).terminator = v.terminator ∧
      (v.inherit acc.inherited).type = some bare := by
    unfold Variable.inherit Variable.hasType
    rw [htype]
    split at hbare
    · rename_i hnil
      simp [hnil, hbare]
    · rename_i hne
      simp [hne, hbare, htype]
  refine ⟨v.inherit acc.inherited, acc.addVariable (some v), ?_, rfl, ?_, hbecomes.1 ▸ hname,
    by simp [hbecomes.2.2]⟩
  · rw [readStatement_eq h.kind, hv]
  · simp [Reading.addVariable, Variable.handsOn, hbecomes.2, hend]

theorem exists_statements (h : DeclaratorList l names)
    (hwords : ∀ u ∈ words, u.IsTypeWord) (hfree : words = [] ∨ bareWords words ≠ [])
    (hts : Statement.Spaced ts (words ++ (l ++ rest))) :
    ∃ sts behind, group {} ts = sts ++ group {} behind ∧ Statement.Spaced behind rest ∧
      (∀ scope, (sts.filterMap fun st => Variable.ofDefinition scope st.tokens).map
        (fun v => v.name.value) = names) ∧
      ∀ type bare, (if bareWords words = [] then type = some bare
        else bare = bareWords words) →
      Adds sts type (names.map fun name => (name, some bare)) := by
  induction h generalizing words ts with
  | last hd hname hmark =>
    rw [append_assoc] at hts
    obtain ⟨st, behind, hgroup, hst, hbehind⟩ :=
      hd.exists_declares hname hmark (by simp) hwords hfree hts
    refine ⟨[st], behind, hgroup, hbehind, fun scope => ?_,
      fun type bare hbare c parent acc hacc => ?_⟩
    · obtain ⟨v, hv, hvname, -⟩ := hst.reads scope
      simp [hv, hvname]
    · obtain ⟨v, acc', hread, hmembers, hnone, hv⟩ :=
        readStatement_of_declares hst (hacc ▸ hbare) c parent
      exact ⟨[v], acc', by rw [foldlM_cons, hread]; rfl, hnone, hmembers, .cons hv .nil⟩
  | more hd hname hmark _ ih =>
    rw [append_assoc, cons_append] at hts
    obtain ⟨st, behind, hgroup, hst, hbehind⟩ :=
      hd.exists_declares hname hmark (by simp) hwords hfree hts
    obtain ⟨sts, behind', hgroup', hbehind', hnames, hadds⟩ :=
      ih (forall_mem_nil _) (.inl rfl) hbehind
    refine ⟨st :: sts, behind', by rw [hgroup, hgroup', cons_append], hbehind', fun scope => ?_,
      fun type bare hbare c parent acc hacc => ?_⟩
    · obtain ⟨v, hv, hvname, -⟩ := hst.reads scope
      simp [hv, hvname, hnames]
    · obtain ⟨v, mid, hread, hmid, hsome, hv⟩ :=
        readStatement_of_declares hst (hacc ▸ hbare) c parent
      obtain ⟨vs, acc', hread', hnone, hmembers, hvs⟩ :=
        hadds (some bare) bare (by simp [bareWords]) c parent mid hsome
      refine ⟨v :: vs, acc', ?_, hnone, by simp [hmembers, hmid], .cons hv hvs⟩
      rw [foldlM_cons, hread]
      exact hread'

/-! ## Records inside a body -/

/-- What stands behind the body of a record: a semicolon only, or declarators. -/
inductive Behind : List Token → List String → Prop where
  | nothing {mark : Token} (hmark : mark.Spells .separator ";") : Behind [mark] []
  | declarators {l : List Token} {names : List String} (h : DeclaratorList l names) : Behind l names

/-- Nothing behind the body ends the statement too early, and the declarators tell what it is. -/
theorem Behind.exists_front (h : Behind l names) :
    ∃ front mark, l = front ++ [mark] ∧ mark.Spells .separator ";" ∧
      (∀ u ∈ front, u.startsWith ';' = false ∧ u.value ∉ Keyword.reserved) ∧
      (names = [] ∧ front = [] ∨ names ≠ [] ∧ ∃ u ∈ front, u.isCode = true ∧ ¬u.IsMute) := by
  have hone {d : List Token} {t : Token} {name : String} (hd : Declarator d t)
      (hname : t.Bears name) : (∀ u ∈ d, u.startsWith ';' = false ∧ u.value ∉ Keyword.reserved) ∧
        ∃ u ∈ d, u.isCode = true ∧ ¬u.IsMute := by
    have hpart := hd.isPart hname.isFree
    have ht := hd.mem_and_starts.1
    refine ⟨fun u hu => ⟨(hpart u hu).1.starts _ (by simp), (hpart u hu).2⟩, t, ht, ?_,
      hname.not_isMute.1⟩
    exact (by decide : ∀ k ∈ [Kind.word, .operator, .paren, .bracket], k.isCode = true) _
      (hpart t ht).1.code
  cases h with
  | nothing hmark => exact ⟨[], _, rfl, hmark, forall_mem_nil _, .inl ⟨rfl, rfl⟩⟩
  | declarators h =>
    induction h with
    | last hd hname hmark =>
      obtain ⟨hfree, htells⟩ := hone hd hname
      exact ⟨_, _, rfl, hmark, hfree, .inr ⟨cons_ne_nil _ _, htells⟩⟩
    | @more d _ t comma _ _ hd hname hcomma _ ih =>
      obtain ⟨front, mark, rfl, hmark, hfree', -⟩ := ih
      obtain ⟨hfree, u, hu, htells⟩ := hone hd hname
      refine ⟨d ++ comma :: front, mark, by simp, hmark, ?_,
        .inr ⟨cons_ne_nil _ _, u, mem_append_left _ hu, htells⟩⟩
      refine forall_mem_append.mpr ⟨hfree, forall_mem_cons.mpr ⟨?_, hfree'⟩⟩
      simp only [startsWith, chars, hcomma.value]
      decide

theorem Behind.map_name (h : Behind l names) (hts : Statement.Spaced ts l) (scope : Scope) :
    ((Statement.ofTokens ts).filterMap fun st => Variable.ofDefinition scope st.tokens).map
      (fun v => v.name.value) = names := by
  have hnone {ts : List Token} (hcode : ∀ u ∈ ts, u.isCode = false) :
      (group {} ts).filterMap (fun st => Variable.ofDefinition scope st.tokens) = [] :=
    filterMap_eq_nil_iff.mpr fun st hst => ofDefinition_eq_none
      (forall_mem_group (P := fun u => u.isCode = false) (forall_mem_nil _) hcode st hst) scope
  cases h with
  | nothing hmark =>
    rw [Statement.ofTokens, hnone fun u hu => ?_, map_nil]
    rcases (hts.space_or_mem hu).2 with hkind | hmem
    · simp [isCode, hkind, Kind.isCode]
    · rw [mem_singleton.mp hmem, isCode, hmark.kind]
      rfl
  | declarators h =>
    obtain ⟨sts, behind, hgroup, hbehind, hnames, -⟩ := exists_statements h (forall_mem_nil _)
      (.inl rfl) (by simpa using hts : Statement.Spaced ts ([] ++ (l ++ [])))
    rw [Statement.ofTokens, hgroup, filterMap_append, hnone fun u hu => ?_, append_nil, hnames]
    simp [isCode, (hbehind.space_or_mem hu).2.resolve_right not_mem_nil, Kind.isCode]

variable {front : List Token} {tag : Option Token}

/-- A record with keyword, tag, body and what is behind it. -/
structure Announced (record : Token) (tag : Option Token) (body : Token) (front : List Token) :
    Prop where
  word : record.IsWord
  keyword : record.value ∈ ["struct", "union"]
  named : ∀ t ∈ tag, t.IsIdentifier
  opens : body.Opens .brace '\x7b'
  free : ∀ u ∈ front, u.startsWith ';' = false ∧ u.value ∉ Keyword.reserved
  tells : tag = none ∧ front = [] ∨ ∃ u ∈ front, u.isCode = true ∧ ¬u.IsMute

theorem Announced.isTypeWord (h : Announced record tag body front) :
    ∀ u ∈ record :: tag.toList, u.IsTypeWord := by
  refine forall_mem_cons.mpr ⟨⟨h.word, fun hqualifier => ?_⟩, fun u hu => ?_⟩
  · simp only [isQualifier, contains_eq_mem, decide_eq_false_iff_not] at hqualifier
    exact absurd ((by decide : ["struct", "union"] ⊆ Keyword.qualifiers) h.keyword) hqualifier
  · exact (h.named u (by simpa using hu)).toIsTypeWord

theorem Announced.dropIgnored_eq (h : Announced record tag body front)
    (hmark : mark.Spells .separator ";")
    (hts : Statement.Spaced ts (record :: (tag.toList ++ body :: (front ++ [mark])))) :
    dropIgnored true (Tokens.code ts) =
      record :: (tag.toList ++ body :: front.filter isCode) := by
  have hcode : Tokens.code ts = record :: (tag.toList ++ body :: front.filter isCode) := by
    have hkept : (record :: tag.toList).filter isCode = record :: tag.toList :=
      filter_eq_self.mpr fun u hu => by simp [isCode, (h.isTypeWord u hu).kind, Kind.isCode]
    rw [hts.code_eq, ← cons_append, List.filter_append, hkept]
    simp [isCode, h.opens.kind, hmark.kind, Kind.isCode]
  have hstays : ∀ u ∈ Tokens.code ts, stays u = true := by
    simp only [hcode, forall_mem_cons, forall_mem_append]
    refine ⟨?_, fun u hu => ?_, ?_, fun u hu => ?_⟩
    · simpa [stays] using (by decide : ∀ v ∈ ["struct", "union"],
        v ∉ Keyword.ignored ++ ["const", "static"]) _ h.keyword
    · have hu := h.named u (by simpa using hu)
      exact stays_of_free (hu.free hu.isQualifier)
    · exact stays_of_free (body.value_not_mem h.opens.head rfl (by decide))
    · exact stays_of_free (h.free u (mem_of_mem_filter hu)).2
  rw [dropIgnored_eq_self (fun u hu => (stays_iff.mp (hstays u hu)).1)
    fun _ u hu => (stays_iff.mp (hstays u hu)).2, hcode]

theorem Announced.two_le_length (h : Announced record tag body front) :
    2 ≤ ((tag.toList ++ body :: front.filter isCode).filter
      isTelling).length ∨ tag.toList ++ front.filter isCode = [] := by
  rcases h.tells with ⟨rfl, rfl⟩ | ⟨u, hu, hcode, hmute⟩
  · exact .inr rfl
  · have htelling : isTelling u = true := Bool.not_eq_false _ ▸
      mt (isTelling_eq_false_iff hcode).mp hmute
    have hpos := length_pos_of_mem (mem_filter.mpr ⟨mem_filter.mpr ⟨hu, hcode⟩, htelling⟩)
    have hbody : isTelling body = true := by
      simp [isTelling, h.opens.kind]
    rw [List.filter_append, filter_cons_of_pos hbody, length_append, length_cons]
    exact .inl (by omega)

theorem Announced.exists_statement (h : Announced record tag body front)
    (hmark : mark.Spells .separator ";")
    (hts : Statement.Spaced ts (record :: (tag.toList ++ body :: (front ++ mark :: rest)))) :
    ∃ st behind, group {} ts = st :: group {} behind ∧ Statement.Spaced behind rest ∧
      Statement.Spaced st.tokens (record :: (tag.toList ++ body :: (front ++ [mark]))) ∧
      ∃ k, st.kind = .ok k ∧ k.isDirective = false ∧ k.isRecord = true := by
  have hannounces : record.announcesRecord = true := by
    simpa [announcesRecord] using
      (by decide : ["struct", "union"] ⊆ Keyword.records) h.keyword
  have hts : Statement.Spaced ts (record :: tag.toList ++ body :: front ++ mark :: rest) := by
    simpa using hts
  obtain ⟨st, behind, hgroup, hnone, hst, hbehind⟩ := hts.exists_group fun lead behind hlead =>
    hlead.completes_record (fun u hu => (h.isTypeWord u hu).isPart.toIsQuiet)
      (by simp [hannounces]) h.opens (fun u hu => (h.free u hu).1) hmark.value behind
  have hst : Statement.Spaced st.tokens (record :: (tag.toList ++ body :: (front ++ [mark]))) := by
    simpa using hst
  obtain ⟨k, hk, hdirective, hisRecord⟩ := isRecord_ofCode
    (k := { postComment := Tokens.postComment st.tokens }) h.word.kind h.keyword h.opens (fun u hu =>
      have hu := h.isTypeWord u (mem_cons_of_mem _ hu)
      ⟨by simp [hu.kind], hu.value_ne rfl⟩) h.two_le_length
  refine ⟨st, behind, hgroup, hbehind, hst, k, ?_, hdirective, hisRecord⟩
  rw [Statement.kind, hnone]
  exact (ofTokens_eq (ofLead_eq {} hst
    (h.isTypeWord record mem_cons_self).isPart.statement) (h.dropIgnored_eq hmark hst)
    (by simp; omega)).trans hk

/-- The members of a body. -/
inductive Members : List Token → List Member → Prop where
  | nil : Members [] []
  | list {words l rest : List Token} {names : List String} {ms : List Member}
      (hwords : ∀ t ∈ words, t.IsTypeWord) (hfree : bareWords words ≠ [])
      (hlist : DeclaratorList l names) (hrest : Members rest ms) :
      Members (words ++ l ++ rest)
        (names.map (fun name => (name, some (bareWords words))) ++ ms)
  | record {record body : Token} {tag : Option Token} {inside l rest : List Token}
      {names : List String} {inner ms : List Member} (hword : record.IsWord)
      (hrecord : record.value ∈ ["struct", "union"]) (htag : ∀ t ∈ tag, t.IsIdentifier)
      (hbody : body.Opens .brace '\x7b')
      (hinside : Statement.Spaced ((Token.scan body.interior.chars 0).map settled) inside)
      (hinner : Members inside inner) (hbehind : Behind l names)
      (hunnamed : names = [] → tag = none) (hrest : Members rest ms) :
      Members (record :: (tag.toList ++ body :: l) ++ rest)
        ((if names = [] then inner else names.map fun name => (name, none)) ++ ms)

/-- The declarations of a body add the members that they declare. -/
theorem Members.contributes (h : Members l ms) : Contributes l ms := by
  induction h with
  | nil =>
    exact fun ts rest hts => ⟨[], ts, rfl, hts, fun c parent acc hacc =>
      ⟨[], acc, rfl, hacc, (append_nil _).symm, .nil⟩⟩
  | @list words l rest names ms hwords hfree hlist _ ih =>
    refine Contributes.append (fun ts rest hts => ?_) ih
    obtain ⟨sts, behind, hgroup, hbehind, -, hadds⟩ := exists_statements hlist hwords (.inr hfree)
      (append_assoc words l rest ▸ hts)
    exact ⟨sts, behind, hgroup, hbehind, hadds none _ (by rw [if_neg hfree])⟩
  | @record record body tag inside l rest names inner ms hword hrecord htag hbody hinside _ hbehind
      hunnamed _ ihinner ih =>
    refine Contributes.append (fun ts rest hts => ?_) ih
    obtain ⟨front, mark, rfl, hmark, hfree, htells⟩ := hbehind.exists_front
    have hts : Statement.Spaced ts (record :: (tag.toList ++ body :: (front ++ mark :: rest))) := by
      simpa using hts
    have hannounced : Announced record tag body front := ⟨hword, hrecord, htag, hbody, hfree,
      htells.imp (fun h => ⟨hunnamed h.1, h.2⟩) fun h => h.2⟩
    obtain ⟨st, behind, hgroup, hrest, hst, k, hk, hdirective, hisRecord⟩ :=
      hannounced.exists_statement hmark hts
    refine ⟨[st], behind, hgroup, hrest, fun c parent acc hacc => ?_⟩
    obtain ⟨r, tail, hr, htail, -, hrbody, hmembers, hvardefs, hnameless⟩ :=
      exists_ofTokens hword hrecord htag hbody hst c parent
    obtain ⟨read, hread, hinner⟩ := exists_withMembers hmembers hrbody hinside ihinner c
    have hnames := hbehind.map_name htail c.scope
    rw [← map_filterMap] at hvardefs
    generalize (Statement.ofTokens tail).filterMap _ = vs at hnames hvardefs
    refine ⟨if names = [] then read.members else vs.map fun v => { v with type := some [r.name] },
      acc.addRecord (r.withRead read), ?_, hacc, ?_, ?_⟩
    · rw [foldlM_cons]
      simp [readStatement, hk, hdirective, hisRecord, hr, hread, bind, Except.bind, Except.map,
        pure, Except.pure]
    · have hempty : vs = [] ↔ names = [] := by rw [← hnames, map_eq_nil_iff]
      by_cases hnil : names = []
      · simp [Reading.addRecord, withRead, hvardefs, hnameless, hempty.mpr hnil, hunnamed hnil,
          hnil]
      · simp [Reading.addRecord, withRead, hvardefs, mt hempty.mp hnil, hnil]
    · split
      · exact hinner
      · subst hnames
        simp [forall₂_map_left_iff, forall₂_map_right_iff, Member.Describes, forall₂_same]

/-- **Members.** The declarations of a body are read off in order: the declarators of a list with
the words of their type without qualifiers, and the members of a record without tag and declarators
in its place. -/
theorem withMembers_declares {r : RecordDecl} (hmembers : r.members = none)
    (hbody : r.body = some body)
    (hts : Statement.Spaced ((Token.scan body.chars 0).map Token.settled) l)
    (h : Members l ms) (c : Context) :
    ∃ r' vs, r.withMembers c = .ok r' ∧ r'.members = some vs ∧ Forall₂ Member.Describes ms vs := by
  obtain ⟨read, hread, hvs⟩ := exists_withMembers hmembers hbody hts h.contributes c
  exact ⟨_, read.members, hread, rfl, hvs⟩

/-- The member of a union without a name is a member of the record around it. -/
theorem withMembers_declares_union : let r : RecordDecl :=
      { name := .empty, body := some ⟨0, ⟨0, 14⟩, "union\x7bint a;\x7d;", none⟩ }
    ∃ r' v, r.withMembers {} = .ok r' ∧ r'.members = some [v] ∧ v.name.value = "a" := by
  intro r
  have hint : Token.IsFree ⟨0, ⟨0, 3⟩, "int", some .word⟩ :=
    .of_not_mem rfl (by decide) (by decide) (by decide)
  have hname : Token.IsFree ⟨2, ⟨4, 5⟩, "a", some .word⟩ :=
    .of_not_mem rfl (by decide) (by decide) (by decide)
  have hinner : Members ([⟨0, ⟨0, 3⟩, "int", some .word⟩] ++ ([] ++ [⟨2, ⟨4, 5⟩, "a", some .word⟩] ++
      [⟨3, ⟨5, 6⟩, ";", some .separator⟩]) ++ []) [("a", some [⟨0, ⟨0, 3⟩, "int", some .word⟩])] :=
    .list (forall_mem_singleton.mpr hint.toIsTypeWord) (by decide) (.last (.plain (forall_mem_nil _)
      hname.toIsWord (forall_mem_nil _)) (.word hname (by decide)) ⟨rfl, rfl⟩) .nil
  have hall : Members (⟨0, ⟨0, 5⟩, "union", some .word⟩ :: ((none : Option Token).toList ++
      ⟨1, ⟨5, 13⟩, "\x7bint a;\x7d", some .brace⟩ :: [⟨2, ⟨13, 14⟩, ";", some .separator⟩]) ++ [])
      [("a", some [⟨0, ⟨0, 3⟩, "int", some .word⟩])] :=
    .record ⟨rfl, by decide, all_eq_true.mp rfl⟩ (by decide)
      (fun t ht => absurd ht (Option.not_mem_none t)) ⟨rfl, rfl⟩
      (spaced_scan (by decide +kernel) (by decide +kernel)) hinner (.nothing ⟨rfl, rfl⟩)
      (fun _ => rfl) .nil
  obtain ⟨r', vs, hr', hvs, hdescribes⟩ := withMembers_declares (r := r) rfl rfl
    (spaced_scan (by decide +kernel) (by decide +kernel)) hall {}
  cases hdescribes with
  | cons hv hnil =>
    cases hnil
    exact ⟨r', _, hr', hvs, hv.1⟩

end RecordDecl

end CBoundary
