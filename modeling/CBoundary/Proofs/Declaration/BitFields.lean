import CBoundary.Proofs.Declaration.Inside
import CBoundary.Proofs.Statement.Readable

/-!
# Bit-fields

A colon is an operator, so that the commas behind it do not end a statement, and a definition is
read from its end.  A declaration of bit-fields is therefore read as one variable.
-/

namespace CBoundary

open Text List

variable {t name colon mark : Token} {ts words rest lead mid behind : List Token}

/-! ## Commas behind an operator -/

namespace Statement

variable {p : Pending}

/-- No word has announced that an `else` or the body of a record may follow. -/
def Pending.Unannounced (p : Pending) : Prop := p.Held ∨ p.ending = .any ∧ p.isRecord = false

theorem Pending.Unannounced.join (h : p.Unannounced)
    (ht : t.value ∉ "if" :: "typedef" :: Keyword.records) (behind : List Token) :
    (p.join t behind).Unannounced ∧
      (t.kind = .operator → t.value ≠ "*" → (p.join t behind).Held) := by
  rcases h with h | ⟨hending, hrecord⟩
  · exact ⟨.inl (h.join t behind).1, fun _ _ => (h.join t behind).1⟩
  · simp only [mem_cons, not_or] at ht
    have hannounces : t.announcesRecord = false := by simpa [Token.announcesRecord] using ht.2.2
    have hsame : (p.observe t).isRecord = false ∧
        ((p.observe t).ending = .semicolon ∨ (p.observe t).ending = .any) ∧
        (t.kind = .operator → t.value ≠ "*" → (p.observe t).ending = .semicolon) := by
      simp [observe, hending, hrecord, ht, hannounces]
      split <;> simp_all
    obtain ⟨hrecord, hany, hoperator⟩ := hsame
    unfold Pending.join Pending.close Unannounced Held
    simp only [hrecord]
    repeat' split
    all_goals simp_all

theorem not_completes_comma (hlead : ∀ u ∈ lead, u.value ∉ "if" :: "typedef" :: Keyword.records)
    (hcolon : colon.Spells .operator ":") (hmark : mark.value = ",") :
    ¬Completes (lead ++ colon :: mid) mark behind := by
  rintro ⟨hopen, hcomplete⟩
  have hheld : (Pending.joinAll {} (lead ++ colon :: mid) (mark :: behind)).Held := by
    rw [Pending.joinAll_append]
    show (((Pending.joinAll {} lead _).join colon _).joinAll mid _).Held
    refine joinAll_induction (fun p t _ behind hp => (hp.join t behind).1) ?_ _
    refine (Pending.Unannounced.join ?_ (by rw [hcolon.value]; decide) _).2 hcolon.kind
      (by rw [hcolon.value]; decide)
    exact joinAll_induction (fun p t ht behind hp => (hp.join (hlead t ht) behind).1)
      (.inr ⟨rfl, rfl⟩) _
  rw [Pending.joinAll_concat, (hheld.join mark behind).2.1
    (by simp [Token.startsWith, Token.chars, hmark]), hopen] at hcomplete
  cases hcomplete

end Statement

/-! ## What a statement with a colon is -/

/-- Words of a type and a name, a colon, and what follows, without a block or an initializer. -/
structure Statement.BitFields (st : Statement) (lead words : List Token) (name colon : Token)
    (behind : List Token) : Prop where
  tokens : st.tokens = lead ++ colon :: behind
  lead : Tokens.code lead = words ++ [name]
  words : ∀ t ∈ words, t.IsTypeWord
  name : name.IsFree
  colon : colon.Spells .operator ":"
  behind : ∀ t ∈ Tokens.code behind, t.kind ≠ .brace ∧ t.value ≠ "="

namespace Statement.BitFields

variable {st : Statement} {s : List Char} {base : Int}
  (h : st.BitFields lead words name colon behind) (hst : st ∈ scan s base)

include h

theorem kind_ne_brace : ∀ t ∈ words ++ [name] ++ colon :: Tokens.code behind,
    t.kind ≠ .brace ∧ t.value ≠ "=" := by
  refine forall_mem_append.mpr ⟨forall_mem_append.mpr ⟨fun t ht => ?_, ?_⟩,
    forall_mem_cons.mpr ⟨?_, h.behind⟩⟩
  · exact ⟨by simp [(h.words t ht).kind], (h.words t ht).value_ne rfl⟩
  · exact forall_mem_singleton.mpr ⟨by simp [h.name.kind], h.name.value_ne rfl⟩
  · simp [h.colon.kind, h.colon.value]

include hst

theorem code_eq : Tokens.code st.tokens = words ++ [name] ++ colon :: Tokens.code behind := by
  have hsettled : colon.settled = colon := settled_of_mem_scan hst colon (by simp [h.tokens])
  have hcolon : colon.isCode = true := by simp [Token.isCode, h.colon.kind, Kind.isCode]
  rw [h.tokens, ← h.lead]
  simp [Tokens.code, filter_cons_of_pos hcolon, hsettled]

theorem not_completes (hwords : ∀ t ∈ words, t.announcesRecord = false) (hmark : mark.value = ",") :
    ¬Completes (lead ++ colon :: mid) mark rest := by
  refine not_completes_comma (fun u hu hvalue => ?_) h.colon hmark
  have hmem : u ∈ st.tokens := by simp [h.tokens, hu]
  have hcode : u.isCode = true := by
    rw [Token.isCode, (standsIn_of_mem_scan hst u hmem).kind_eq]
    exact (by decide : ∀ v ∈ "if" :: "typedef" :: Keyword.records, (Kind.ofText v).isCode = true) _
      hvalue
  have hlead : u ∈ words ++ [name] := by
    rw [← h.lead, Tokens.code]
    exact mem_map.mpr ⟨u, mem_filter.mpr ⟨hu, hcode⟩, settled_of_mem_scan hst u hmem⟩
  obtain ⟨hword, hrecord⟩ : u.IsTypeWord ∧ u.value ∉ Keyword.records := by
    rcases mem_append.mp hlead with hu | hu
    · exact ⟨h.words u hu, by simpa [Token.announcesRecord] using hwords u hu⟩
    · obtain rfl := mem_singleton.mp hu
      exact ⟨h.name.toIsTypeWord, h.name.not_mem_records⟩
  have hpart := hword.isPart.value
  simp only [mem_cons, not_mem_nil, or_false, not_or] at hpart
  rcases mem_cons.mp hvalue with hif | hvalue
  · exact hpart.1 hif
  · exact (mem_cons.mp hvalue).elim hpart.2.2 hrecord

theorem exists_kind : ∃ k, st.kind = .ok k ∧ k.isDirective = false ∧ k.isRecord = false := by
  have hcode := h.code_eq hst
  have hname : name ∈ Declaration.dropIgnored true (Tokens.code st.tokens) :=
    Declaration.mem_dropIgnored (by simp [hcode])
      (Declaration.stays_of_free (h.name.free h.name.isQualifier)) (by simp [h.name.kind])
  rw [Statement.kind, kind?_of_mem_group {} _ st hst]
  exact StatementKind.exists_ofTokens_of_not_isMute
    (fun t ht => (standsIn_of_mem_scan hst t ht).kind_eq)
    (sealed_group Pending.sound_empty _ st hst).directive_last hname h.name.not_isMute
    fun u hu => (h.kind_ne_brace u (hcode ▸ hu)).1

end Statement.BitFields

/-! ## The variable that is read -/

namespace Variable

variable {front width : List Token}

theorem exists_dropSuffixes (hcolon : colon.Spells .operator ":") (front width : List Token) :
    ∃ rear ⊆ width, dropSuffixes (front ++ colon :: width) = front ++ colon :: rear := by
  have hstop : isSuffix colon = false :=
    isSuffix_eq (show colon.chars.head? = some ':' by simp [Token.chars, hcolon.value])
  induction width using reverseRecOn with
  | nil => exact ⟨[], Subset.refl _, dropSuffixes_concat front hstop⟩
  | append_singleton width t ih =>
    rw [← cons_append, ← append_assoc]
    cases ht : isSuffix t with
    | true =>
      obtain ⟨rear, hrear, hdrop⟩ := ih
      rw [dropSuffixes_append (forall_mem_singleton.mpr ht)]
      exact ⟨rear, fun u hu => mem_append_left _ (hrear hu), hdrop⟩
    | false => exact ⟨width ++ [t], Subset.refl _, by rw [dropSuffixes_concat _ ht]; simp⟩

theorem exists_dropArguments (hcolon : colon.Spells .operator ":") (front width : List Token) :
    ∃ rear ⊆ width, dropArguments (front ++ colon :: width) = front ++ colon :: rear := by
  induction width using reverseRecOn with
  | nil =>
    refine ⟨[], Subset.refl _, ?_⟩
    rw [dropArguments_concat, Token.startsWith, Token.chars, hcolon.value, if_neg (by decide)]
  | append_singleton width t =>
    rw [← cons_append, ← append_assoc, dropArguments_concat]
    split
    · exact ⟨width, fun u hu => mem_append_left _ hu, rfl⟩
    · exact ⟨width ++ [t], Subset.refl _, by simp⟩

theorem exists_ofDefinition_of_colon (hcolon : colon.Spells .operator ":")
    (hcode : Tokens.code ts = front ++ colon :: width)
    (hequals : ∀ t ∈ front ++ colon :: width, t.value ≠ "=") (scope : Scope) :
    ∃ v, ofDefinition scope ts = some v ∧
      (∃ t ∈ colon :: width, v.name = { t with value := onlyWordChars t.value } ∧
        ∀ last ∈ width.getLast?, isSuffix last = false → last.startsWith '(' = false → t = last) ∧
      ∃ rear, v.type = some (Declaration.typeWords (front ++ rear)) := by
  have hbefore : beforeInitializer (front ++ colon :: width) = front ++ colon :: width := by
    unfold beforeInitializer
    rw [findIdx?_eq_none_iff.mpr fun u hu => by
      simpa using hequals u (mem_of_mem_drop ((dropLast_sublist _).subset hu))]
  have hvoid : Declaration.isVoid (front ++ colon :: width) = false := by
    unfold Declaration.isVoid
    split
    · rename_i t ht
      obtain rfl : colon = t := mem_singleton.mp (ht ▸ mem_append_right front mem_cons_self)
      simp [hcolon.value]
    · rfl
  obtain ⟨w, hw, hdrop⟩ := exists_dropSuffixes hcolon front width
  obtain ⟨w', hw', hdrop'⟩ := exists_dropArguments hcolon front w
  obtain ⟨w'', hw'', hdrop''⟩ := exists_dropSuffixes hcolon front w'
  obtain ⟨rear, t, hrear⟩ := (eq_nil_or_concat (colon :: w'')).resolve_left (cons_ne_nil _ _)
  unfold ofDefinition
  rw [hcode, hbefore]
  dsimp only
  rw [hvoid, Bool.or_false, if_neg (by simp), hdrop, hdrop', hdrop'', hrear, concat_eq_append,
    ← append_assoc, getLast?_concat, dropLast_concat]
  refine ⟨_, rfl, ⟨t, ?_, rfl, fun last hlast hsuffix hparen => ?_⟩, rear, rfl⟩
  · have ht : t ∈ colon :: w'' := by simp [hrear]
    exact (mem_cons.mp ht).elim (· ▸ mem_cons_self) fun h => mem_cons_of_mem _ (hw (hw' (hw'' h)))
  · -- nothing is dropped behind a last token that is neither a suffix nor arguments
    obtain ⟨u, rfl⟩ := getLast?_eq_some_iff.mp hlast
    have hconcat : front ++ colon :: (u ++ [last]) = front ++ colon :: u ++ [last] := by simp
    have hkept := dropSuffixes_concat (front ++ colon :: u) hsuffix
    rw [← hconcat] at hkept
    obtain rfl : u ++ [last] = w := by simpa using hkept.symm.trans hdrop
    have harguments := dropArguments_concat (front ++ colon :: u) last
    rw [hparen, if_neg Bool.false_ne_true, ← hconcat] at harguments
    obtain rfl : u ++ [last] = w' := by simpa using harguments.symm.trans hdrop'
    obtain rfl : u ++ [last] = w'' := by simpa using hkept.symm.trans hdrop''
    have hsame := congrArg getLast? hrear
    rw [concat_eq_append, ← cons_append, getLast?_concat, getLast?_concat] at hsame
    exact (Option.some.inj hsame).symm

/-- The variable is named after the colon or a token behind it, and the words in front of the colon
are in its type. -/
def Swallows (words : List Token) (name colon : Token) (width : List Token) (v : Variable) : Prop :=
  (∃ t ∈ colon :: width, v.name = { t with value := onlyWordChars t.value } ∧
    ∀ last ∈ width.getLast?, isSuffix last = false → last.startsWith '(' = false → t = last) ∧
    ∃ type, v.type = some type ∧ ∀ t ∈ name :: Declaration.bareWords words, t ∈ type

end Variable

namespace RecordDecl

variable {st : Statement} {sts : List Statement} {acc acc' : Reading} {c : Context}
  {parent : Option String} {s : List Char} {base : Int}

theorem exists_readStatement (h : st.BitFields lead words name colon behind)
    (hst : st ∈ Statement.scan s base) (c : Context) (parent : Option String) :
    ∃ v : Variable, v.Swallows words name colon (Tokens.code behind) ∧ ∀ acc, ∃ acc',
      readStatement c parent acc st = .ok acc' ∧ acc'.members = acc.members ++ [v] := by
  obtain ⟨v, hv, hname, rear, htype⟩ := Variable.exists_ofDefinition_of_colon h.colon
    (h.code_eq hst) (fun t ht => (h.kind_ne_brace t ht).2) c.scope
  obtain ⟨type, htype, hmem⟩ : ∃ type, v.type = some type ∧
      ∀ t ∈ name :: Declaration.bareWords words, t ∈ type := by
    refine ⟨_, htype, forall_mem_cons.mpr ⟨mem_filter.mpr ⟨by simp, ?_⟩, fun t ht => ?_⟩⟩
    · rw [h.name.isQualifier, bne_iff_ne.mpr (h.name.value_ne rfl)]
      rfl
    · obtain ⟨ht, hqualifier⟩ := mem_filter.mp ht
      refine mem_filter.mpr ⟨by simp [ht], ?_⟩
      rw [hqualifier, bne_iff_ne.mpr ((h.words t ht).value_ne rfl)]
      rfl
  refine ⟨v, ⟨hname, type, htype, hmem⟩, fun acc => ⟨acc.addVariable (some v), ?_, ?_⟩⟩
  · rw [readStatement_eq (h.exists_kind hst), hv]
  · have hinherit : v.inherit acc.inherited = v :=
      if_pos (by simp [Variable.hasType, htype, ne_nil_of_mem (hmem name mem_cons_self)])
    simp [Reading.addVariable, hinherit]

theorem isPrefix_members {start : Reading}
    (h : sts.foldlM (readStatement c parent) start = .ok acc) : start.members <+: acc.members := by
  refine foldlM_readStatement (I := fun acc => start.members <+: acc.members)
    (fun acc st _ hacc => ?_)
    (fun acc st _ inner inner' _ _ hacc => hacc.trans (prefix_append _ _)) prefix_rfl h
  cases Variable.ofDefinition c.scope st.tokens with
  | none => exact hacc
  | some v => exact hacc.trans (prefix_append _ _)

/-- A statement of a body that declares bit-fields is read as one variable, named after the last
width, with the first declared name in its type. A comma does not end it, unless a word of the type
announces a record. -/
theorem withMembers_bitFields {r : RecordDecl} {body : Token} {done more : List Statement}
    (hmembers : r.members = none) (hbody : r.body = some body)
    (hscan : Statement.scan body.chars 0 = done ++ st :: more)
    (h : st.BitFields lead words name colon behind) (c : Context) :
    ((∀ t ∈ words, t.announcesRecord = false) →
      ∀ mid mark rear, behind = mid ++ mark :: rear → mark.value = "," →
      ¬Statement.Completes (lead ++ colon :: mid) mark (rear ++ more.flatMap Statement.tokens)) ∧
    ∃ v : Variable, v.Swallows words name colon (Tokens.code behind) ∧ ∀ acc, ∃ acc',
      readStatement (c.enterPiece body.span.start) (some r.name.value) acc st = .ok acc' ∧
      acc'.members = acc.members ++ [v] ∧
      (done.foldlM (readStatement (c.enterPiece body.span.start) (some r.name.value)) {} = .ok acc →
        ∀ r', r.withMembers c = .ok r' → ∃ vs, r'.members = some (acc'.members ++ vs)) := by
  have hst : st ∈ Statement.scan body.chars 0 := by simp [hscan]
  refine ⟨fun hwords mid mark rear _ hmark => h.not_completes hst hwords hmark, ?_⟩
  obtain ⟨v, hv, hread⟩ := exists_readStatement h hst (c.enterPiece body.span.start) (some r.name.value)
  refine ⟨v, hv, fun acc => ?_⟩
  obtain ⟨acc', hstep, hadded⟩ := hread acc
  refine ⟨acc', hstep, hadded, fun hdone r' hr' => ?_⟩
  rw [withMembers_eq hmembers hbody, hscan, foldlM_append, hdone] at hr'
  obtain ⟨read, hwalk, hr'⟩ := Fault.exists_of_bind_eq_ok hr'
  obtain rfl := Except.ok.inj hr'
  obtain ⟨_, hstep', hrest⟩ := Fault.exists_of_bind_eq_ok ((foldlM_cons ..).symm.trans hwalk)
  obtain rfl := Except.ok.inj (hstep.symm.trans hstep')
  obtain ⟨vs, hvs⟩ := isPrefix_members hrest
  exact ⟨vs, congrArg some hvs.symm⟩

/-- Of `int a:1,b:2;` one variable is read, by the name `2`. -/
theorem withMembers_bitFields_two :
    let r : RecordDecl := { name := .empty, body := some ⟨0, ⟨0, 12⟩, "int a:1,b:2;", none⟩ }
    ∃ v : Variable, v.name.value = "2" ∧
      ∀ r', r.withMembers {} = .ok r' → ∃ vs, r'.members = some (v :: vs) := by
  intro r
  have hscan : Statement.scan "int a:1,b:2;".toList 0 = [] ++ ⟨[⟨0, ⟨0, 3⟩, "int", some .word⟩,
      ⟨1, ⟨3, 4⟩, " ", some .space⟩, ⟨2, ⟨4, 5⟩, "a", some .word⟩] ++
      ⟨3, ⟨5, 6⟩, ":", some .operator⟩ :: [⟨4, ⟨6, 7⟩, "1", some .word⟩, ⟨5, ⟨7, 8⟩, ",", some .separator⟩,
        ⟨6, ⟨8, 9⟩, "b", some .word⟩, ⟨7, ⟨9, 10⟩, ":", some .operator⟩, ⟨8, ⟨10, 11⟩, "2", some .word⟩,
        ⟨9, ⟨11, 12⟩, ";", some .separator⟩], none⟩ :: [] := by decide +kernel
  have hint : Token.IsFree ⟨0, ⟨0, 3⟩, "int", some .word⟩ :=
    .of_not_mem rfl (by decide) (by decide) (by decide)
  have hname : Token.IsFree ⟨2, ⟨4, 5⟩, "a", some .word⟩ :=
    .of_not_mem rfl (by decide) (by decide) (by decide)
  obtain ⟨-, v, ⟨⟨t, -, hname, hlast⟩, -⟩, hread⟩ := withMembers_bitFields (r := r) rfl rfl hscan
    ⟨rfl, by rfl, forall_mem_singleton.mpr hint.toIsTypeWord, hname, ⟨rfl, rfl⟩, by decide +kernel⟩ {}
  obtain ⟨acc, -, hmembers, hrest⟩ := hread {}
  refine ⟨v, ?_, fun r' hr' => ?_⟩
  · rw [hname, hlast ⟨8, ⟨10, 11⟩, "2", some .word⟩ rfl (by decide) (by decide)]
    decide
  · obtain ⟨vs, hvs⟩ := hrest rfl r' hr'
    exact ⟨vs, by rw [hvs, hmembers]; rfl⟩

end RecordDecl

end CBoundary
