import CBoundary.Proofs.Declaration.Place

/-!
# Records inside records

A record that is read off a text is a tree: each record inside another one names the one that
encloses it and has a shorter body.
-/

namespace CBoundary

open List Statement

/-! ## Comments -/

namespace Tokens

variable {ts : List Token}

theorem mem_of_lead? {lead : Lead} (h : lead? ts = some lead) : ∀ t ∈ lead.comment, t ∈ ts := by
  unfold lead? at h
  split at h
  · cases h
  · split at h
    · cases h
      exact fun t ht => absurd ht (Option.not_mem_none t)
    · split at h
      · rename_i u hu
        split at h
        · cases h
          intro t ht
          rw [← Option.some.inj ht]
          exact mem_of_getElem? hu
        · cases h
          exact fun t ht => absurd ht (Option.not_mem_none t)
      · cases h
        exact fun t ht => absurd ht (Option.not_mem_none t)

theorem mem_of_postComment : ∀ t ∈ postComment ts, t ∈ ts := by
  intro t ht
  have hfind := (Option.mem_filter_iff.mp ht).1
  exact mem_reverse.mp (mem_of_find?_eq_some hfind)

end Tokens

namespace RecordDecl

variable {texts : Texts} {c : Context} {s : List Char}
variable {ts : List Token} {r r' : RecordDecl} {file : String} {acc acc' : Reading}
variable {parent : Option String} {st : Statement}

/-! ## Trees of records -/

/-- The record and all records inside it, each one in front of those inside it. -/
def records (r : RecordDecl) : List RecordDecl :=
  match _h : r.nested with
  | none => [r]
  | some l => r :: l.attach.flatMap fun n => records n.1
termination_by sizeOf r
decreasing_by exact sizeOf_nested_lt _h n.2

theorem records_eq (r : RecordDecl) : r.records = r :: (r.nested.getD []).flatMap records := by
  rw [records]
  split
  · rename_i h
    rw [h]
    rfl
  · rename_i l h
    rw [h, Option.getD_some]
    simp

theorem mem_records_self (r : RecordDecl) : r ∈ r.records := by
  rw [records_eq]
  exact mem_cons_self

/-- Inner records name the record as the one around them, and have shorter bodies. -/
inductive WellNested : RecordDecl → Prop where
  | intro {r : RecordDecl} (parent : ∀ n ∈ r.nested.getD [], n.parent = some r.name.value)
      (shorter : ∀ n ∈ r.nested.getD [], n.bodyLength < r.bodyLength)
      (nested : ∀ n ∈ r.nested.getD [], WellNested n) : WellNested r

/-! ## Records without their members -/

theorem readFront_eq {f : Front} {front : Front} {body : Token} {tail : List Token}
    (h : readFront f ts = some (front, body, tail)) :
    ∃ pre brace, ts = pre ++ brace :: tail ∧ brace.kind = .brace ∧ body = brace.interior ∧
      front.name = (pre.filter Token.isTag).getLast?.or f.name := by
  -- a token that is no tag is passed over
  have hskip : ∀ {o : Option Token} {u : Token} {us : List Token}, u.isTag = false →
      (∃ pre brace, us = pre ++ brace :: tail ∧ brace.kind = .brace ∧ body = brace.interior ∧
        front.name = (pre.filter Token.isTag).getLast?.or o) →
      ∃ pre brace, u :: us = pre ++ brace :: tail ∧ brace.kind = .brace ∧
        body = brace.interior ∧ front.name = (pre.filter Token.isTag).getLast?.or o := by
    rintro o u us hu ⟨pre, brace, rfl, hbrace, hbody, hname⟩
    refine ⟨u :: pre, brace, rfl, hbrace, hbody, ?_⟩
    rw [filter_cons_of_neg (by rw [hu]; decide), hname]
  fun_induction readFront f ts with
  | case1 => cases h
  | case2 f u us hword ih | case3 f u us _ hword ih | case4 f u us _ _ hword ih
  | case5 f u us _ _ _ hword ih =>
    exact hskip (Token.isTag_eq_false hword (by decide)) (ih h)
  | case6 f u us _ _ _ _ hqualifier ih => exact hskip (by simp [Token.isTag, hqualifier]) (ih h)
  | case7 f u us htypedef _ _ _ hqualifier hlong ih =>
    obtain ⟨pre, brace, rfl, hbrace, hbody, hname⟩ := ih h
    have htag : u.isTag = true := by
      simp only [beq_iff_eq] at htypedef
      simp [Token.isTag, hlong, hqualifier, htypedef]
    refine ⟨u :: pre, brace, rfl, hbrace, hbody, ?_⟩
    rw [filter_cons_of_pos htag, getLast?_cons, hname]
    cases (pre.filter Token.isTag).getLast? <;> rfl
  | case8 f u us _ _ _ _ _ _ hbrace =>
    cases h
    exact ⟨[], u, rfl, by simpa using hbrace, rfl, rfl⟩
  | case9 => cases h
  | case10 f u us _ _ _ _ _ hlong _ _ ih => exact hskip (by simp [Token.isTag, hlong]) (ih h)

/-- The body has not been looked at, and lies inside a token; the comments are tokens. -/
structure Unread (ts : List Token) (parent : Option String) (r : RecordDecl) : Prop where
  members_eq : r.members = none
  nested_eq : r.nested = none
  parent_eq : r.parent = parent
  body : ∃ t ∈ ts, r.body.map Token.chars = some (Text.interior t.chars)
  preComment : ∀ t ∈ r.preComment, t ∈ ts
  postComment : ∀ t ∈ r.postComment, t ∈ ts

theorem unread_ofTokens (h : ofTokens c ts parent = .ok (some r)) : r.Unread ts parent := by
  unfold ofTokens at h
  cases hlead : Tokens.lead? ts with
  | none =>
    rw [hlead] at h
    cases h
  | some lead =>
    rw [hlead] at h
    dsimp only at h
    cases hfront : readFront {} (if lead.comment.isNone = true then
        ((ts.drop lead.next).take 1).map Token.settled ++ (ts.drop lead.next).drop 1
      else ts.drop lead.next) with
    | none =>
      rw [hfront] at h
      cases h
    | some found =>
      rcases found with ⟨front, body, tail⟩
      rw [hfront] at h
      obtain ⟨pre, brace, hsplit, -, rfl, -⟩ := readFront_eq hfront
      cases h
      refine ⟨rfl, rfl, rfl, ?_, Tokens.mem_of_lead? hlead, Tokens.mem_of_postComment⟩
      have hbrace : brace ∈ pre ++ brace :: tail := mem_append_right _ mem_cons_self
      have hchars : brace.interior.chars = Text.interior brace.chars := String.toList_ofList
      rw [← hsplit] at hbrace
      split at hbrace
      · rcases mem_append.mp hbrace with hbrace | hbrace
        · obtain ⟨t, ht, rfl⟩ := mem_map.mp hbrace
          exact ⟨t, mem_of_mem_drop (mem_of_mem_take ht), congrArg some hchars⟩
        · exact ⟨brace, mem_of_mem_drop (mem_of_mem_drop hbrace), congrArg some hchars⟩
      · exact ⟨brace, mem_of_mem_drop hbrace, congrArg some hchars⟩

theorem bodyLength_eq {body : Token} (h : r.body = some body) :
    r.bodyLength = body.chars.length := by
  rw [bodyLength, h]
  exact String.length_toList.symm

theorem Unread.bodyLength_lt (h : r.Unread st.tokens parent)
    (hst : st ∈ scan s 0) : r.bodyLength < s.length := by
  obtain ⟨t, ht, hbody⟩ := h.body
  obtain ⟨b, hb, hchars⟩ := Option.map_eq_some_iff.mp hbody
  have hstands := standsIn_of_mem_scan hst t ht
  obtain ⟨front, rear, hs, -⟩ := hstands.place
  have hpos := length_pos_iff.mpr hstands.nonempty
  have hlength : r.bodyLength = (Text.interior t.chars).length := by
    rw [bodyLength_eq hb, hchars]
  have hinterior : (Text.interior t.chars).length ≤ t.chars.length - 1 := by
    simp only [Text.interior, length_dropLast, length_drop]
    omega
  rw [hs, length_append, length_append]
  omega

/-! ## Reading the members -/

/-- What a statement of a body adds to the members and records read before it. -/
def readStatement (c : Context) (parent : Option String) (acc : Reading) (st : Statement) :
    Except Fault Reading :=
  st.kind >>= fun k =>
    if k.isDirective then .ok acc
    else if k.isRecord then
      ofTokens c st.tokens parent >>= fun inner? =>
        inner?.elim (.ok acc) fun inner => (inner.withMembers c).map acc.addRecord
    else .ok (acc.addVariable (Variable.ofDefinition c.scope st.tokens))

theorem readStatement_eq (h : ∃ k, st.kind = .ok k ∧ k.isDirective = false ∧ k.isRecord = false) :
    readStatement c parent acc st =
      .ok (acc.addVariable (Variable.ofDefinition c.scope st.tokens)) := by
  obtain ⟨k, hk, hdirective, hrecord⟩ := h
  simp [readStatement, hk, hdirective, hrecord, bind, Except.bind]

/-- The record with what was read off its body. -/
def withRead (r : RecordDecl) (read : Reading) : RecordDecl :=
  { r with
    members := some read.members
    nested := if read.nested.isEmpty then r.nested else some (r.nested.getD [] ++ read.nested) }

theorem withMembers_eq {body : Token} (hmembers : r.members = none) (hbody : r.body = some body) :
    r.withMembers c = (scan body.chars 0).foldlM
      (readStatement (c.enterPiece body.span.start) (some r.name.value)) {} >>=
        fun read => .ok (r.withRead read) := by
  unfold withMembers
  split
  · simp_all
  · simp_all
  rename_i body' _ hbody'
  obtain rfl : body = body' := Option.some.inj (hbody.symm.trans hbody')
  refine congrArg (fun x => x >>= fun read => .ok (r.withRead read))
    (Fault.foldlM_congr (fun acc st hst => ?_) _)
  unfold readStatement
  cases st.kind with
  | error fault => rfl
  | ok k =>
    show (if k.isDirective then _ else _) = if k.isDirective then _ else _
    split
    · rfl
    · split
      · cases hinner : ofTokens (c.enterPiece body.span.start) st.tokens (some r.name.value) with
        | error fault => rfl
        | ok inner? =>
          cases inner? with
          | none => rfl
          | some inner =>
            have hlt : inner.bodyLength < r.bodyLength := by
              rw [bodyLength_eq hbody]
              exact (unread_ofTokens hinner).bodyLength_lt hst
            show (if _ : _ then _ else _) = _
            rw [dif_pos hlt]
            rfl
      · rfl

/-- What the reading of the members leaves alone: all that says where a record belongs. -/
structure SameFront (r r' : RecordDecl) : Prop where
  name : r'.name = r.name
  parent : r'.parent = r.parent
  body : r'.body = r.body
  preComment : r'.preComment = r.preComment
  postComment : r'.postComment = r.postComment

theorem SameFront.bodyLength (h : r.SameFront r') : r'.bodyLength = r.bodyLength := by
  unfold RecordDecl.bodyLength
  rw [h.body]

theorem sameFront_withMembers (h : r.withMembers c = .ok r') : r.SameFront r' := by
  unfold withMembers at h
  split at h
  · cases h
    exact ⟨rfl, rfl, rfl, rfl, rfl⟩
  · cases h
    exact ⟨rfl, rfl, rfl, rfl, rfl⟩
  · obtain ⟨acc, -, hr'⟩ := Fault.exists_of_bind_eq_ok h
    cases hr'
    exact ⟨rfl, rfl, rfl, rfl, rfl⟩

theorem foldlM_readStatement {I : Reading → Prop} {sts : List Statement} {start : Reading}
    (hvariable : ∀ acc, ∀ st ∈ sts, I acc →
      I (acc.addVariable (Variable.ofDefinition c.scope st.tokens)))
    (hrecord : ∀ acc, ∀ st ∈ sts, ∀ inner inner', ofTokens c st.tokens parent = .ok (some inner) →
      inner.withMembers c = .ok inner' → I acc → I (acc.addRecord inner'))
    (hstart : I start) (h : sts.foldlM (readStatement c parent) start = .ok acc) : I acc := by
  refine Fault.foldlM_preserves (fun acc acc' st hst hacc hstep => ?_) hstart h
  obtain ⟨k, -, hstep⟩ := Fault.exists_of_bind_eq_ok hstep
  split at hstep
  · cases hstep
    exact hacc
  split at hstep
  · obtain ⟨inner?, hinner, hstep⟩ := Fault.exists_of_bind_eq_ok hstep
    cases inner? with
    | none =>
      cases hstep
      exact hacc
    | some inner =>
      obtain ⟨inner', hmembers, rfl⟩ := Fault.exists_of_map_eq_ok hstep
      exact hrecord acc st hst inner inner' hinner hmembers hacc
  · cases hstep
    exact hvariable acc st hst hacc

/-- What follows for a record from its inner records holds of every record that was read. -/
theorem withMembers_induction {Q : Context → List Token → RecordDecl → RecordDecl → Prop}
    (hread : ∀ c ts parent r body read, r.Unread ts parent → r.body = some body →
      (scan body.chars 0).foldlM
        (readStatement (c.enterPiece body.span.start) (some r.name.value)) {} = .ok read →
      (∀ st ∈ scan body.chars 0, ∀ inner inner',
        inner.Unread st.tokens (some r.name.value) →
        inner.withMembers (c.enterPiece body.span.start) = .ok inner' →
        Q (c.enterPiece body.span.start) st.tokens inner inner') →
      Q c ts r (r.withRead read))
    (hr : r.Unread ts parent) (h : r.withMembers c = .ok r') : Q c ts r r' := by
  induction hsize : r.bodyLength using Nat.strongRecOn generalizing r r' c ts parent with
  | ind size ih =>
    subst hsize
    obtain ⟨t, -, hbody⟩ := hr.body
    obtain ⟨body, hbody, -⟩ := Option.map_eq_some_iff.mp hbody
    rw [withMembers_eq hr.members_eq hbody] at h
    obtain ⟨read, hwalk, h⟩ := Fault.exists_of_bind_eq_ok h
    obtain rfl := Except.ok.inj h
    refine hread c ts parent r body read hr hbody hwalk fun st hst inner inner' hinner hmembers => ?_
    refine ih _ ?_ hinner hmembers rfl
    rw [bodyLength_eq hbody]
    exact hinner.bodyLength_lt hst

/-- Induction over the records in a body. -/
theorem nested_induction {T : List Token → Prop} {Q : RecordDecl → Prop}
    (hinside : ∀ ts, T ts → ∀ t ∈ ts, ∀ st ∈ scan (Text.interior t.chars) 0, T st.tokens)
    (hread : ∀ ts parent r r', T ts → Unread ts parent r → r.SameFront r' →
      (∀ n ∈ r'.nested.getD [], n.parent = some r.name.value ∧ n.bodyLength < r.bodyLength ∧ Q n) →
      Q r') (hts : T ts)
    (hr : r.Unread ts parent) (h : r.withMembers c = .ok r') : Q r' := by
  refine withMembers_induction (Q := fun _ ts _ r' => T ts → Q r')
    (fun c ts parent r body read hr hbody hwalk ih hts => ?_) hr h hts
  refine hread ts parent r _ hts hr ⟨rfl, rfl, rfl, rfl, rfl⟩ fun n hn => ?_
  have hnested : n ∈ read.nested := by
    change n ∈ (if read.nested.isEmpty then r.nested
      else some (r.nested.getD [] ++ read.nested)).getD [] at hn
    rw [hr.nested_eq] at hn
    split at hn
    · cases hn
    · exact hn
  refine foldlM_readStatement (I := fun acc => ∀ n ∈ acc.nested, n.parent = some r.name.value ∧
    n.bodyLength < r.bodyLength ∧ Q n) (fun acc st _ hacc => ?_)
    (fun acc st hst inner inner' hinner hmembers hacc n hn => ?_) (fun n hn => by cases hn) hwalk n
    hnested
  · unfold Reading.addVariable
    split <;> exact hacc
  · rcases mem_append.mp hn with hn | hn
    · exact hacc n hn
    · have hunread := unread_ofTokens hinner
      have hsame := sameFront_withMembers hmembers
      obtain ⟨t, ht, hchars⟩ := hr.body
      rw [hbody] at hchars
      rw [mem_singleton.mp hn]
      refine ⟨hsame.parent.trans hunread.parent_eq, ?_, ih st hst inner inner' hunread hmembers ?_⟩
      · rw [hsame.bodyLength, bodyLength_eq hbody]
        exact hunread.bodyLength_lt hst
      · refine hinside ts hts t ht st ?_
        rwa [← Option.some.inj hchars]

theorem wellNested_withMembers (hr : r.Unread ts parent) (h : r.withMembers c = .ok r') :
    r'.WellNested := by
  refine nested_induction (T := fun _ => True) (fun _ _ _ _ _ _ => trivial)
    (fun ts parent r r' _ _ hfront hnested => ?_) trivial hr h
  refine .intro (fun n hn => ?_) (fun n hn => ?_) fun n hn => (hnested n hn).2.2
  · rw [hfront.name]
    exact (hnested n hn).1
  · rw [hfront.bodyLength]
    exact (hnested n hn).2.1

/-! ## Names in place -/

/-- A record read off its tokens: its name and those behind its body are in place, and its body is a
piece of the text. -/
structure Parsed (texts : Texts) (c : Context) (r : RecordDecl) : Prop where
  scope_eq : r.scope = c.scope
  tag : r.scope.ShowsTag texts r.name.span.start r.name.value
  behind : ∀ v ∈ r.typedefs.getD [] ++ r.vardefs.getD [], v.scope = c.scope ∧ v.Named texts
  members_eq : r.members = none
  nested_eq : r.nested = none
  body : ∀ b, r.body = some b → (c.enterPiece b.span.start).Reads texts b.chars

theorem kind_of_mem_lead {lead : Tokens.Lead} (h : Tokens.lead? ts = some lead) :
    ∀ t ∈ ts.take lead.next, t.kind = .space ∨ t.kind = .comment := by
  unfold Tokens.lead? at h
  split at h
  · cases h
  split at h
  · rename_i hnone
    intro t ht
    have hspace := findIdx?_eq_none_iff.mp hnone t (mem_of_mem_take ht)
    exact .inl (by simpa using hspace)
  · rename_i i hfind
    obtain ⟨hi, -, hbefore⟩ := findIdx?_eq_some_iff_getElem.mp hfind
    have hspaces : ∀ t ∈ ts.take i, t.kind = .space := by
      intro t ht
      obtain ⟨j, hj, rfl⟩ := mem_take_iff_getElem.mp ht
      have hspace := hbefore j (by omega)
      simpa using hspace
    rw [getElem?_eq_getElem hi] at h
    dsimp only at h
    split at h
    · rename_i hcomment
      cases h
      intro t ht
      rw [take_succ_eq_append_getElem hi] at ht
      rcases mem_append.mp ht with ht | ht
      · exact .inl (hspaces t ht)
      · rw [mem_singleton.mp ht]
        exact .inr (by simpa using hcomment)
    · cases h
      exact fun t ht => .inl (hspaces t ht)

/-- A record in a text is read with its name in place. -/
theorem parsed_ofTokens {st : Statement} {parent : Option String} (hc : c.Reads texts s)
    (hst : st ∈ scan s 0) (h : ofTokens c st.tokens parent = .ok (some r)) :
    r.Parsed texts c := by
  have hts := standsIn_of_mem_scan hst
  unfold ofTokens at h
  cases hlead : Tokens.lead? st.tokens with
  | none => rw [hlead] at h; cases h
  | some lead =>
    rw [hlead] at h
    dsimp only at h
    have hsettled : (st.tokens.drop lead.next |>.take 1).map Token.settled =
        (st.tokens.drop lead.next).take 1 := by
      refine (map_congr_left fun t ht => ?_).trans (map_id _)
      exact settled_of_mem_scan hst t (mem_of_mem_drop (mem_of_mem_take ht))
    rw [hsettled, take_append_drop, ite_self] at h
    have hstands : ∀ t ∈ st.tokens.drop lead.next, t.StandsIn s 0 :=
      fun t ht => hts t (mem_of_mem_drop ht)
    cases hfront : readFront {} (st.tokens.drop lead.next) with
    | none => rw [hfront] at h; cases h
    | some found =>
      rcases found with ⟨front, body, tail⟩
      rw [hfront] at h
      obtain ⟨pre, t, hsplit, hbrace, rfl, hname⟩ := readFront_eq hfront
      rw [hsplit] at hstands
      have ht : t.StandsIn s 0 := hstands t (mem_append_right pre mem_cons_self)
      have htail : ∀ u ∈ tail, u.StandsIn s 0 := fun u hu =>
        hstands u (mem_append_right pre (mem_cons_of_mem t hu))
      cases h
      refine ⟨rfl, ?_, ?_, rfl, rfl, ?_⟩
      · rw [hname]
        cases hlast : (pre.filter Token.isTag).getLast? with
        | some u =>
          have hu : u ∈ pre := (mem_filter.mp (mem_of_getLast? hlast)).1
          exact .inl (hc.shows_token (hstands u (mem_append_left _ hu)))
        | none =>
          have hnone := filter_eq_nil_iff.mp (getLast?_eq_none_iff.mp hlast)
          refine .inr ⟨?_, s, hc.2, st, hst, st.tokens.take lead.next ++ pre, t, tail, ?_, hbrace,
            rfl, fun u hu => ?_⟩
          · show "(" ++ c.location t.interior.span.start ++ ")" =
              "(" ++ c.scope.location t.interior.span.start ++ ")"
            rw [Context.location_eq hc.1]
          · rw [append_assoc, ← hsplit, take_append_drop]
          · rcases mem_append.mp hu with hu | hu
            · have hkind := kind_of_mem_lead hlead u hu
              have hlong := (hts u (mem_of_mem_take hu)).isLongName_eq_false hkind
              simp [Token.isTag, hlong]
            · exact Bool.eq_false_iff.mpr (hnone u hu)
      · -- the names behind the body are type definitions, or else variables
        have hvars : ∀ st ∈ Statement.ofTokens tail, ∀ w,
            Variable.ofDefinition c.scope st.tokens = some w → w.scope = c.scope ∧ w.Named texts := by
          intro st hst w hw
          have htokens := forall_mem_group (fun t ht => by cases ht)
            (fun t ht => (htail t ht).settled) st hst
          exact Variable.named_ofDefinition hc htokens hw
        intro v hv
        obtain ⟨type, hv⟩ : ∃ type, v ∈ (Statement.ofTokens tail).filterMap fun st =>
            (Variable.ofDefinition c.scope st.tokens).map fun v => { v with type } := by
          split at hv <;> exact ⟨_, by simpa using hv⟩
        obtain ⟨st, hst, hmap⟩ := mem_filterMap.mp hv
        obtain ⟨w, hw, rfl⟩ := Option.map_eq_some_iff.mp hmap
        obtain ⟨hscope, hnamed⟩ := hvars st hst w hw
        exact ⟨hscope, hnamed.words, hnamed.word⟩
      · intro b hb
        cases hb
        have hinside := ht.interior
        rw [Int.sub_zero] at hinside
        exact hc.enterPiece hinside

/-- The record and all inside it are in place. -/
def InPlace (texts : Texts) (file : String) (r : RecordDecl) : Prop :=
  r.Everywhere (fun h => h.scope.ShowsTag texts h.name.span.start h.name.value)
    (fun v => v.scope.file.name = file ∧ v.Named texts)

theorem Parsed.inPlace (h : r.Parsed texts c)
    (hhead : (r'.scope, r'.name, r'.typedefs, r'.vardefs) = (r.scope, r.name, r.typedefs, r.vardefs))
    (hmembers : ∀ v ∈ r'.members.getD [], v.scope.file.name = c.file.name ∧ v.Named texts)
    (hnested : ∀ n ∈ r'.nested.getD [], n.InPlace texts c.file.name) :
    r'.InPlace texts c.file.name := by
  simp only [Prod.mk.injEq] at hhead
  obtain ⟨hscope, hname, htypedefs, hvardefs⟩ := hhead
  refine .intro ?_ (fun v hv => ?_) hnested
  · show r'.scope.ShowsTag texts r'.name.span.start r'.name.value
    rw [hscope, hname]
    exact h.tag
  · rw [own, htypedefs, hvardefs] at hv
    rcases mem_append.mp hv with hv | hv
    · exact hmembers v hv
    · obtain ⟨hscope, hnamed⟩ := h.behind v hv
      exact ⟨by rw [hscope]; rfl, hnamed⟩

/-- What is known while the body of a record is read. -/
structure Reading.InPlace (texts : Texts) (file : String) (acc : Reading) : Prop where
  members : ∀ v ∈ acc.members, v.scope.file.name = file ∧ v.Named texts
  nested : ∀ n ∈ acc.nested, n.InPlace texts file

theorem Reading.InPlace.addVariable {v? : Option Variable} (h : acc.InPlace texts file)
    (hv : ∀ v, v? = some v → v.scope.file.name = file ∧ v.Named texts) :
    (acc.addVariable v?).InPlace texts file := by
  cases v? with
  | none => exact ⟨h.members, h.nested⟩
  | some v =>
    refine ⟨fun w hw => ?_, h.nested⟩
    rcases mem_append.mp hw with hw | hw
    · exact h.members w hw
    · rw [mem_singleton.mp hw]
      obtain ⟨hfile, hnamed⟩ := hv v rfl
      unfold Variable.inherit
      split
      · exact ⟨hfile, hnamed⟩
      · exact ⟨hfile, hnamed.words, hnamed.word⟩

theorem Reading.InPlace.addRecord {inner : RecordDecl} (h : acc.InPlace texts file)
    (hinner : inner.InPlace texts file) : (acc.addRecord inner).InPlace texts file := by
  refine ⟨fun w hw => ?_, fun n hn => ?_⟩
  · rcases mem_append.mp hw with hw | hw
    · exact h.members w hw
    · refine hinner.own w ?_
      split at hw
      · exact mem_append_right _ (mem_append_right _ hw)
      · split at hw
        · exact mem_append_left _ hw
        · cases hw
  · rcases mem_append.mp hn with hn | hn
    · exact h.nested n hn
    · rwa [mem_singleton.mp hn]

theorem inPlace_withMembers (hr : r.Unread ts parent) (hparsed : r.Parsed texts c)
    (h : r.withMembers c = .ok r') : r'.InPlace texts c.file.name := by
  refine withMembers_induction
    (Q := fun c _ r r' => r.Parsed texts c → r'.InPlace texts c.file.name)
    (fun c ts parent r body read hr hbody hwalk ih hparsed => ?_) hr h hparsed
  have hc := hparsed.body body hbody
  have hread : read.InPlace texts c.file.name := by
    refine foldlM_readStatement (fun acc st hst hacc => ?_)
      (fun acc st hst inner inner' hinner hmembers hacc => ?_) ⟨by simp, by simp⟩ hwalk
    · refine hacc.addVariable fun v hv => ?_
      obtain ⟨hscope, hnamed⟩ :=
        Variable.named_ofDefinition hc (standsIn_of_mem_scan hst) hv
      exact ⟨by rw [hscope]; rfl, hnamed⟩
    · exact hacc.addRecord (ih st hst inner inner' (unread_ofTokens hinner) hmembers
        (parsed_ofTokens hc hst hinner))
  refine hparsed.inPlace rfl hread.members fun n hn => hread.nested n ?_
  rw [withRead, hr.nested_eq] at hn
  split at hn
  · cases hn
  · exact hn

end RecordDecl

end CBoundary
