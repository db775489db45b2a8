import CBoundary.Proofs.Declaration.Signature

/-!
# What brackets enclose

The body of a function is the inside of a block of its statement, and so are its arguments,
unless its name is looked for in parentheses: then they are the inside of the token at which the
search ends.
-/

namespace CBoundary

open Text List Declaration

/-! ## Blocks -/

namespace Token

variable {s : List Char} {base : Int} {o d : Char} {t : Token}

/-- The token stands in a text between two brackets. -/
def EnclosedBy (s : List Char) (base : Int) (o d : Char) (t : Token) : Prop :=
  StandsAt s (t.span.start - base - 1) (o :: (t.chars ++ [d])) ∧
    t.span.stop = t.span.start + t.chars.length

/-- The token stands in a text, and its inside between its bracket and the closing one. -/
structure Closed (s : List Char) (base : Int) (t : Token) : Prop extends t.StandsIn s base where
  encloses : ∀ o d, t.chars.head? = some o → Lex.closerOf o = some d →
    t.interior.EnclosedBy s base o d

theorem start_interior (t : Token) (base : Int) :
    t.interior.span.start - base - 1 = t.span.start - base := by
  show t.span.start + 1 - base - 1 = _
  omega

theorem closed_of_mem_scan (h : t ∈ scan s base) : t.Closed s base := by
  have hstands := standsIn_of_mem_scan h
  refine ⟨hstands, fun o d ho hd => ?_⟩
  obtain ⟨⟨c, -, hchars⟩, -⟩ := block_of_mem_scan h (d := d) (by rw [closer?, ho]; exact hd)
  obtain rfl : c = o := by rw [hchars] at ho; exact Option.some.inj ho
  obtain ⟨front, rear, -, hspan, -⟩ := found_of_mem_scan h
  have hinside : t.interior.chars = Text.interior t.chars := by
    simp [Token.interior, interiorOf, chars]
  have hlength := congrArg List.length hchars
  simp only [length_cons, length_append, length_nil] at hlength
  refine ⟨?_, ?_⟩
  · rw [hinside, ← hchars, start_interior]
    exact hstands.place
  · rw [hinside]
    show t.span.stop - 1 = t.span.start + 1 + _
    rw [hspan]
    dsimp only
    omega

theorem Closed.settled (h : t.Closed s base) : t.settled.Closed s base :=
  ⟨h.toStandsIn.settled, h.encloses⟩

theorem Closed.trans {piece : List Char} {base' : Int} (h : StandsAt s (base' - base) piece)
    (ht : t.Closed piece base') : t.Closed s base := by
  refine ⟨ht.toStandsIn.trans h, fun o d ho hd => ⟨?_, (ht.encloses o d ho hd).2⟩⟩
  have hplace := h.trans (ht.encloses o d ho hd).1
  rwa [show base' - base + (t.interior.span.start - base' - 1) = t.interior.span.start - base - 1
    by omega] at hplace

theorem Closed.of_kind (h : t.Closed s base) {k : Kind}
    (hk : (k, o) ∈ [(Kind.paren, '('), (.brace, '\x7b'), (.bracket, '[')]) (ht : t.kind = k)
    (hd : Lex.closerOf o = some d) : t.interior.EnclosedBy s base o d :=
  h.encloses o d ((Kind.ofText_eq_iff_head? hk).mp (h.kind_eq.symm.trans ht)) hd

theorem Closed.enclosedBy_iff (h : t.Closed s base) :
    t.interior.EnclosedBy s base '(' ')' ↔ t.kind = .paren := by
  refine ⟨fun hinside => ?_, fun ht => h.of_kind (by decide) ht rfl⟩
  have hhead := hinside.1.getElem? (cons_ne_nil _ _)
  rw [start_interior, h.place.getElem? h.nonempty] at hhead
  rwa [h.kind_eq, Kind.ofText_eq_iff_head? (o := '(') (by decide)]

end Token

theorem Statement.closed_of_mem_scan {s : List Char} {base : Int} {st : Statement}
    (h : st ∈ scan s base) : ∀ t ∈ st.tokens, t.Closed s base :=
  forall_mem_group (fun t ht => by cases ht) (fun _ ht => (Token.closed_of_mem_scan ht).settled) st h

/-! ## Functions -/

namespace FunctionDecl

variable {ts : List Token} {body : Token} {found : Option Token}

/-- The body is the inside of a block. -/
def IsInside (ts : List Token) (body : Token) : Prop :=
  ∃ t ∈ ts, t.kind = .brace ∧ body = t.interior

theorem IsInside.mono {us : List Token} (h : IsInside ts body) (hsub : ts ⊆ us) :
    IsInside us body := by
  obtain ⟨t, ht, hkind, hbody⟩ := h
  exact ⟨t, hsub ht, hkind, hbody⟩

theorem isInside_secondParens (h : (secondParens found ts).1 = some body) :
    found = some body ∨ IsInside ts body := by
  fun_induction secondParens found ts with
  | case1 => exact .inl h
  | case2 => exact .inl h
  | case3 found t ts hparen hbrace ih =>
    refine .inr ?_
    rcases ih h with hfound | hinside
    · exact ⟨t, mem_cons_self, eq_of_beq hbrace, (Option.some.inj hfound).symm⟩
    · exact hinside.mono (subset_cons_self t ts)
  | case4 found t ts hparen hbrace ih =>
    exact (ih h).imp_right fun hinside => hinside.mono (subset_cons_self t ts)

theorem subset_of_secondParens {rest : List Token} {second : Token}
    (h : (secondParens found ts).2 = some (second, rest)) :
    second :: rest ⊆ ts ∧ second.kind = .paren := by
  fun_induction secondParens found ts with
  | case1 => cases h
  | case2 found u us hparen =>
    cases h
    exact ⟨List.Subset.refl _, eq_of_beq hparen⟩
  | case3 found t ts hparen hbrace ih | case4 found t ts hparen hbrace ih =>
    exact (ih h).imp_left (subset_cons_of_subset t)

theorem shape_unnamedShape (type : List Token) (parens : Token) (rest : List Token) :
    (∀ body, (unnamedShape type parens rest).body = some body → IsInside rest body) ∧
      (unnamedShape type parens rest).rest ⊆ rest := by
  have hbody {body : Token} (h : (secondParens none rest).1 = some body) : IsInside rest body :=
    (isInside_secondParens h).resolve_left nofun
  unfold unnamedShape
  split
  · rename_i found hparens
    rw [hparens] at hbody
    exact ⟨fun body h => hbody h, nil_subset _⟩
  · rename_i found second behind hparens
    have hsub : behind ⊆ rest := (cons_subset.mp (subset_of_secondParens (by rw [hparens])).1).2
    rw [hparens] at hbody
    dsimp only
    split <;> exact ⟨fun body h => hbody h, hsub⟩

theorem shape_shape? {type : List Token} {sh : Shape} (h : shape? type ts = some sh) :
    (∀ body, sh.body = some body → IsInside ts body) ∧ sh.rest ⊆ ts := by
  unfold shape? at h
  split at h
  · cases h
  · rename_i t rest hdrop
    have hsub : rest ⊆ ts := by
      have hwhole : t :: rest ⊆ ts := hdrop ▸ (dropWhile_sublist _).subset
      exact List.Subset.trans (subset_cons_self t rest) hwhole
    split at h
    · split at h
      · cases h
      · rename_i parens behind hparens
        cases h
        refine ⟨nofun, List.Subset.trans ?_ hsub⟩
        have hwhole : parens :: behind ⊆ rest := hparens ▸ (dropWhile_sublist _).subset
        exact List.Subset.trans (subset_cons_self parens behind) hwhole
    · cases h
      obtain ⟨hbody, hrest⟩ := shape_unnamedShape type t rest
      exact ⟨fun body h => (hbody body h).mono hsub, List.Subset.trans hrest hsub⟩
    · cases h

theorem isInside_of_body {sc : Scope} {f : FunctionDecl} (h : ofTokens sc ts = some f)
    (hbody : f.body = some body) : f.scope = sc ∧ IsInside (Tokens.code ts) body := by
  unfold ofTokens at h
  dsimp only at h
  split at h
  · cases h
  · obtain ⟨sh, hshape, rfl⟩ := Option.map_eq_some_iff.mp h
    refine ⟨rfl, ?_⟩
    obtain ⟨hinside, hrest⟩ := shape_shape? hshape
    have hcode : ∀ {us : List Token}, us ⊆ (dropIgnored false (Tokens.code ts)).drop
        (splitType false (dropIgnored false (Tokens.code ts))).next.toNat →
        us ⊆ Tokens.code ts := fun hsub t ht =>
      mem_of_mem_dropIgnored (mem_of_mem_drop (hsub ht))
    cases hfirst : sh.body with
    | some first =>
      rw [hfirst] at hbody
      exact (hinside body (hfirst.trans hbody)).mono (hcode (List.Subset.refl _))
    | none =>
      rw [hfirst] at hbody
      obtain ⟨t, ht, rfl⟩ := Option.map_eq_some_iff.mp hbody
      have hkind := find?_some ht
      exact ⟨t, hcode hrest (mem_of_find?_eq_some ht), eq_of_beq hkind, rfl⟩

/-! ## Arguments -/

/-- The token at which the search for a name in parentheses ends: the last word, or the first token.
-/
def searchedIn? (parens : Token) (rest : List Token) : Option Token :=
  if rest.any fun t => t.kind == .paren then
    (innerTokens parens.interior).find? (fun t => t.kind == .word) <|>
      (innerTokens parens.interior).getLast?
  else none

/-- The token at which the search for a name ends that is not found behind a type and stars. -/
def searched? (ts : List Token) : Option Token :=
  match ts.dropWhile fun t => t.value == "*" with
  | [] => none
  | t :: rest => if t.kind == .paren then searchedIn? t rest else none

variable {s : List Char} {base : Int}

theorem closed_of_mem_innerTokens {parens t : Token} (h : parens.Closed s base)
    (ht : t ∈ innerTokens parens.interior) : t.Closed s base := by
  obtain ⟨u, hu, rfl⟩ := Tokens.mem_code (mem_of_mem_dropIgnored (mem_reverse.mp ht))
  exact ((Token.closed_of_mem_scan hu).settled).trans h.toStandsIn.interior

theorem args_unnamedShape (type : List Token) {parens : Token} {rest : List Token}
    (hparens : parens.kind = .paren) (hclosed : ∀ t ∈ parens :: rest, t.Closed s base) :
    (unnamedShape type parens rest).args.EnclosedBy s base '(' ')' ↔
      ∀ t ∈ searchedIn? parens rest, t.kind = .paren := by
  obtain ⟨hhead, hrest⟩ := forall_mem_cons.mp hclosed
  unfold searchedIn? unnamedShape
  split
  · rename_i body hsecond
    have hnone : rest.any (fun t => t.kind == .paren) = false :=
      any_eq_false.mpr fun t ht => by simpa using forall_ne_paren hsecond t ht
    simpa [hnone] using hhead.enclosedBy_iff.mpr hparens
  · rename_i body second behind hsecond
    have hfound : (secondParens none rest).2 = some (second, behind) := by rw [hsecond]
    obtain ⟨hsub, hkind⟩ := subset_of_secondParens hfound
    have hmem := hsub mem_cons_self
    have hany : rest.any (fun t => t.kind == .paren) = true :=
      any_eq_true.mpr ⟨second, hmem, by simp [hkind]⟩
    dsimp only
    rw [if_pos hany]
    cases hfind : (innerTokens parens.interior).find? fun t => t.kind == .word with
    | some name =>
      simpa using (closed_of_mem_innerTokens hhead (mem_of_find?_eq_some hfind)).enclosedBy_iff
    | none =>
      cases hlast : (innerTokens parens.interior).getLast? with
      | some first =>
        simpa using (closed_of_mem_innerTokens hhead (mem_of_getLast? hlast)).enclosedBy_iff
      | none => simpa using (hrest second hmem).enclosedBy_iff.mpr hkind

theorem args_shape? {type : List Token} {sh : Shape} (hclosed : ∀ t ∈ ts, t.Closed s base)
    (h : shape? type ts = some sh) :
    sh.args.EnclosedBy s base '(' ')' ↔ ∀ t ∈ searched? ts, t.kind = .paren := by
  unfold shape? at h
  split at h
  · cases h
  · rename_i t rest hdrop
    have hmem : t :: rest ⊆ ts := hdrop ▸ (dropWhile_sublist _).subset
    rw [searched?, hdrop]
    dsimp only
    split at h
    · rename_i hkind
      split at h
      · cases h
      · rename_i parens behind hbehind
        cases h
        have hparens := head?_dropWhile_not (fun u : Token => u.kind != .paren) rest
        have hsub : parens :: behind ⊆ rest := hbehind ▸ (dropWhile_sublist _).subset
        rw [hbehind] at hparens
        refine iff_of_true ?_ (by simp [hkind])
        refine (hclosed _ (hmem (mem_cons_of_mem t (hsub mem_cons_self)))).enclosedBy_iff.mpr ?_
        simpa using hparens
    · rename_i hkind
      cases h
      rw [if_pos (by simp [hkind])]
      exact args_unnamedShape type hkind fun u hu => hclosed u (hmem hu)
    · cases h

/-- **What stands between brackets.** The body of a function is the inside of a pair of braces. Its
arguments are that of a pair of parentheses exactly if the search for its name does not end at a
token of another kind. -/
theorem ofTokens_args_enclosed_iff {st : Statement} {scope : Scope} {f : FunctionDecl}
    (hst : st ∈ Statement.scan s base) (hf : ofTokens scope st.tokens = some f) :
    let code := Declaration.dropIgnored false (Tokens.code st.tokens)
    (∀ body ∈ f.body, body.EnclosedBy s base '\x7b' '\x7d') ∧ (f.args.EnclosedBy s base '(' ')' ↔
        ∀ t ∈ searched? (code.drop (Declaration.splitType false code).next.toNat),
          t.kind = .paren) := by
  intro code
  have hcode : ∀ t ∈ Tokens.code st.tokens, t.Closed s base := fun t ht => by
    obtain ⟨u, hu, rfl⟩ := Tokens.mem_code ht
    exact (Statement.closed_of_mem_scan hst u hu).settled
  refine ⟨fun body hbody => ?_, ?_⟩
  · obtain ⟨-, t, ht, hkind, rfl⟩ := isInside_of_body hf hbody
    exact (hcode t ht).of_kind (by decide) hkind rfl
  · unfold ofTokens at hf
    dsimp only at hf
    split at hf
    · cases hf
    · obtain ⟨sh, hshape, rfl⟩ := Option.map_eq_some_iff.mp hf
      exact args_shape? (fun t ht => hcode t (mem_of_mem_dropIgnored
        (mem_of_mem_drop ht))) hshape

/-- The arguments of a declared pointer are taken from its name. -/
theorem ofTokens_args_enclosed_iff_pointer :
    ∃ st ∈ Statement.scan "int (*cb)(int a);".toList 0, ∃ f, ofTokens .blank st.tokens = some f ∧
      ¬f.args.EnclosedBy "int (*cb)(int a);".toList 0 '(' ')' := by
  have hfound : (Statement.scan "int (*cb)(int a);".toList 0).map (fun st =>
      ((ofTokens .blank st.tokens).isSome, (searched? ((dropIgnored false
        (Tokens.code st.tokens)).drop (splitType false (dropIgnored false
          (Tokens.code st.tokens))).next.toNat)).map Token.kind)) = [(true, some .word)] := by
    decide +kernel
  obtain ⟨st, hst, hpair⟩ := map_eq_singleton_iff.mp hfound
  obtain ⟨hsome, hword⟩ := Prod.mk.inj hpair
  obtain ⟨f, hf⟩ := Option.isSome_iff_exists.mp hsome
  obtain ⟨t, ht, hkind⟩ := Option.map_eq_some_iff.mp hword
  have hmem : st ∈ Statement.scan "int (*cb)(int a);".toList 0 := by
    rw [hst]
    exact mem_singleton_self st
  refine ⟨st, hmem, f, hf, fun h => ?_⟩
  have hparen := (ofTokens_args_enclosed_iff hmem hf).2.mp h t ht
  rw [hkind] at hparen
  cases hparen

end FunctionDecl

end CBoundary
