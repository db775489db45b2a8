import CBoundary.Proofs.Declaration.Inside
import CBoundary.Proofs.Workspace.Modules

/-!
# Verdicts

The verdict about a thing is put together from what the thing says itself, in an annotation or by
the form of its name, and from what its surroundings say.  The form of a name and the place of a
file lead to known modules only.  An annotation is taken at its word.
-/

namespace CBoundary

open List

variable {ts : List Token}

/-! ## Pieces of texts -/

/-- What holds of a text holds of its pieces. -/
def Text.Hereditary (N : List Char → Prop) : Prop := ∀ s piece, piece <:+: s → N s → N piece

theorem Text.StandsAt.isPiece {s piece : List Char} {i : Int} (h : StandsAt s i piece) :
    piece <:+: s := by
  obtain ⟨front, rear, hs, -⟩ := h
  refine ⟨front, rear, ?_⟩
  rw [append_assoc]
  exact hs.symm

theorem Text.interior_isPiece (s : List Char) : interior s <:+: s :=
  (List.dropLast_prefix _).isInfix.trans (drop_suffix 1 s).isInfix

namespace Lex

theorem isPiece_of_mem_findings {r : Rule} {start : Nat} {s : List Char} {l : Lexeme}
    (h : l ∈ findings r start s) : l.chars <:+: s := by
  fun_induction findings r start s with
  | case1 => cases h
  | case2 start c cs _ ih => exact (ih h).trans (suffix_cons c cs).isInfix
  | case3 start c cs n _ ih =>
    rcases mem_cons.mp h with rfl | h
    · exact (prefix_cons_inj c |>.mpr (List.take_prefix n cs)).isInfix
    · exact (ih h).trans ((drop_suffix n cs).trans (suffix_cons c cs)).isInfix

end Lex

namespace Statement

variable {s : List Char} {st : Statement}

theorem isPiece_of_mem_scan (h : st ∈ scan s 0) : ∀ t ∈ st.tokens, t.chars <:+: s :=
  fun t ht => (standsIn_of_mem_scan h t ht).place.isPiece

theorem mem_of_mem_directivesOf {older latest : Token} {ts : List Token}
    (h : st ∈ directivesOf older latest ts) : ∀ t ∈ st.tokens, t = older ∨ t = latest ∨ t ∈ ts := by
  induction ts generalizing older latest with
  | nil => cases h
  | cons u ts ih =>
    intro t ht
    rcases mem_append.mp h with h | h
    · split at h
      · split at h
        · rw [mem_singleton.mp h] at ht
          simp only [mem_cons, not_mem_nil, or_false] at ht
          rcases ht with ht | ht | ht
          · exact .inl ht
          · exact .inr (.inl ht)
          · exact .inr (.inr (ht ▸ mem_cons_self))
        · rw [mem_singleton.mp h] at ht
          exact .inr (.inr (mem_singleton.mp ht ▸ mem_cons_self))
      · cases h
    · rcases ih h t ht with ht | ht | ht
      · exact .inr (.inl ht)
      · exact .inr (.inr (ht ▸ mem_cons_self))
      · exact .inr (.inr (mem_cons_of_mem u ht))

theorem isPiece_of_mem_scanDirectives (h : st ∈ scanDirectives s) :
    ∀ t ∈ st.tokens, t.chars <:+: s := by
  intro t ht
  have hempty : Token.empty.chars <:+: s := nil_infix
  rcases mem_of_mem_directivesOf h t ht with rfl | rfl | ht
  · exact hempty
  · exact hempty
  · obtain ⟨u, hu, rfl⟩ := mem_map.mp ht
    obtain ⟨i, hi, rfl⟩ := mem_mapIdx.mp hu
    show (String.ofList _).toList <:+: s
    rw [String.toList_ofList]
    exact Lex.isPiece_of_mem_findings (getElem_mem hi)

end Statement

/-! ## Comments -/

variable {N : List Char → Prop}

/-- Something holds of the comments of a thing. -/
def Details.Comments (N : List Char → Prop) (thing : Details) : Prop :=
  (∀ t ∈ thing.preComment, N t.chars) ∧ ∀ t ∈ thing.postComment, N t.chars

theorem FunctionDecl.comments_ofTokens {scope : Scope} {f : FunctionDecl}
    (hts : ∀ t ∈ ts, N t.chars) (h : ofTokens scope ts = some f) :
    (Details.function f).Comments N := by
  unfold ofTokens at h
  dsimp only at h
  split at h
  · cases h
  · obtain ⟨shape, -, rfl⟩ := Option.map_eq_some_iff.mp h
    refine ⟨fun t ht => hts t ?_, fun t ht => hts t (Tokens.mem_of_postComment t ht)⟩
    obtain ⟨lead, hlead, ht⟩ := Option.bind_eq_some_iff.mp ht
    exact Tokens.mem_of_lead? hlead t ht

theorem MacroDecl.comments_ofTokens {m : MacroDecl} (hts : ∀ t ∈ ts, N t.chars)
    (h : ofTokens ts = some m) : (Details.macroDef m).Comments N := by
  obtain ⟨t, -, h⟩ := Option.bind_eq_some_iff.mp h
  obtain ⟨d, -, h⟩ := Option.bind_eq_some_iff.mp h
  cases h
  refine ⟨fun t ht => hts t ?_, fun t ht => absurd ht (Option.not_mem_none t)⟩
  exact takeWhile_subset _ (mem_of_find?_eq_some ht)

namespace RecordDecl

/-- Something holds of the comments of a record and of all records inside it. -/
inductive Commented (N : List Char → Prop) : RecordDecl → Prop where
  | intro {r : RecordDecl} (comments : (Details.record r).Comments N)
      (nested : ∀ n ∈ r.nested.getD [], Commented N n) : Commented N r

variable {r : RecordDecl}

section

variable (h : r.Commented N)

include h

theorem Commented.comments : (Details.record r).Comments N := by
  cases h with
  | intro comments _ => exact comments

theorem Commented.nested : ∀ n ∈ r.nested.getD [], n.Commented N := by
  cases h with
  | intro _ nested => exact nested

theorem Commented.mapTree {f : RecordDecl → RecordDecl}
    (hf : ∀ q : RecordDecl, q.Commented N → (f q).Commented N) : (r.mapTree f).Commented N := by
  induction h with
  | @intro r comments _ ih =>
    rw [mapTree_eq]
    refine hf _ (.intro comments fun n hn => ?_)
    obtain ⟨n', hn', rfl⟩ := mem_nested_map hn
    exact ih n' hn'

theorem Commented.renumber (f : Nat → Nat) : (r.renumber f).Commented N :=
  h.mapTree fun _ hq => .intro hq.comments hq.nested

theorem Commented.refresh {new : RecordDecl} (hnew : new.Commented N) :
    (new.refresh r).Commented N := by
  refine h.mapTree fun q hq => ?_
  split
  · exact hnew
  · exact hq

theorem Commented.refreshVariable (new : Variable) : (r.refreshVariable new).Commented N :=
  h.mapTree fun _ hq => .intro hq.comments hq.nested

end

theorem commented_withMembers (hN : Text.Hereditary N) {c : Context} {ts : List Token}
    {parent : Option String} {r' : RecordDecl} (hts : ∀ t ∈ ts, N t.chars)
    (hr : r.Unread ts parent) (h : r.withMembers c = .ok r') : r'.Commented N := by
  refine nested_induction (T := fun ts => ∀ t ∈ ts, N t.chars)
    (fun ts hts t ht st hst u hu => ?_) (fun ts parent r r' hts hr hfront hnested => ?_) hts hr h
  · refine hN t.chars u.chars ?_ (hts t ht)
    exact (Statement.isPiece_of_mem_scan hst u hu).trans (Text.interior_isPiece t.chars)
  · refine .intro ⟨fun t ht => hts t ?_, fun t ht => hts t ?_⟩ fun n hn => (hnested n hn).2.2
    · exact hr.preComment t (hfront.preComment ▸ ht)
    · exact hr.postComment t (hfront.postComment ▸ ht)

end RecordDecl

/-! ## What a thing says of itself -/

namespace Visibility

/-- What a thing itself says about its privacy. -/
def saidPrivacy (w : Workspace) (thing : Details) : Option Bool :=
  (annotationOf? thing).map Annotation.isPrivate <|>
    (nameForm? w thing.name.value).map NameForm.isPrivate

/-- The module that the form of a name gives. -/
def namedModule (w : Workspace) (form : Option NameForm) : Option String :=
  (form.bind NameForm.word).bind fun word =>
    if word.isEmpty then none else some ((w.sourceAliases.find? word).getD word)

variable (w : Workspace) (thing : Details) (isPrivate : Option Bool) (moduleName : String)

theorem moduleByName_eq (form : Option NameForm) (moduleName : String) :
    moduleByName w form moduleName = (namedModule w form).getD moduleName := by
  unfold moduleByName namedModule
  cases form.bind NameForm.word with
  | none => rfl
  | some word =>
    rw [Option.bind_some]
    dsimp only
    split <;> rfl

/-- The module that a thing itself names.  An annotation counts even if it names none. -/
def saidModule (w : Workspace) (thing : Details) : Option String :=
  match annotationOf? thing with
  | some a => a.moduleName
  | none => namedModule w (nameForm? w thing.name.value)

theorem verdict_nested : verdict w thing isPrivate moduleName true =
      ⟨saidPrivacy w thing <|> isPrivate, (saidModule w thing).getD moduleName⟩ := by
  unfold verdict saidPrivacy saidModule
  cases annotationOf? thing with
  | some a => rfl
  | none =>
    dsimp only
    rw [moduleByName_eq]
    cases nameForm? w thing.name.value with
    | none => simp [namedModule]
    | some form => rfl

theorem verdict_top : verdict w thing isPrivate moduleName false =
      ⟨saidPrivacy w thing <|> isPrivate,
        if (annotationOf? thing).isSome ∨ moduleName = "" then (saidModule w thing).getD moduleName
        else moduleName⟩ := by
  unfold verdict saidPrivacy saidModule
  cases annotationOf? thing with
  | some a => simp
  | none =>
    dsimp only
    rw [moduleByName_eq]
    simp

/-! ## Annotations -/

variable {s : List Char} {moduleName : String} {a : Annotation}

/-- Somewhere in the text an annotation names the module. -/
def Names (moduleName : String) (s : List Char) : Prop :=
  ∃ word ∈ ["#public", "#private"], (word ++ "(" ++ moduleName ++ ")").toList <:+: s

/-- All modules that annotations name have a property. -/
def NamesOnly (K : String → Prop) (s : List Char) : Prop :=
  ∀ moduleName, Names moduleName s → K moduleName

theorem hereditary_namesOnly (K : String → Prop) : Text.Hereditary (NamesOnly K) := by
  rintro s piece hpiece h moduleName ⟨word, hword, hmark⟩
  exact h moduleName ⟨word, hword, hmark.trans hpiece⟩

theorem exists_of_moduleInParens (h : moduleInParens s = some moduleName) :
    ∃ rest, s = '(' :: (moduleName.toList ++ ')' :: rest) := by
  unfold moduleInParens at h
  split at h
  · rename_i rest
    dsimp only at h
    split at h
    · rename_i hclosed
      cases h
      obtain ⟨-, hclosed⟩ := Bool.and_eq_true_iff.mp hclosed
      obtain ⟨tail, htail⟩ := head?_eq_some_iff.mp (eq_of_beq hclosed)
      have hword : rest.takeWhile Text.isWordChar <+: rest := takeWhile_prefix _
      refine ⟨tail, ?_⟩
      rw [String.toList_ofList, ← htail, prefix_iff_eq_append.mp hword]
    · cases h
  · cases h

theorem mark_of_annotationAt? (h : annotationAt? s = some a)
    (hmodule : a.moduleName = some moduleName) :
    ∃ word ∈ ["#public", "#private"], (word ++ "(" ++ moduleName ++ ")").toList <+: s := by
  -- both words are read alike
  have hread : ∀ (word : String) (isPrivate : Bool),
      (if word.toList.isPrefixOf s && !Text.wordAt (s.drop word.toList.length).head? then
        some ⟨isPrivate, moduleInParens (s.drop word.toList.length)⟩ else none) = some a →
      (word ++ "(" ++ moduleName ++ ")").toList <+: s := by
    intro word isPrivate hword
    split at hword
    · rename_i hcond
      cases hword
      obtain ⟨rest, hrest⟩ := exists_of_moduleInParens hmodule
      have hlead := isPrefixOf_iff_prefix.mp (Bool.and_eq_true_iff.mp hcond).1
      refine ⟨rest, ?_⟩
      rw [← prefix_iff_eq_append.mp hlead, hrest]
      simp
    · cases hword
  unfold annotationAt? at h
  dsimp only at h
  split at h
  · rename_i a' hpublic
    cases h
    exact ⟨"#public", mem_cons_self, hread "#public" false hpublic⟩
  · exact ⟨"#private", mem_cons_of_mem _ mem_cons_self, hread "#private" true h⟩

theorem names_of_annotation? (h : annotation? s = some a)
    (hmodule : a.moduleName = some moduleName) : Names moduleName s := by
  induction s with
  | nil => cases h
  | cons x s ih =>
    unfold annotation? at h
    split at h
    · rename_i a' hfront
      cases h
      obtain ⟨word, hword, hmark⟩ := mark_of_annotationAt? hfront hmodule
      exact ⟨word, hword, hmark.isInfix⟩
    · obtain ⟨word, hword, hmark⟩ := ih h
      exact ⟨word, hword, hmark.trans (suffix_cons x s).isInfix⟩

theorem annotated_of_comments {K : String → Prop} {thing : Details}
    (hthing : thing.Comments (NamesOnly K)) (h : annotationOf? thing = some a) :
    ∀ moduleName, a.moduleName = some moduleName → K moduleName := by
  intro moduleName hmodule
  rw [annotationOf?, Option.orElse_eq_orElse, Option.orElse_eq_or, Option.or_eq_some_iff] at h
  rcases h with h | ⟨-, h⟩
  · obtain ⟨t, ht, h⟩ := Option.bind_eq_some_iff.mp h
    exact hthing.1 t ht moduleName (names_of_annotation? h hmodule)
  · obtain ⟨t, ht, h⟩ := Option.bind_eq_some_iff.mp h
    exact hthing.2 t ht moduleName (names_of_annotation? h hmodule)

end Visibility

/-! ## Names and files -/

/-- The name of no module or of one of a list. -/
def Module.Known (ms : List Module) (name : String) : Prop := name = "" ∨ ∃ m ∈ ms, m.name = name

namespace Workspace

open Visibility

variable {w : Workspace} {ms : List Module} {K : String → Prop}
variable {moduleName : String} {thing : Details}

/-- The form of a name leads to a known module. -/
theorem Lists.known_namedModule (hw : w.Lists ms) {name : String}
    (h : namedModule w (nameForm? w name) = some moduleName) : Module.Known ms moduleName := by
  obtain ⟨word, hword, h⟩ := Option.bind_eq_some_iff.mp h
  obtain ⟨form, hform, hword⟩ := Option.bind_eq_some_iff.mp hword
  have hmem : word ∈ w.sourceNames := by
    obtain ⟨lead, -, hlead⟩ := exists_of_findSome?_eq_some hform
    dsimp only at hlead
    split at hlead
    · cases hlead
      exact ((Table.foldl_longest _ _ hword).1 _ rfl).1
    · cases hlead
  split at h
  · cases h
  · cases h
    cases halias : w.sourceAliases.find? word with
    | some owner =>
      obtain ⟨m, hm, -, rfl⟩ := (hw.sourceAliases word owner).mp halias
      exact .inr ⟨m, hm, rfl⟩
    | none =>
      rcases mem_append.mp hmem with hmem | hmem
      · obtain ⟨m, hfind⟩ := Option.ne_none_iff_exists'.mp (Table.mem_keys_iff.mp hmem)
        obtain ⟨hm, hname⟩ := (hw.modules word m).mp hfind
        exact .inr ⟨m, hm, hname⟩
      · exact absurd halias (Table.mem_keys_iff.mp hmem)

theorem Lists.known_moduleOfFile (hw : w.Lists ms) (path : String) :
    Module.Known ms (w.moduleOfFile path) := by
  unfold moduleOfFile
  dsimp only
  split
  · rename_i hcond
    have hcontains := (Bool.and_eq_true_iff.mp hcond).2
    rw [Table.contains_eq] at hcontains
    obtain ⟨m, hfind⟩ := Option.isSome_iff_exists.mp hcontains
    obtain ⟨hm, hname⟩ := (hw.modules _ m).mp hfind
    exact .inr ⟨m, hm, hname⟩
  · exact .inl rfl

/-- The modules to which names and files lead have some property, and so has no module. -/
structure Covers (K : String → Prop) (w : Workspace) : Prop where
  none : K ""
  named : ∀ name moduleName, namedModule w (nameForm? w name) = some moduleName → K moduleName
  file : ∀ path, K (w.moduleOfFile path)

theorem Lists.covers (hw : w.Lists ms) (hK : ∀ name, Module.Known ms name → K name) :
    w.Covers K where
  none := hK "" (.inl rfl)
  named := fun _ _ h => hK _ (hw.known_namedModule h)
  file := fun path => hK _ (hw.known_moduleOfFile path)

/-- A verdict leads to covered modules. -/
theorem Covers.verdict (hw : w.Covers K)
    (hthing : ∀ a, annotationOf? thing = some a → ∀ moduleName, a.moduleName = some moduleName →
      K moduleName) (h : K moduleName) (isPrivate : Option Bool) (isNested : Bool) :
    K (verdict w thing isPrivate moduleName isNested).moduleName := by
  have hsaid : K ((saidModule w thing).getD moduleName) := by
    cases hsaid : saidModule w thing with
    | none => exact h
    | some said =>
      unfold saidModule at hsaid
      split at hsaid
      · rename_i a ha
        exact hthing a ha said hsaid
      · exact hw.named _ said hsaid
  cases isNested with
  | true =>
    rwa [verdict_nested]
  | false =>
    rw [verdict_top]
    split
    · exact hsaid
    · exact h

theorem Lists.known_verdict_iff (hw : w.Lists ms) (h : Module.Known ms moduleName)
    (isPrivate : Option Bool) (isNested : Bool) :
    Module.Known ms (verdict w thing isPrivate moduleName isNested).moduleName ↔
      ∀ a, annotationOf? thing = some a → ∀ named, a.moduleName = some named →
        Module.Known ms named := by
  constructor
  · intro hverdict a ha named hnamed
    rw [Visibility.verdict, ha] at hverdict
    dsimp only at hverdict
    rwa [hnamed] at hverdict
  · intro hthing
    exact (hw.covers fun _ hname => hname).verdict hthing h isPrivate isNested

end Workspace

end CBoundary
