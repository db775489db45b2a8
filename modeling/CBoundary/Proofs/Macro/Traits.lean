import CBoundary.Macro.Expand
import CBoundary.Proofs.Table

/-!
# What a macro tells

Tokens and gaps together make up a replacement text.  Three walks over the tokens, each with a state
of its own, tell of the gaps; they agree.  Of a macro, expansion sees the name, the parameters, the
replacement text and what that text tells.
-/

namespace CBoundary

open List

namespace Lex.Replacement

variable {pos : Nat} {s : List Char} {ls : List Lexeme} {gs : List (List Char)}

/-! ## The walks over the tokens -/

/-- What was found before stays in front. -/
theorem gapsFrom_eq_append (s : List Char) (offset : Nat) (found : List (List Char))
    (ls : List Lexeme) :
    gapsFrom s offset found ls = found ++ gapsFrom s offset [] ls := by
  induction ls generalizing offset found with
  | nil =>
    simp only [gapsFrom]
    split
    · rfl
    · exact (append_nil found).symm
  | cons l ls ih =>
    simp only [gapsFrom]
    split
    · rw [ih, ih _ ([] ++ _), nil_append, append_assoc]
    · exact ih _ _

theorem gapsFrom_cons_of_ne {l : Lexeme} (h : l.start ≠ pos) :
    gapsFrom s pos [] (l :: ls) =
      (s.take l.start).drop pos :: gapsFrom s l.stop [] ls := by
  rw [gapsFrom, if_pos (bne_iff_ne.mpr h), gapsFrom_eq_append]
  rfl

theorem gapsFrom_cons_of_eq {l : Lexeme} (h : l.start = pos) :
    gapsFrom s pos [] (l :: ls) = gapsFrom s l.stop [] ls := by
  rw [gapsFrom, if_neg (by simp [h])]

/-- The walk that stops at the first gap tells whether the one that gathers them finds any. -/
theorem isWellformedFrom_eq_isEmpty (s : List Char) (offset : Nat) (ls : List Lexeme) :
    isWellformedFrom s offset ls = (gapsFrom s offset [] ls).isEmpty := by
  induction ls generalizing offset with
  | nil =>
    rw [isWellformedFrom, gapsFrom]
    by_cases h : offset = s.length <;> simp [h]
  | cons l ls ih =>
    by_cases h : l.start = offset
    · rw [gapsFrom_cons_of_eq h, ← ih, isWellformedFrom, if_neg (by simp [h])]
    · rw [gapsFrom_cons_of_ne h, isWellformedFrom, if_pos (bne_iff_ne.mpr h), isEmpty_cons]

theorem isWellformed_eq_isEmpty (s : List Char) : isWellformed s = (gaps s).isEmpty :=
  isWellformedFrom_eq_isEmpty s 0 (scan s)

/-! ## Tokens and gaps -/

/-- Tokens and gaps, in order of position, make up a text. A gap is not empty, and goes on up to the
next token or the end. -/
inductive Interleaves : Nat → List Char → List Lexeme → List (List Char) → Prop where
  | nil {pos : Nat} : Interleaves pos [] [] []
  | last {pos : Nat} {g : List Char} (hne : g ≠ []) : Interleaves pos g [] [g]
  | token {l : Lexeme} {s : List Char} {ls : List Lexeme} {gs : List (List Char)}
      (hne : l.chars ≠ []) (rest : Interleaves l.stop s ls gs) :
      Interleaves l.start (l.chars ++ s) (l :: ls) gs
  | gap {pos : Nat} {g s : List Char} {l : Lexeme} {ls : List Lexeme} {gs : List (List Char)}
      (hne : g ≠ []) (hnext : l.start = pos + g.length)
      (rest : Interleaves l.start s (l :: ls) gs) : Interleaves pos (g ++ s) (l :: ls) (g :: gs)

theorem table_cons (c : Char) (cs : List Char) :
    ∃ r, table (c :: cs) = r :: table cs ∧ ∀ n ∈ r.tokens, 0 < n := by
  refine ⟨_, rfl, fun n hn => Nat.pos_of_ne_zero ?_⟩
  simpa using (mem_filter.mp hn).2

/-- A piece in which no token was found is a gap, unless there is nothing in it. -/
theorem Interleaves.behind {front g : List Char} {l : Lexeme}
    (hstart : l.start = front.length + g.length)
    (h : Interleaves l.start s (l :: ls) (gapsFrom (front ++ (g ++ s)) l.stop [] ls)) :
    Interleaves front.length (g ++ s) (l :: ls)
      (gapsFrom (front ++ (g ++ s)) front.length [] (l :: ls)) := by
  by_cases hg : g = []
  · subst hg
    rw [length_nil, Nat.add_zero] at hstart
    rwa [gapsFrom_cons_of_eq hstart, ← hstart]
  · have hpos := length_pos_iff.mpr hg
    have hgap : ((front ++ (g ++ s)).take l.start).drop front.length = g := by
      rw [hstart, ← length_append, ← append_assoc, take_left, drop_left]
    rw [gapsFrom_cons_of_ne (by omega), hgap]
    exact .gap hg hstart h

/-- Behind a piece without tokens, the next tokens and the gaps interleave. -/
theorem interleaves_walk (start skip : Nat) (front g s : List Char)
    (h : front.length + g.length = start + min skip s.length) :
    Interleaves front.length (g ++ s.drop skip) (walk start skip s (table s))
      (gapsFrom (front ++ (g ++ s.drop skip)) front.length [] (walk start skip s (table s))) := by
  induction s generalizing start skip front g with
  | nil =>
    rw [drop_nil, append_nil]
    cases g with
    | nil => simpa [walk, table, gapsFrom] using Interleaves.nil
    | cons c g => simpa [walk, table, gapsFrom] using Interleaves.last (cons_ne_nil c g)
  | cons c cs ih =>
    obtain ⟨r, htable, htokens⟩ := table_cons c cs
    rw [length_cons] at h
    rw [htable]
    cases skip with
    | succ k => exact ih (start + 1) k front g (by omega)
    | zero =>
      rw [drop_zero, walk]
      cases hhead : r.tokens.head? with
      | none =>
        have hnext := ih (start + 1) 0 front (g ++ [c])
          (by rw [length_append, length_singleton]; omega)
        rwa [append_assoc, drop_zero, singleton_append] at hnext
      | some n =>
        obtain ⟨n, rfl⟩ := Nat.exists_eq_succ_of_ne_zero
          (Nat.ne_of_gt (htokens n (mem_of_head? hhead)))
        have hstart : start = front.length + g.length := by omega
        have hsplit : c :: cs = (c :: cs.take n) ++ cs.drop n := by
          rw [cons_append, take_append_drop]
        have hrest := ih (start + 1) n (front ++ g ++ (c :: cs.take n)) [] (by
          simp only [length_append, length_cons, length_take, length_nil]
          omega)
        rw [nil_append, append_assoc, append_assoc, append_assoc, ← hsplit, ← append_assoc front,
          length_append, length_append, ← hstart] at hrest
        have htoken := Interleaves.token (l := ⟨start, c :: cs.take n⟩) (cons_ne_nil _ _) hrest
        rw [← hsplit] at htoken
        exact htoken.behind hstart

theorem Interleaves.ne_nil (h : Interleaves pos s ls gs) : ∀ g ∈ gs, g ≠ [] := by
  induction h with
  | nil => simp
  | last hne => simpa using hne
  | token _ _ ih => exact ih
  | gap hne _ _ ih => simpa [hne] using ih

theorem Interleaves.length_eq (h : Interleaves pos s ls gs) :
    s.length = (ls.map Lexeme.chars).flatten.length + gs.flatten.length := by
  induction h with
  | nil => rfl
  | last _ => simp
  | token _ _ ih => simp only [map_cons, flatten_cons, length_append, ih]; omega
  | gap _ _ _ ih => simp only [flatten_cons, length_append, ih]; omega

theorem Interleaves.flatten_eq (h : Interleaves pos s ls []) :
    (ls.map Lexeme.chars).flatten = s := by
  generalize hgs : ([] : List (List Char)) = gs at h
  induction h with
  | nil => rfl
  | last _ => cases hgs
  | token _ _ ih => rw [map_cons, flatten_cons, ih hgs]
  | gap _ _ _ _ => cases hgs

theorem Interleaves.flatten_eq_nil_iff (h : Interleaves pos s ls gs) :
    gs.flatten = [] ↔ gs = [] := by
  constructor
  · intro hflat
    cases gs with
    | nil => rfl
    | cons g gs => exact absurd (append_eq_nil_iff.mp hflat).1 (h.ne_nil g mem_cons_self)
  · rintro rfl
    rfl

theorem interleaves_scan (s : List Char) : Interleaves 0 s (scan s) (gaps s) := by
  exact interleaves_walk 0 0 [] [] s (by simp)

theorem isWellformed_iff_flatten (s : List Char) :
    isWellformed s = true ↔ ((scan s).map Lexeme.chars).flatten = s := by
  have h := interleaves_scan s
  rw [isWellformed_eq_isEmpty, List.isEmpty_iff]
  constructor
  · intro hgaps
    rw [hgaps] at h
    exact h.flatten_eq
  · intro htokens
    have hlength := h.length_eq
    rw [htokens] at hlength
    exact h.flatten_eq_nil_iff.mp (eq_nil_of_length_eq_zero (by omega))

end Lex.Replacement

namespace MacroDecl

open Lex.Replacement

/-! ## Macros that are looked at -/

/-- One more token moves the offset and adds the gap before it, whatever else is learned. -/
theorem Reading.next_gaps (body : Token) (r : Reading) (l : Lex.Lexeme) :
    (r.next body l).offset = l.stop ∧ (r.next body l).gaps =
      if l.start != r.offset then r.gaps ++ [(body.chars.take l.start).drop r.offset] else r.gaps := by
  unfold next
  generalize (if l.start != r.offset then _ else r.gaps) = gaps
  dsimp only
  split
  · exact ⟨rfl, rfl⟩
  · exact ⟨rfl, rfl⟩

/-- The walk that also looks for a constant finds the same gaps as the one that does nothing else.
-/
theorem Reading.gaps_foldl (body : Token) (r : Reading) (ls : List Lex.Lexeme) :
    ((ls.foldl (next body) r).finish body).gaps =
      gapsFrom body.chars r.offset r.gaps ls := by
  induction ls generalizing r with
  | nil =>
    rw [foldl_nil, finish, gapsFrom]
    split
    · rfl
    · rfl
  | cons l ls ih =>
    obtain ⟨hoffset, hgaps⟩ := next_gaps body r l
    rw [foldl_cons, ih, hoffset, hgaps, gapsFrom]

/-- The replacement text of a macro; a macro without one has an empty one. -/
def bodyChars (m : MacroDecl) : List Char := (m.body.map Token.chars).getD []

variable {m : MacroDecl}

/-- What is learned when a macro is looked at for the first time. -/
theorem examined_gaps (h : m.isConst? = none) :
    m.examined.isWellformed = (gaps m.bodyChars).isEmpty ∧
      m.examined.unbalanced? = some (String.ofList (gaps m.bodyChars).flatten) := by
  unfold examined bodyChars
  rw [h, if_neg (by decide)]
  cases m.body with
  | none => exact ⟨rfl, rfl⟩
  | some body =>
    dsimp only
    rw [Reading.gaps_foldl]
    exact ⟨rfl, rfl⟩

/-- Once a macro was looked at, it is known whether it is a constant. -/
theorem isSome_examined_isConst? (m : MacroDecl) : m.examined.isConst?.isSome = true := by
  unfold examined
  split
  · assumption
  · cases m.body with
    | none => rfl
    | some body =>
      dsimp only
      split
      · cases Reading.isConst? _ <;> rfl
      · rfl

theorem examined_examined (m : MacroDecl) : m.examined.examined = m.examined := by
  rw [examined, if_pos (isSome_examined_isConst? m)]

/-- A look changes only what is known of the replacement text. -/
theorem examined_frame (m : MacroDecl) : m.examined.body = m.body ∧ m.examined.args = m.args ∧
    m.examined.isVariadic = m.isVariadic := by
  unfold examined
  split
  · exact ⟨rfl, rfl, rfl⟩
  · cases m.body with
    | none => exact ⟨rfl, rfl, rfl⟩
    | some body => exact ⟨rfl, rfl, rfl⟩

theorem examined_uncommented (m : MacroDecl) :
    { m with preComment := none }.examined = { m.examined with preComment := none } := by
  unfold examined
  split
  · rfl
  · cases m.body with
    | none => rfl
    | some body => rfl

/-- A text with a gap is no constant, whatever its tokens up to the gap say. -/
theorem isWellformed_of_examined_isConst? (h : m.isConst? = none)
    (hconst : m.examined.isConst? = some true) : m.examined.isWellformed = true := by
  unfold examined at hconst ⊢
  rw [h, if_neg (by decide)] at hconst ⊢
  cases hbody : m.body with
  | none => rfl
  | some body =>
    rw [hbody] at hconst
    dsimp only at hconst ⊢
    split at hconst
    · assumption
    · cases hconst

/-- **What a macro learns of its replacement text agrees with the text.** The walk that looks at a
macro finds it well formed exactly if the one that stops at the first gap does, and puts together
the gaps that a third one gathers. There are none exactly in a well-formed text, which its tokens
make up. Only such a text is constant. Tokens and gaps together are the text. Looking again tells
nothing new. -/
theorem examined_agrees (m : MacroDecl) (hfresh : m.isConst? = none) :
    m.examined.isWellformed = Lex.Replacement.isWellformed m.bodyChars ∧
      m.examined.unbalanced? = some (String.ofList (gaps m.bodyChars).flatten) ∧
      (m.examined.isWellformed = true ↔ m.examined.unbalanced? = some "") ∧
      (m.examined.isWellformed = true ↔
        ((scan m.bodyChars).map Lex.Lexeme.chars).flatten = m.bodyChars) ∧
      (m.examined.isConst? = some true → m.examined.isWellformed = true) ∧
      Interleaves 0 m.bodyChars (scan m.bodyChars) (gaps m.bodyChars) ∧
      (∃ b, m.examined.isConst? = some b) ∧ m.examined.examined = m.examined := by
  obtain ⟨hwell, hgaps⟩ := examined_gaps hfresh
  have hpieces := interleaves_scan m.bodyChars
  rw [← isWellformed_eq_isEmpty] at hwell
  refine ⟨hwell, hgaps, ?_, ?_, isWellformed_of_examined_isConst? hfresh, hpieces,
    Option.isSome_iff_exists.mp (isSome_examined_isConst? m), examined_examined m⟩
  · rw [hwell, hgaps, isWellformed_eq_isEmpty, List.isEmpty_iff, ← hpieces.flatten_eq_nil_iff,
      Option.some_inj, ← String.toList_eq_nil_iff, String.toList_ofList]
  · rw [hwell, isWellformed_iff_flatten]

/-- A closer without its opener is a gap between tokens. The number in front does not make the text
a constant. -/
theorem examined_agrees_closer :
    ∃ m : MacroDecl, m.isConst? = none ∧ m.bodyChars = "1 + f(x) ) + [".toList ∧
      m.examined.unbalanced? = some ")[" ∧ m.examined.isWellformed = false ∧
      m.examined.isConst? = some false ∧
      Interleaves 0 m.bodyChars (scan m.bodyChars) [[')'], ['[']] := by
  let m : MacroDecl := { name := .empty, body := some ⟨0, ⟨0, 14⟩, "1 + f(x) ) + [", none⟩ }
  have hgaps : gaps m.bodyChars = [[')'], ['[']] := by decide +kernel
  obtain ⟨-, hunbalanced, hiff, -, hconst, hpieces, ⟨b, hb⟩, -⟩ := examined_agrees m rfl
  rw [hgaps] at hunbalanced hpieces
  have hill : m.examined.isWellformed = false := by
    rw [← Bool.not_eq_true, hiff, hunbalanced]
    decide
  refine ⟨m, rfl, rfl, hunbalanced, hill, ?_, hpieces⟩
  cases b with
  | false => exact hb
  | true => rw [hconst hb] at hill; cases hill

end MacroDecl

/-! ## What expansion sees -/

/-- The macro as expansion sees it: without its comment, and looked at. -/
def MacroDecl.bare (m : MacroDecl) : MacroDecl :=
  { m with preComment := none }.examined

theorem MacroDecl.bare_examined (m : MacroDecl) : m.examined.bare = m.bare := by
  rw [bare, ← examined_uncommented, examined_examined, bare]

theorem MacroDecl.traits_bare (m : MacroDecl) : m.bare.traits = m.traits := by
  rw [traits, bare, examined_examined, examined_uncommented]
  rfl

namespace Macro

/-- The expander with bare macros. -/
def Expander.bare (e : Expander) : Expander :=
  { e with macros := e.macros.mapValues MacroDecl.bare }

/-! ## One replacement

A replacement is made of the expansions of the arguments and of the replacement
text.  Set apart from the recursion, these two are parameters. -/

/-- Expands a text from an offset on. -/
abbrev Expansion : Type := Int → List Char → Trace → List Char × Trace

/-- A replacement that is complete. -/
def Frame.leave (f : Frame) (name : String) (text : List Char) (t : Trace) : List Char × Trace :=
  (text, t.add (.at_ .debug5 .unknown (.expanded (f.expanding ++ [name]) (String.ofList text))))

/-- The arguments, expanded if shorter than the text. -/
def expandArguments (expandOne : Expansion) (base : Int) (size : Nat)
    (raw : Table (List Char × Int)) (t : Trace) : List (String × Argument) × Trace :=
  raw.entries.foldl (fun (acc : List (String × Argument) × Trace) entry =>
    if entry.2.1.length < size then
      (acc.1 ++ [(entry.1, ⟨entry.2.1, (expandOne (base + entry.2.2) entry.2.1 acc.2).1⟩)],
        (expandOne (base + entry.2.2) entry.2.1 acc.2).2)
    else (acc.1 ++ [(entry.1, ⟨entry.2.1, entry.2.1⟩)], acc.2)) ([], t)

/-- What replaces a known macro not in use. -/
def replacementBy (place : Int → Place) (expandBody expandOne : Expansion) (f : Frame) (base : Int)
    (pos : Nat) (s : List Char) (name : String) (n : Nat) (call : Option (Nat × List Char))
    (m : MacroDecl) (t : Trace) : List Char × Trace :=
  match m.body, call with
  | none, _ => f.leave name [] t
  | some body, none =>
    f.leave name (expandBody base body.chars t).1 (expandBody base body.chars t).2
  | some body, some (start, inside) =>
    let params := m.args.getD []
    let args := splitArguments params.length m.isVariadic [[]]
      (Token.scan inside (base + pos + start))
    if args.length < params.length then
      f.leave name (s.take n) (t.add (.of .macroExpand (place (base + pos))
        (.tooFewArguments name args.length params.length)))
    else
      let raw : Table (List Char × Int) :=
        Table.ofList ((params.map Token.value).zip (args.map argumentText))
      let expanded := expandArguments expandOne base s.length raw t
      let substituted :=
        if params.isEmpty then body.chars else substitute ⟨expanded.1⟩ none body.chars
      f.leave name (expandBody (base + pos) substituted expanded.2).1
        (expandBody (base + pos) substituted expanded.2).2

theorem replacement_eq (e : Expander) (f : Frame) (base : Int) (pos : Nat) (s : List Char)
    (name : String) (n : Nat) (call : Option (Nat × List Char)) (t : Trace) :
    replacement e f base pos s name n call t =
      if f.inUse.contains name then f.leave name (s.take n) (t.enter f.owners name)
      else
        match e.macros.find? name with
        | none => f.leave name (s.take n) (t.enter f.owners name)
        | some m =>
          replacementBy e.place (fun base => fragment e (f.enter name) base none 0)
            (fun base => fragment e (f.enterArguments name) base none 0)
            f base pos s name n call m (t.enter f.owners name) := by
  rw [replacement]
  split
  · rename_i hu
    rw [if_pos hu]
    rfl
  · rename_i hu
    rw [hu, if_neg Bool.false_ne_true]
    split
    · rename_i hm
      rw [hm]
      rfl
    · rename_i m hm
      rw [hm]
      show _ = replacementBy _ _ _ _ _ _ _ _ _ _ _ _
      unfold replacementBy
      cases m.body with
      | none => rfl
      | some body =>
        cases call <;> rfl

theorem replacementBy_bare {place : Int → Place}
    {expandBody expandBody' expandOne expandOne' : Expansion} {f : Frame} {base : Int}
    {pos : Nat} {s : List Char} {name : String} {n : Nat} {call : Option (Nat × List Char)}
    {m : MacroDecl} {t : Trace} (hbody : ∀ base text t, expandBody' base text t = expandBody base text t)
    (hone : ∀ base text t, text.length < s.length →
      expandOne' base text t = expandOne base text t) :
    replacementBy place expandBody' expandOne' f base pos s name n call m.bare t =
      replacementBy place expandBody expandOne f base pos s name n call m t := by
  have hbody' : expandBody' = expandBody := by
    funext base text t
    exact hbody base text t
  have hargs : ∀ raw t, expandArguments expandOne' base s.length raw t =
      expandArguments expandOne base s.length raw t := by
    intro raw t
    refine congrArg (fun step => raw.entries.foldl step ([], t)) ?_
    funext acc entry
    split
    · rename_i hshort
      rw [hone _ _ _ hshort]
    · rfl
  obtain ⟨hb, ha, hv⟩ : m.bare.body = m.body ∧ m.bare.args = m.args ∧
      m.bare.isVariadic = m.isVariadic :=
    MacroDecl.examined_frame _
  subst hbody'
  unfold replacementBy
  simp only [hargs, hb, ha, hv]

/-! ## Expansion -/

/-- Something holds of all that expansion comes upon below a text. -/
structure Expander.Below (e : Expander) (P : Frame → List Char → Prop) (f : Frame) (s : List Char) :
    Prop where
  shorter : ∀ text : List Char, text.length < s.length → P f text
  argument : ∀ name (text : List Char), text.length < s.length → P (f.enterArguments name) text
  body : ∀ name, e.macros.find? name ≠ none → f.inUse.contains name = false →
    ∀ text, P (f.enter name) text

theorem Expander.below {P : Frame → List Char → Prop} (e : Expander) (h : ∀ f s, P f s)
    (f : Frame) (s : List Char) : e.Below P f s :=
  ⟨fun _ _ => h _ _, fun _ _ _ => h _ _, fun _ _ _ _ => h _ _⟩

/-- The recursion of the expansion itself. -/
theorem Expander.induction {P : Frame → List Char → Prop} (e : Expander)
    (step : ∀ f s, e.Below P f s → P f s) (f : Frame) (s : List Char) : P f s :=
  step f s ⟨fun text _hlt => e.induction step f text,
    fun name text _hlt => e.induction step (f.enterArguments name) text,
    fun name _hname _huse text => e.induction step (f.enter name) text⟩
termination_by (e.unused f.inUse, s.length)
decreasing_by
  · exact Prod.Lex.right _ _hlt
  · exact Prod.Lex.right _ _hlt
  · obtain ⟨m, hm⟩ := Option.ne_none_iff_exists'.mp _hname
    exact Prod.Lex.left _ _ (e.unused_cons_lt hm _huse)

theorem length_drop_cons_lt (c : Char) (cs : List Char) (n : Nat) :
    (cs.drop n).length < (c :: cs).length := by
  rw [length_drop, length_cons]
  omega

/-- A text is expanded alike by the bare macros. -/
def Expander.SameBare (e : Expander) (f : Frame) (s : List Char) : Prop :=
  ∀ base before pos t, fragment e.bare f base before pos s t = fragment e f base before pos s t

theorem Expander.Below.replacement_bare {e : Expander} {f : Frame} {s : List Char}
    (h : e.Below e.SameBare f s) (base : Int) (pos : Nat) (name : String) (n : Nat)
    (call : Option (Nat × List Char)) (t : Trace) :
    replacement e.bare f base pos s name n call t = replacement e f base pos s name n call t := by
  rw [replacement_eq, replacement_eq]
  cases hu : f.inUse.contains name with
  | true => rfl
  | false =>
    rw [Expander.bare, Table.find?_mapValues]
    cases hm : e.macros.find? name with
    | none => rfl
    | some m =>
      rw [if_neg Bool.false_ne_true, if_neg Bool.false_ne_true, Option.map_some]
      exact replacementBy_bare
        (fun base text => h.body name (Option.ne_none_iff_exists'.mpr ⟨m, hm⟩) hu text base none 0)
        fun base text t hshort => h.argument name text hshort base none 0 t

theorem Expander.sameBare (e : Expander) : ∀ f s, e.SameBare f s := by
  refine e.induction fun f s h base before pos t => ?_
  cases s with
  | nil => rw [fragment, fragment]
  | cons c cs =>
    have hrest (n : Nat) := h.shorter (cs.drop n) (length_drop_cons_lt c cs n)
    have hsite : e.bare.siteAt before (c :: cs) = e.siteAt before (c :: cs) := rfl
    rw [fragment, fragment, hsite]
    cases e.siteAt before (c :: cs) with
    | plain => rw [h.shorter cs (Nat.lt_succ_self _)]
    | verbatim n =>
      dsimp only
      rw [hrest]
    | use name n call =>
      dsimp only
      rw [h.replacement_bare, hrest]

theorem expandFrom_bare (e : Expander) (before : Option Char) (pos : Nat) (grown : Int)
    (s : List Char) (notes : Array Diagnostic) :
    expandFrom e.bare before pos grown s notes = expandFrom e before pos grown s notes := by
  fun_induction expandFrom e before pos grown s notes with
  | case1 => rw [expandFrom]
  | case2 _ _ _ _ _ _ hsite _ ih | case3 _ _ _ _ _ _ _ hsite _ ih =>
    rw [expandFrom, show e.bare.siteAt _ _ = _ from hsite]
    dsimp only
    rw [ih]
  | case4 _ _ _ _ _ _ _ _ _ hsite _ _ hreplaced _ _ _ ih =>
    rw [expandFrom, show e.bare.siteAt _ _ = _ from hsite]
    dsimp only
    rw [(e.below e.sameBare _ _).replacement_bare, hreplaced, ih]

theorem expand_bare (macros : Table MacroDecl) (expandConst : Bool) (place : Int → Place)
    (s : List Char) :
    expand (macros.mapValues MacroDecl.bare) expandConst place s =
      expand macros expandConst place s := by
  have hmake : Expander.make (macros.mapValues MacroDecl.bare) expandConst place =
      (Expander.make macros expandConst place).bare := by
    unfold Expander.make Expander.bare Table.mapValues
    have hargs (m : MacroDecl) : m.bare.args = m.args := (MacroDecl.examined_frame _).2.1
    simp only [List.filter_map, List.map_map, Function.comp_def, MacroDecl.traits_bare, hargs]
  unfold expand
  rw [hmake]
  dsimp only
  rw [expandFrom_bare]
  rfl

end Macro

end CBoundary
