import CBoundary.Proofs.Token.Layers

/-!
# Tokens and balanced texts

If the flat leaves of a text reach its end and their brackets are properly nested, the text is one
run of fat tokens.  A token opens up into leaves: a block into its opener, the leaves of the tokens
inside and its closer, any other token into itself.
-/

namespace CBoundary.Lex

open List

variable {c : Char} {s : List Char} {start : Int}

/-! ## Flat leaves -/

/-- The rule for a bracket. -/
def bracket : Rule
  | c :: _ => if isBracket c then 1 else 0
  | [] => 0

/-- The leaves of the flat grammar, with brackets where blocks are tried. -/
def leaf : Rule := firstOf [note, literal, bracket, lineBreak, blanks, escape, operator, word]

/-- A leaf and where it starts. -/
structure Leaf where
  start : Int
  chars : List Char
  deriving DecidableEq, Repr

/-- The leaves of a text from left to right, if they reach its end. -/
def leaves? (start : Int) (s : List Char) : Option (List Leaf) :=
  match s with
  | [] => some []
  | c :: cs =>
    match leaf (c :: cs) with
    | 0 => none
    | n + 1 => (leaves? (start + (n + 1)) (cs.drop n)).map (⟨start, c :: cs.take n⟩ :: ·)
termination_by s.length

/-- The bracket that a leaf is. -/
def Leaf.bracket? (l : Leaf) : Option Char :=
  match l.chars with
  | [c] => if isBracket c then some c else none
  | _ => none

/-- The brackets among the leaves. -/
def bracketsOf (ls : List Leaf) : List Char := ls.filterMap Leaf.bracket?

/-- A properly nested word over the three kinds of brackets. -/
inductive Nested : List Char → Prop where
  | nil : Nested []
  | block {c d : Char} {w v : List Char} (hcloser : closerOf c = some d) (inside : Nested w)
      (after : Nested v) : Nested (c :: (w ++ d :: v))

/-! ## One leaf -/

theorem firstOf_append (rs qs : List Rule) (s : List Char) :
    firstOf (rs ++ qs) s = firstOf [firstOf rs, firstOf qs] s := by
  rw [firstOf_pair]
  induction rs with
  | nil => simp [firstOf]
  | cons r rs ih =>
    cases hr : r s with
    | zero => simpa [firstOf, hr] using ih
    | succ n => simp [firstOf, hr]

theorem leaf_of_isBracket (h : isBracket c = true) (cs : List Char) : leaf (c :: cs) = 1 := by
  have hearly : firstOf [note, literal] (c :: cs) = 0 := early_of_isBracket h cs
  have hsplit : leaf = firstOf ([note, literal] ++
      [bracket, lineBreak, blanks, escape, operator, word]) := rfl
  rw [hsplit, firstOf_append, firstOf_pair, hearly]
  simp [firstOf, bracket, h]

theorem leaf_of_not_isBracket (h : isBracket c = false) (cs : List Char) :
    leaf (c :: cs) = code.tokenLength (c :: cs) := by
  have hcloser : closerOf c = none := by
    simp only [isBracket, Bool.or_eq_false_iff, Option.isSome_eq_false_iff,
      Option.isNone_iff_eq_none] at h
    exact h.1
  have hsplit : leaf = firstOf ([note, literal] ++
      [bracket, lineBreak, blanks, escape, operator, word]) := rfl
  have hbracket : firstOf [bracket, lineBreak, blanks, escape, operator, word] (c :: cs) =
      code.late (c :: cs) := by
    rw [firstOf]
    simp [bracket, h, code]
  rw [hsplit, firstOf_append, Grammar.tokenLength_of_closerOf_eq_none hcloser,
    firstOf_pair (firstOf [note, literal]), firstOf_pair code.early, hbracket]
  rfl

theorem leaves?_nil (start : Int) : leaves? start [] = some [] := by
  rw [leaves?]

theorem leaves?_of_eq_zero {cs : List Char} (h : leaf (c :: cs) = 0) (start : Int) :
    leaves? start (c :: cs) = none := by
  rw [leaves?, h]

theorem leaves?_of_eq_succ {n : Nat} (h : leaf s = n + 1) (start : Int) : leaves? start s =
      (leaves? (start + (n + 1)) (s.drop (n + 1))).map (⟨start, s.take (n + 1)⟩ :: ·) := by
  cases s with
  | nil =>
    have hzero : leaf [] = 0 := by decide
    omega
  | cons c cs =>
    rw [leaves?, h]
    simp

theorem leaves?_of_isBracket (h : isBracket c = true) (cs : List Char) (start : Int) :
    leaves? start (c :: cs) = (leaves? (start + 1) cs).map (⟨start, [c]⟩ :: ·) := by
  rw [leaves?_of_eq_succ (leaf_of_isBracket h cs)]
  simp

@[simp] theorem bracketsOf_append (ls ms : List Leaf) :
    bracketsOf (ls ++ ms) = bracketsOf ls ++ bracketsOf ms := by
  simp [bracketsOf]

theorem bracketsOf_cons_of_isBracket (h : isBracket c = true) (start : Int) (ls : List Leaf) :
    bracketsOf (⟨start, [c]⟩ :: ls) = c :: bracketsOf ls := by
  simp [bracketsOf, Leaf.bracket?, h]

theorem bracketsOf_cons_of_not_isBracket (h : isBracket c = false) (cs : List Char) (start : Int)
    (ls : List Leaf) : bracketsOf (⟨start, c :: cs⟩ :: ls) = bracketsOf ls := by
  exact filterMap_cons_none (by cases cs <;> simp [Leaf.bracket?, h])

/-! ## Nested brackets make one run -/

theorem bracketsOf_of_tokenLength_eq_zero (h : code.tokenLength s = 0) {ls : List Leaf}
    (hls : leaves? start s = some ls) :
    (s = [] ∧ bracketsOf ls = []) ∨ ∃ c cs ls', s = c :: cs ∧ leaves? (start + 1) cs = some ls' ∧
        bracketsOf ls = c :: bracketsOf ls' := by
  cases s with
  | nil =>
    rw [leaves?_nil] at hls
    cases hls
    exact .inl ⟨rfl, rfl⟩
  | cons c cs =>
    cases hc : isBracket c with
    | false =>
      rw [leaves?_of_eq_zero (by rw [leaf_of_not_isBracket hc, h])] at hls
      cases hls
    | true =>
      rw [leaves?_of_isBracket hc, Option.map_eq_some_iff] at hls
      obtain ⟨ls', hls', rfl⟩ := hls
      exact .inr ⟨c, cs, ls', rfl, hls', bracketsOf_cons_of_isBracket hc start ls'⟩

/-- If the brackets of a text start with a nested word before a closer or the end, the first run of
fat tokens has the brackets of that word. The induction is on the length of the text: behind an
opener comes the word inside, the closer, and the word after it. -/
theorem bracketsOf_after_run {ls : List Leaf} {w z : List Char} (hls : leaves? start s = some ls)
    (hsplit : bracketsOf ls = w ++ z) (hw : Nested w) (hz : ∀ c ∈ z.head?, closerOf c = none) :
    ∃ start' ls', leaves? start' (s.drop (code.runLength s)) = some ls' ∧ bracketsOf ls' = z := by
  induction hsize : s.length using Nat.strongRecOn generalizing s start ls w z with
  | ind size ih =>
    subst hsize
    cases s with
    | nil =>
      rw [leaves?_nil] at hls
      cases hls
      obtain ⟨rfl, rfl⟩ := append_eq_nil_iff.mp hsplit.symm
      exact ⟨start, [], by simp [leaves?_nil], rfl⟩
    | cons c cs =>
      cases hc : isBracket c with
      | false =>
        -- a leaf that is no bracket is a fat token too
        cases hleaf : leaf (c :: cs) with
        | zero =>
          rw [leaves?_of_eq_zero hleaf] at hls
          cases hls
        | succ n =>
          have htoken : code.tokenLength (c :: cs) = n + 1 := by
            rw [← leaf_of_not_isBracket hc, hleaf]
          rw [leaves?_of_eq_succ hleaf, Option.map_eq_some_iff] at hls
          obtain ⟨ls', hls', rfl⟩ := hls
          rw [take_succ_cons, bracketsOf_cons_of_not_isBracket hc] at hsplit
          rw [Grammar.drop_runLength_of_eq_succ htoken]
          refine ih _ ?_ hls' hsplit hw hz rfl
          simp only [drop_succ_cons, length_drop, length_cons]
          omega
      | true =>
        rw [leaves?_of_isBracket hc, Option.map_eq_some_iff] at hls
        obtain ⟨ls', hls', rfl⟩ := hls
        rw [bracketsOf_cons_of_isBracket hc] at hsplit
        cases hw with
        | nil =>
          -- the bracket is a closer, and the run stops in front of it
          subst hsplit
          have hzero : code.tokenLength (c :: cs) = 0 :=
            Grammar.tokenLength_of_isBracket hc (hz c rfl) cs
          refine ⟨start, ⟨start, [c]⟩ :: ls', ?_, bracketsOf_cons_of_isBracket hc start ls'⟩
          rw [Grammar.runLength_of_eq_zero hzero, drop_zero, leaves?_of_isBracket hc, hls']
          rfl
        | @block _ d w₁ w₂ hcloser inside after =>
          rw [cons_append, append_assoc, cons_append, List.cons.injEq] at hsplit
          obtain ⟨rfl, hsplit⟩ := hsplit
          obtain ⟨start₁, ls₁, hls₁, hbrackets₁⟩ := ih cs.length (by simp) hls' hsplit inside
            (by simp [closerOf_closer hcloser]) rfl
          -- the run inside stops at the closer of the block
          have hstop := Grammar.tokenLength_drop_runLength code cs
          obtain ⟨_, hempty⟩ | ⟨c₁, rest, ls₂, hrest, hls₂, hbrackets₂⟩ :=
            bracketsOf_of_tokenLength_eq_zero hstop hls₁
          · rw [hempty] at hbrackets₁
            cases hbrackets₁
          · rw [hbrackets₂, List.cons.injEq] at hbrackets₁
            obtain ⟨rfl, hbrackets₁⟩ := hbrackets₁
            have hshorter : rest.length < (c :: cs).length := by
              have hlen := congrArg List.length hrest
              simp only [length_drop, length_cons] at hlen ⊢
              omega
            rw [Grammar.drop_runLength_block hcloser hrest]
            exact ih rest.length hshorter hls₂ hbrackets₁ after hz rfl

theorem runLength_of_nested {ls : List Leaf} (hls : leaves? start s = some ls)
    (h : Nested (bracketsOf ls)) : code.runLength s = s.length := by
  obtain ⟨start', ls', hls', hbrackets⟩ := bracketsOf_after_run (z := []) hls (by simp) h (by simp)
  have hstop := Grammar.tokenLength_drop_runLength code s
  obtain ⟨hnil, _⟩ | ⟨c, cs, ls₂, _, _, hcons⟩ := bracketsOf_of_tokenLength_eq_zero hstop hls'
  · have hle := (Grammar.lengths_le bounded_code_early bounded_code_late s).2
    have hlen := congrArg List.length hnil
    simp only [length_drop, length_nil] at hlen
    omega
  · rw [hbrackets] at hcons
    cases hcons

end CBoundary.Lex

namespace CBoundary

open List CBoundary.Lex

namespace Token

variable {t : Token} {base : Int} {d c : Char} {s cs inside rest : List Char} {n : Nat}

/-! ## Leaves of tokens -/

theorem length_lt_of_mem_scan_interior {u : Token} (h : u ∈ scan (Text.interior t.chars) base) :
    u.chars.length < t.chars.length := by
  obtain ⟨front, rear, hs, _, hne, _⟩ := found_of_mem_scan h
  have hpos := length_pos_iff.mpr hne
  have hlen := congrArg List.length hs
  simp only [Text.interior, length_dropLast, length_drop, length_append] at hlen
  omega

/-- The leaves into which a token opens up. -/
def leaves (t : Token) : List Leaf :=
  match t.closer? with
  | none => [⟨t.span.start, t.chars⟩]
  | some _ =>
    ⟨t.span.start, t.chars.take 1⟩ ::
      ((scan (Text.interior t.chars) (t.span.start + 1)).attach.flatMap (fun u => leaves u.1) ++
        [⟨t.span.stop - 1, t.chars.drop (t.chars.length - 1)⟩])
termination_by t.chars.length
decreasing_by exact length_lt_of_mem_scan_interior u.2

theorem leaves_of_closer? (h : t.closer? = some d) : leaves t = ⟨t.span.start, t.chars.take 1⟩ ::
      ((scan (Text.interior t.chars) (t.span.start + 1)).flatMap leaves ++
        [⟨t.span.stop - 1, t.chars.drop (t.chars.length - 1)⟩]) := by
  rw [leaves, h]
  simp

theorem leaves_idx (t : Token) (i : Nat) : leaves { t with idx := i } = leaves t := by
  rw [leaves, leaves]
  rfl

/-- The leaves of the first run. -/
def runLeaves (base : Int) (s : List Char) : List Leaf :=
  (scan (s.take (code.runLength s)) base).flatMap leaves

theorem runLeaves_of_eq_zero (h : code.tokenLength s = 0) (base : Int) :
    runLeaves base s = [] := by
  rw [runLeaves, Grammar.runLength_of_eq_zero h, take_zero, scan_nil, flatMap_nil]

theorem runLeaves_of_eq_succ (h : code.tokenLength s = n + 1) (base : Int) : runLeaves base s =
      leaves (ofFront s (n + 1) base) ++ runLeaves (base + (n + 1)) (s.drop (n + 1)) := by
  have hrun := Grammar.runLength_of_eq_succ h
  have hle := (Grammar.lengths_le bounded_code_early bounded_code_late s).2
  have hlen : (s.take (code.runLength s)).length = code.runLength s := by
    rw [length_take, Nat.min_eq_left hle]
  have hcut : code.tokenLength (s.take (code.runLength s)) = n + 1 := by
    have hsteady : code.tokenLength (s.take (code.runLength s) ++
        s.drop (code.runLength s)) = n + 1 := by
      rw [take_append_drop, h]
    rw [Grammar.tokenLength_cut (u := s.drop (code.runLength s)) (by omega) (by omega),
      hsteady]
  have hfront : ofFront (s.take (code.runLength s)) (n + 1) base = ofFront s (n + 1) base := by
    rw [ofFront, ofFront, take_take, Nat.min_eq_left (by omega)]
  rw [runLeaves, scan_of_eq_succ hcut, flatMap_cons, flatMap_map, hfront]
  simp only [leaves_idx]
  rw [runLeaves, drop_take, hrun, Nat.add_sub_cancel_left]

theorem runLeaves_leaf (hc : closerOf c = none) (h : code.tokenLength (c :: cs) = n + 1)
    (base : Int) :
    runLeaves base (c :: cs) =
      ⟨base, (c :: cs).take (n + 1)⟩ :: runLeaves (base + (n + 1)) ((c :: cs).drop (n + 1)) := by
  rw [runLeaves_of_eq_succ h, leaves, show closer? _ = none by simp [closer?, hc]]
  simp

theorem drop_block (c d : Char) (inside rest : List Char) :
    (c :: (inside ++ d :: rest)).drop (inside.length + 1 + 1) = rest := by
  rw [drop_succ_cons, drop_length_add_append, drop_succ_cons, drop_zero]

theorem runLeaves_block (hcloser : closerOf c = some d)
    (hinside : code.runLength (inside ++ d :: rest) = inside.length)
    (hblock : code.tokenLength (c :: (inside ++ d :: rest)) = inside.length + 2) (base : Int) :
    runLeaves base (c :: (inside ++ d :: rest)) =
      ⟨base, [c]⟩ :: (runLeaves (base + 1) (inside ++ d :: rest) ++
        ⟨base + 1 + inside.length, [d]⟩ :: runLeaves (base + 1 + inside.length + 1) rest) := by
  have htake : (c :: (inside ++ d :: rest)).take (inside.length + 1 + 1) =
      c :: (inside ++ [d]) := by
    rw [take_succ_cons, take_length_add_append, take_succ_cons, take_zero]
  have hlast : (c :: (inside ++ [d])).drop ((c :: (inside ++ [d])).length - 1) = [d] := by
    simp
  have hinterior : Text.interior (c :: (inside ++ [d])) = inside := by simp [Text.interior]
  have hrun : runLeaves (base + 1) (inside ++ d :: rest) =
      (scan inside (base + 1)).flatMap leaves := by
    rw [runLeaves, hinside, take_left]
  have hnext : base + ((inside.length : Int) + 1 + 1) = base + 1 + inside.length + 1 := by
    omega
  rw [runLeaves_of_eq_succ hblock, drop_block, hrun,
    leaves_of_closer? (d := d) (by simp [closer?, hcloser])]
  simp only [chars_ofFront, span_ofFront, htake, hlast, hinterior, hnext, Int.natCast_add,
    Int.natCast_one, Int.add_sub_cancel, take_succ_cons, take_zero, cons_append,
    append_assoc, nil_append]

/-! ## Flat leaves -/

/-- The flat leaves of a text are those of its first run, with nested brackets, and those behind it.
-/
structure FlatRun (base : Int) (s : List Char) : Prop where
  leaves?_eq : leaves? base s =
    (leaves? (base + code.runLength s) (s.drop (code.runLength s))).map
      (runLeaves base s ++ ·)
  nested : Nested (bracketsOf (runLeaves base s))

theorem flatRun_of_eq_zero (h : code.tokenLength s = 0) (base : Int) : FlatRun base s := by
  constructor
  · rw [runLeaves_of_eq_zero h, Grammar.runLength_of_eq_zero h]
    simp
  · rw [runLeaves_of_eq_zero h]
    exact .nil

theorem FlatRun.leaf (hc : closerOf c = none) (htoken : code.tokenLength (c :: cs) = n + 1)
    (h : FlatRun (base + (n + 1)) ((c :: cs).drop (n + 1))) : FlatRun base (c :: cs) := by
  have hbracket : isBracket c = false := by
    apply Bool.eq_false_iff.mpr
    intro hbracket
    rw [Grammar.tokenLength_of_isBracket hbracket hc] at htoken
    cases htoken
  constructor
  · have hleaf : Lex.leaf (c :: cs) = n + 1 := by rw [leaf_of_not_isBracket hbracket, htoken]
    have hplace : base + (n + 1) + (code.runLength ((c :: cs).drop (n + 1)) : Int) =
        base + (code.runLength (c :: cs) : Int) := by
      have hrun := Grammar.runLength_of_eq_succ htoken
      omega
    rw [runLeaves_leaf hc htoken, leaves?_of_eq_succ hleaf, h.leaves?_eq, hplace,
      Grammar.drop_runLength_of_eq_succ htoken]
    simp only [Option.map_map, Function.comp_def, cons_append]
  · rw [runLeaves_leaf hc htoken, take_succ_cons,
      bracketsOf_cons_of_not_isBracket hbracket]
    exact h.nested

theorem FlatRun.block (hcloser : closerOf c = some d)
    (hinside : code.runLength (inside ++ d :: rest) = inside.length)
    (hblock : code.tokenLength (c :: (inside ++ d :: rest)) = inside.length + 2)
    (hin : FlatRun (base + 1) (inside ++ d :: rest))
    (hafter : FlatRun (base + 1 + inside.length + 1) rest) :
    FlatRun base (c :: (inside ++ d :: rest)) := by
  have hc := isBracket_of_closerOf hcloser
  have hd := isBracket_of_openerOf (closerOf_eq_some_iff.mp hcloser)
  constructor
  · have hplace : base + (code.runLength (c :: (inside ++ d :: rest)) : Int) =
        base + 1 + (inside.length : Int) + 1 + (code.runLength rest : Int) := by
      have hrun := Grammar.runLength_of_eq_succ hblock
      rw [drop_block] at hrun
      omega
    rw [runLeaves_block hcloser hinside hblock, Grammar.drop_runLength_of_eq_succ hblock,
      drop_block, hplace, leaves?_of_isBracket hc, hin.leaves?_eq, hinside, drop_left,
      leaves?_of_isBracket hd, hafter.leaves?_eq]
    simp only [Option.map_map, Function.comp_def, cons_append, append_assoc]
  · rw [runLeaves_block hcloser hinside hblock, bracketsOf_cons_of_isBracket hc,
      bracketsOf_append, bracketsOf_cons_of_isBracket hd]
    exact .block hcloser hin.nested hafter.nested

/-- The induction is on the length of the text, along the run: a block is met before what it holds.
-/
theorem flatRun (base : Int) (s : List Char) : FlatRun base s := by
  induction hsize : s.length using Nat.strongRecOn generalizing s base with
  | ind size ih =>
    subst hsize
    cases htoken : code.tokenLength s with
    | zero => exact flatRun_of_eq_zero htoken base
    | succ n =>
      cases s with
      | nil => simp at htoken
      | cons c cs =>
        cases hcloser : closerOf c with
        | none =>
          refine .leaf hcloser htoken (ih _ ?_ _ _ rfl)
          simp only [drop_succ_cons, length_drop, length_cons]
          omega
        | some d =>
          have hpos : 0 < code.tokenLength (c :: cs) := by omega
          obtain ⟨inside, rest, rfl, hinside, hblock⟩ :=
            Grammar.block_of_tokenLength hcloser hpos
          refine .block hcloser hinside hblock (ih _ ?_ _ _ rfl) (ih _ ?_ _ _ rfl)
          · simp
          · simp only [length_cons, length_append]
            omega

/-- The tokens of a text cover it exactly when its flat leaves reach the end with nested brackets,
and then open up into these leaves. -/
theorem tile_scan_iff_nested (s : List Char) (base : Int) :
    (Span.Tile base (base + s.length) ((scan s base).map Token.span) ↔
      ∃ ls, Lex.leaves? base s = some ls ∧ Lex.Nested (Lex.bracketsOf ls)) ∧
    (Span.Tile base (base + s.length) ((scan s base).map Token.span) →
      Lex.leaves? base s = some ((scan s base).flatMap leaves)) := by
  rw [tile_scan_iff]
  obtain ⟨hflat, hnested⟩ := flatRun base s
  have hcovered : code.runLength s = s.length →
      runLeaves base s = (scan s base).flatMap leaves ∧
        leaves? base s = some ((scan s base).flatMap leaves) := by
    intro hrun
    have hall : runLeaves base s = (scan s base).flatMap leaves := by
      rw [runLeaves, hrun, take_length]
    refine ⟨hall, ?_⟩
    rw [hflat, hrun, drop_length, leaves?_nil, hall]
    simp
  refine ⟨⟨?_, ?_⟩, ?_⟩
  · intro hrun
    obtain ⟨hall, hleaves⟩ := hcovered hrun
    exact ⟨_, hleaves, hall ▸ hnested⟩
  · rintro ⟨ls, hls, hnestedLs⟩
    exact runLength_of_nested hls hnestedLs
  · intro hrun
    exact (hcovered hrun).2

end Token

end CBoundary
