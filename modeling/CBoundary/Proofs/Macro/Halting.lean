import CBoundary.Proofs.Macro.Machine
import CBoundary.Proofs.Macro.Traits
import CBoundary.Proofs.Macro.Inserts
import Mathlib.Data.List.Flatten

/-!
# Expansion comes to its end

The machine that keeps the books of an expansion does what expansion does, and so it halts for
every text and every table of macros.  The names of a frame stand in the books while the frame
is open.
-/

namespace CBoundary.Macro

open CBoundary.Text List Expander

variable {name : String} {s : List Char}

/-! ## Names and arguments -/

/-- Every name that is looked for is one of the table. -/
def Expander.Knows (e : Expander) : Prop :=
  ∀ name ∈ e.objects ++ e.functions, e.macros.find? name ≠ none

theorem Expander.knows_make (macros : Table MacroDecl) (expandConst : Bool) (place : Int → Place) :
    (make macros expandConst place).Knows := by
  intro name hname
  have hentry : ∃ m, (name, m) ∈ macros.entries := by
    rcases mem_append.mp hname with hname | hname
    all_goals
      obtain ⟨⟨key, m⟩, hlive, rfl⟩ := mem_map.mp hname
      exact ⟨m, mem_of_mem_filter (mem_of_mem_filter hlive)⟩
  obtain ⟨m, hm⟩ := hentry
  exact Table.find?_ne_none_of_mem hm

theorem length_chars_scan_le (s : List Char) (base : Int) :
    ((Token.scan s base).flatMap Token.chars).length ≤ s.length := by
  have hfound : ∀ (start : Nat) (s : List Char),
      ((Lex.findings Lex.code.tokenLength start s).flatMap Lex.Lexeme.chars).length ≤ s.length := by
    intro start s
    fun_induction Lex.findings Lex.code.tokenLength start s with
    | case1 => exact Nat.le_refl _
    | case2 start c cs hzero ih =>
      rw [length_cons]
      omega
    | case3 start c cs n hn ih =>
      rw [flatMap_cons, length_append, length_cons, length_cons,
        length_take]
      rw [length_drop] at ih
      omega
  have hchars : (Token.scan s base).flatMap Token.chars =
      (Lex.findings Lex.code.tokenLength 0 s).flatMap Lex.Lexeme.chars := by
    rw [flatMap_def, flatMap_def]
    refine congrArg flatten (ext_getElem (by simp [Token.scan, Token.ofLexemes]) ?_)
    intro i hi hi'
    simp [Token.scan, Token.ofLexemes, Token.chars]
  rw [hchars]
  exact hfound 0 s

theorem flatten_splitArguments (count : Nat) (variadic : Bool) (done : List (List Token))
    (ts : List Token) :
    (splitArguments count variadic done ts).flatten.Sublist (done.flatten ++ ts) := by
  have hlast : ∀ (done : List (List Token)) (t : Token),
      (done.dropLast ++ [(done.getLast?).getD [] ++ [t]]).flatten = done.flatten ++ [t] := by
    intro done t
    rcases eq_nil_or_concat done with rfl | ⟨front, last, rfl⟩
    · rfl
    · simp
  induction ts generalizing done with
  | nil =>
    rw [splitArguments, append_nil]
  | cons t ts ih =>
    rw [splitArguments]
    split
    · refine (ih (done ++ [[]])).trans ?_
      rw [flatten_append, flatten_singleton, append_nil]
      exact (List.Sublist.refl _).append (sublist_cons_self t ts)
    · split
      · exact sublist_append_left _ _
      · refine (ih _).trans ?_
        rw [hlast, append_assoc]
        exact List.Sublist.refl _

theorem length_argument_le {count : Nat} {variadic : Bool} {inside : List Char} {base : Int}
    {arg : List Token} (h : arg ∈ splitArguments count variadic [[]] (Token.scan inside base)) :
    (argumentText arg).1.length ≤ inside.length := by
  have htrim : ∀ s : List Char, (trim s).length ≤ s.length := by
    intro s
    rw [trim, length_reverse]
    refine Nat.le_trans (dropWhile_sublist _).length_le ?_
    rw [length_reverse]
    exact (dropWhile_sublist _).length_le
  have hsub : arg.Sublist (Token.scan inside base) :=
    (sublist_flatten_of_mem h).trans (flatten_splitArguments count variadic [[]] _)
  have hjoin : (String.join (Tokens.values arg)).toList = arg.flatMap Token.chars := by
    rw [String.toList_join, Tokens.values, flatMap_map]
    rfl
  calc (argumentText arg).1.length ≤ (arg.flatMap Token.chars).length := by
        rw [← hjoin]
        exact htrim _
    _ ≤ ((Token.scan inside base).flatMap Token.chars).length := (hsub.flatMap _).length_le
    _ ≤ inside.length := length_chars_scan_le inside base

namespace Machine

variable {s cs : List Char} {n : Nat} {inside? : Option (Nat × List Char)} {r : Reading} {c : Char}
  {target : Machine} {out : Outcome}

/-! ## Runs -/

variable {e : Expander} {M M' M₁ : Machine} {f : Frame} {u : Use} {outer : Reading}

/-- The machine comes from one state to another. -/
def Leads (e : Expander) (M M' : Machine) : Prop := ∃ n, run e n M = some M'

theorem Leads.refl (e : Expander) (M : Machine) : Leads e M M := ⟨0, rfl⟩

theorem Leads.step (h : step e M = some M₁) (hrest : Leads e M₁ M') : Leads e M M' := by
  obtain ⟨n, hn⟩ := hrest
  refine ⟨n + 1, ?_⟩
  rwa [run, h]

theorem Leads.trans (h : Leads e M M₁) (hrest : Leads e M₁ M') : Leads e M M' := by
  obtain ⟨n, hn⟩ := h
  induction n generalizing M with
  | zero =>
    cases hn
    exact hrest
  | succ n ih =>
    obtain ⟨M₂, hstep, hn⟩ := Option.bind_eq_some_iff.mp hn
    exact .step hstep (ih hn)

/-- The books hold the names of a frame. -/
structure Stands (M : Machine) (f : Frame) : Prop where
  inUse : M.inUse = f.inUse.toFinset
  owners : M.owners = f.owners
  expanding : M.expanding = f.expanding

/-- What an expansion has left behind so far. -/
def trace (M : Machine) : Trace := ⟨M.graph, M.notes⟩

/-- The machine has left more behind, and looks at something else. -/
def traced (M : Machine) (t : Trace) (focus : Focus) : Machine :=
  { M with graph := t.graph, notes := t.notes, focus }

/-- The machine while a macro is being replaced. -/
def opened (M : Machine) (u : Use) (t : Trace) (focus : Focus) : Machine :=
  { M.traced t focus with expanding := M.expanding ++ [u.name] }

/-- The machine after a macro was replaced. -/
def replaced (M : Machine) (u : Use) (outer : Reading) (out : List Char × Trace) : Machine :=
  let M' := M.traced out.2 (.reading { outer with done := outer.done ++ out.1 })
  if M.expanding.isEmpty then M'.close u out.1 else M'

theorem leave_opened (hM : M.Stands f) (t : Trace) (focus : Focus) (text : List Char) :
    (M.opened u t focus).leave u outer text = M.replaced u outer (f.leave u.name text t) := by
  unfold leave replaced opened traced Frame.leave
  rw [dropLast_concat, hM.expanding]
  rfl

/-- Inside a replacement the machine expands the text the way expansion does. -/
def Simulates (e : Expander) (f : Frame) (s : List Char) : Prop :=
  ∀ (M : Machine) (r : Reading), M.Stands f → M.expanding ≠ [] → r.rest = s →
    Leads e { M with focus := .reading r }
      (M.traced (fragment e f r.base r.before r.pos s M.trace).2
        (.result (r.done ++ (fragment e f r.base r.before r.pos s M.trace).1)))

theorem enterBody_leads (hM : M.Stands f) (hnew : u.name ∉ M.inUse) (base : Int) (text : List Char)
    (t : Trace) (focus : Focus) (hbody : Simulates e (f.enter u.name) text) :
    Leads e ((M.opened u t focus).enterBody u outer base text)
      (M.replaced u outer (f.leave u.name (fragment e (f.enter u.name) base none 0 text t).1
        (fragment e (f.enter u.name) base none 0 text t).2)) := by
  let N : Machine := { M.opened u t focus with
    inUse := insert u.name M.inUse
    owners := M.owners ++ [u.name]
    pending := ⟨u, outer, .body⟩ :: M.pending }
  have hstands : N.Stands (f.enter u.name) := by
    refine ⟨?_, ?_, ?_⟩
    · show insert u.name M.inUse = (u.name :: f.inUse).toFinset
      rw [toFinset_cons, hM.inUse]
    · show M.owners ++ [u.name] = f.owners ++ [u.name]
      rw [hM.owners]
    · show M.expanding ++ [u.name] = f.expanding ++ [u.name]
      rw [hM.expanding]
  have hne : N.expanding ≠ [] := append_ne_nil_of_right_ne_nil _ (cons_ne_nil _ _)
  refine (hbody N ⟨base, none, 0, text, []⟩ hstands hne rfl).trans ?_
  set out := fragment e (f.enter u.name) base none 0 text t
  have hresume : (N.traced out.2 (.result out.1)).resume out.1 ⟨u, outer, .body⟩ M.pending =
      some ((M.opened u out.2 (.result out.1)).leave u outer out.1) := by
    have herase : (insert u.name M.inUse).erase u.name = M.inUse := Finset.erase_insert hnew
    have hdrop : (M.owners ++ [u.name]).dropLast = M.owners := dropLast_concat
    show (if u.name ∈ insert u.name M.inUse then _ else _) = _
    rw [if_pos (Finset.mem_insert_self _ _)]
    show some (leave { N.traced out.2 (.result out.1) with
      inUse := (insert u.name M.inUse).erase u.name
      owners := (M.owners ++ [u.name]).dropLast
      pending := M.pending } u outer out.1) = _
    rw [herase, hdrop]
    rfl
  rw [leave_opened hM] at hresume
  exact .step hresume (.refl e _)

theorem nextArgument_leads (hM : M.Stands f) {body : List Char} {size : Nat}
    {step : List (String × Argument) × Trace → String × List Char × Int →
      List (String × Argument) × Trace}
    (hstep : ∀ acc entry, entry.2.1.length < size → step acc entry =
      (acc.1 ++ [(entry.1, ⟨entry.2.1, (fragment e (f.enterArguments u.name) (u.base + entry.2.2)
        none 0 entry.2.1 acc.2).1⟩)],
        (fragment e (f.enterArguments u.name) (u.base + entry.2.2) none 0 entry.2.1 acc.2).2))
    {left : List (String × List Char × Int)} (hshort : ∀ entry ∈ left, entry.2.1.length < size)
    (hargs : ∀ text : List Char, text.length < size → Simulates e (f.enterArguments u.name) text)
    (acc : List (String × Argument) × Trace) (focus : Focus) :
    Leads e ((M.opened u acc.2 focus).nextArgument u outer body acc.1 left)
      ((M.opened u (left.foldl step acc).2 focus).enterBody u outer (u.base + u.pos)
        (substitute ⟨(left.foldl step acc).1⟩ none body)) := by
  induction left generalizing acc focus with
  | nil => exact .refl e _
  | cons entry left ih =>
    have hentry := hshort entry mem_cons_self
    rw [foldl_cons]
    let N : Machine := { M.opened u acc.2 focus with
      pending := ⟨u, outer, .argument body acc.1 entry.1 entry.2.1 left⟩ :: M.pending }
    have hstands : N.Stands (f.enterArguments u.name) := by
      refine ⟨hM.inUse, hM.owners, ?_⟩
      show M.expanding ++ [u.name] = f.expanding ++ [u.name]
      rw [hM.expanding]
    have hne : N.expanding ≠ [] := append_ne_nil_of_right_ne_nil _ (cons_ne_nil _ _)
    refine (hargs entry.2.1 hentry N ⟨u.base + entry.2.2, none, 0, entry.2.1, []⟩ hstands hne
      rfl).trans ?_
    -- The argument is complete: it joins the others, and the next one is begun.
    have hnext := ih (fun entry' hentry' => hshort entry' (mem_cons_of_mem _ hentry'))
      (step acc entry) (.result (fragment e (f.enterArguments u.name) (u.base + entry.2.2) none 0
        entry.2.1 acc.2).1)
    refine .step ?_ hnext
    rw [hstep acc entry hentry]
    rfl

theorem call_leads (hM : M.Stands f) (hnew : u.name ∉ M.inUse)
    (hpiece : u.piece = s.take n) {m : MacroDecl} {body : Token} (hm : m.body = some body)
    {start : Nat} {inside : List Char} (hinside : inside.length < s.length)
    (hbody : ∀ text, Simulates e (f.enter u.name) text)
    (hargs : ∀ text : List Char, text.length < s.length → Simulates e (f.enterArguments u.name) text)
    (t : Trace) (focus : Focus) :
    Leads e (call e (M.opened u t focus) u outer m body.chars start inside)
      (M.replaced u outer (replacementBy e.place (fun base => fragment e (f.enter u.name) base none 0)
        (fun base => fragment e (f.enterArguments u.name) base none 0)
        f u.base u.pos s u.name n (some (start, inside)) m t)) := by
  unfold call replacementBy
  rw [hm]
  dsimp only
  split
  · rw [← hpiece, ← leave_opened hM _ focus]
    exact .refl e _
  · split
    · rename_i hparams
      obtain hnil : m.args.getD [] = [] := isEmpty_iff.mp hparams
      rw [hnil]
      exact enterBody_leads hM hnew _ _ t focus (hbody _)
    · have hshort : ∀ entry ∈ (Table.ofList (((m.args.getD []).map Token.value).zip
          ((splitArguments (m.args.getD []).length m.isVariadic [[]]
            (Token.scan inside (u.base + u.pos + start))).map argumentText))).entries,
          entry.2.1.length < s.length := by
        intro entry hentry
        obtain ⟨arg, harg, heq⟩ := mem_map.mp
          (of_mem_zip (Table.mem_of_mem_entries_ofList hentry)).2
        have hle := length_argument_le harg
        rw [heq] at hle
        omega
      refine Leads.trans ?_ (enterBody_leads hM hnew _ _ _ focus (hbody _))
      exact nextArgument_leads hM (fun acc entry hlt => if_pos hlt) hshort hargs ([], t) focus

theorem replace_leads (outer : Reading) (hM : M.Stands f) (hpiece : u.piece = s.take n)
    (hknown : e.macros.find? u.name ≠ none)
    (hinside : ∀ call ∈ inside?, call.2.length < s.length) (h : e.Below (Simulates e) f s) :
    ∃ M₁, M.replace e u outer inside? = some M₁ ∧
      Leads e M₁ (M.replaced u outer (replacement e f u.base u.pos s u.name n inside? M.trace)) := by
  have hopened : M.enter u = M.opened u (M.trace.enter f.owners u.name) M.focus := by
    rw [← hM.owners]
    rfl
  rw [replacement_eq]
  rw [replace, hopened]
  cases huse : f.inUse.contains u.name with
  | true =>
    have hmem : u.name ∈ M.inUse := by
      rw [hM.inUse, mem_toFinset]
      exact contains_iff_mem.mp huse
    rw [if_pos hmem, leave_opened hM, hpiece]
    exact ⟨_, rfl, .refl e _⟩
  | false =>
    have hnew : u.name ∉ M.inUse := by
      rw [hM.inUse, mem_toFinset]
      intro hmem
      rw [contains_iff_mem.mpr hmem] at huse
      cases huse
    obtain ⟨m, hm⟩ := Option.ne_none_iff_exists'.mp hknown
    rw [if_neg hnew, hm]
    refine ⟨_, rfl, ?_⟩
    dsimp only
    rw [if_neg Bool.false_ne_true]
    cases hm' : m.body with
    | none =>
      unfold replacementBy
      rw [hm']
      rw [leave_opened hM]
      exact .refl e _
    | some body =>
      cases inside? with
      | none =>
        unfold replacementBy
        rw [hm']
        exact enterBody_leads hM hnew _ _ _ _ (h.body u.name hknown huse _)
      | some inside =>
        exact call_leads hM hnew hpiece hm' (hinside inside rfl) (h.body u.name hknown huse)
          (h.argument u.name) _ _

/-! ## Texts -/

theorem leads_of_copy (hs : r.rest = c :: cs)
    (hsite : e.siteAt r.before (c :: cs) = .plain ∧ n = 1 ∨ e.siteAt r.before (c :: cs) = .verbatim n)
    (hrest : Leads e { M with focus := .reading (r.past n ((c :: cs).take n)) } target) :
    Leads e { M with focus := .reading r } target := by
  have hread : M.read e r = some { M with focus := .reading (r.past n ((c :: cs).take n)) } := by
    rw [read, hs]
    rcases hsite with ⟨hsite, rfl⟩ | hsite <;> simp [hsite]
  exact .step hread hrest

theorem leads_of_use (hk : e.Knows) (hM : M.Stands f)
    (hs : r.rest = c :: cs) {name : String}
    (hsite : e.siteAt r.before (c :: cs) = .use name n inside?)
    (h : e.Below (Simulates e) f (c :: cs))
    (hrest : Leads e (M.replaced ⟨name, r.base + r.base, r.pos, (c :: cs).take n⟩ (r.past n [])
      (replacement e f (r.base + r.base) r.pos (c :: cs) name n inside? M.trace)) target) :
    Leads e { M with focus := .reading r } target := by
  obtain ⟨hname, -, -, -, hinside⟩ := siteAt_use hsite
  have hread : ({ M with focus := .reading r } : Machine).step e =
      M.replace e ⟨name, r.base + r.base, r.pos, (c :: cs).take n⟩ (r.past n []) inside? := by
    show M.read e r = _
    unfold read
    simp only [hs, hsite]
  obtain ⟨M₁, hstep, hleads⟩ := replace_leads (r.past n [])
    (u := ⟨name, r.base + r.base, r.pos, (c :: cs).take n⟩) hM rfl (hk name hname) hinside h
  exact .step (hread.trans hstep) (hleads.trans hrest)

theorem rest_past (hs : r.rest = c :: cs) (hn : 0 < n) (text : List Char) :
    (r.past n text).rest = cs.drop (n - 1) ∧ (cs.drop (n - 1)).length < (c :: cs).length := by
  refine ⟨?_, by rw [length_drop, length_cons]; omega⟩
  rw [Reading.past, hs]
  exact drop_cons hn

theorem past_nil (r : Reading) (n : Nat) (text : List Char) :
    { r.past n [] with done := (r.past n []).done ++ text } = r.past n text := by
  unfold Reading.past
  rw [append_nil]

theorem read_nil (hs : r.rest = []) : M.read e r = some { M with focus := .result r.done } := by
  rw [read, hs]

/-- The machine expands every text inside a replacement as expansion does. -/
theorem simulates (hk : e.Knows) : ∀ f s, Simulates e f s := by
  refine e.induction fun f s h => ?_
  intro M r hM hne hs
  cases s with
  | nil =>
    rw [fragment, append_nil]
    exact .step (read_nil hs) (.refl e _)
  | cons c cs =>
    have hbehind : ∀ (n : Nat) (M' : Machine) (text : List Char), 0 < n → M'.Stands f →
        M'.expanding ≠ [] → Leads e { M' with focus := .reading (r.past n text) }
          (M'.traced (fragment e f r.base ((c :: cs).take n).getLast? (r.pos + n)
            (cs.drop (n - 1)) M'.trace).2 (.result (r.done ++ (text ++ (fragment e f r.base
              ((c :: cs).take n).getLast? (r.pos + n) (cs.drop (n - 1)) M'.trace).1)))) := by
      intro n M' text hn hM' hne'
      obtain ⟨hrest, hlt⟩ := rest_past hs hn text
      rw [← append_assoc, ← hs]
      exact h.shorter _ hlt M' (r.past n text) hM' hne' hrest
    rw [fragment]
    cases hsite : e.siteAt r.before (c :: cs) with
    | plain => exact leads_of_copy hs (.inl ⟨hsite, rfl⟩) (hbehind 1 M [c] Nat.one_pos hM hne)
    | verbatim n =>
      obtain ⟨hpos, -⟩ := siteAt_verbatim hsite
      exact leads_of_copy hs (.inr hsite) (hbehind n M _ hpos hM hne)
    | use name n inside? =>
      obtain ⟨-, -, hpos, -, -⟩ := siteAt_use hsite
      refine leads_of_use hk hM hs hsite h ?_
      rw [replaced, if_neg (fun hnil => hne (isEmpty_iff.mp hnil)), past_nil]
      exact hbehind n (M.traced _ M.focus) _ hpos ⟨hM.inUse, hM.owners, hM.expanding⟩ hne

/-- The machine comes to the end of a text. -/
theorem expandFrom_leads (hk : e.Knows) (s : List Char) (hM : M.Stands {}) (hgraph : M.graph = {})
    (r : Reading) (hbase : r.base = 0) (hs : r.rest = s) :
    ∃ grown, Leads e { M with focus := .reading r }
      { M with
        notes := (expandFrom e r.before r.pos M.grown s M.notes).notes
        inserts := M.inserts ++ (expandFrom e r.before r.pos M.grown s M.notes).inserts
        expansions := M.expansions ++ (expandFrom e r.before r.pos M.grown s M.notes).expansions
        grown
        focus := .result (r.done ++ (expandFrom e r.before r.pos M.grown s M.notes).text) } := by
  induction hsize : s.length using Nat.strongRecOn generalizing M r s with
  | ind size ih =>
    subst hsize
    cases s with
    | nil =>
      rw [expandFrom, append_nil, append_nil, append_nil]
      exact ⟨M.grown, .step (read_nil hs) (.refl e _)⟩
    | cons c cs =>
      have hbehind {n : Nat} (hn : 0 < n) (text : List Char) {N : Machine} (hM' : N.Stands {})
          (hgraph' : N.graph = {}) := ih _ (rest_past hs hn text).2 _ hM' hgraph' (r.past n text)
        hbase (rest_past hs hn text).1 rfl
      have hbefore (n : Nat) (text : List Char) :
          (r.past n text).before = ((c :: cs).take n).getLast? := by rw [← hs]; rfl
      have hdone (n : Nat) (text : List Char) : (r.past n text).done = r.done ++ text := rfl
      simp only [hbefore, hdone, append_assoc] at hbehind
      rw [expandFrom]
      cases hsite : e.siteAt r.before (c :: cs) with
      | plain =>
        obtain ⟨grown, hrest⟩ := hbehind Nat.one_pos [c] hM hgraph
        exact ⟨grown, leads_of_copy hs (.inl ⟨hsite, rfl⟩) hrest⟩
      | verbatim n =>
        obtain ⟨hpos, -⟩ := siteAt_verbatim hsite
        obtain ⟨grown, hrest⟩ := hbehind hpos ((c :: cs).take n) hM hgraph
        exact ⟨grown, leads_of_copy hs (.inr hsite) hrest⟩
      | use name n inside? =>
        obtain ⟨-, -, hpos, hle, -⟩ := siteAt_use hsite
        obtain ⟨-, hlength⟩ := split_of_fits hpos hle
        have htrace : M.trace = { notes := M.notes } := by
          rw [trace, hgraph]
        set here := replacement e {} 0 r.pos (c :: cs) name n inside? { notes := M.notes }
        set point : InsertPoint := ⟨⟨r.pos, r.pos + n⟩,
          ⟨M.grown + r.pos, M.grown + r.pos + n + ((here.1.length : Int) - n)⟩, here.1.length - n⟩
        -- The replacement is complete, and nothing is being replaced: the point is entered.
        let N : Machine := { M with
          notes := here.2.notes
          inserts := M.inserts ++ [point]
          expansions := M.expansions ++ [⟨point, here.2.graph⟩]
          grown := M.grown + (here.1.length - n) }
        have houter : M.replaced ⟨name, r.base + r.base, r.pos, (c :: cs).take n⟩ (r.past n []) here =
            { N with focus := .reading (r.past n here.1) } := by
          rw [replaced, if_pos (by rw [hM.expanding]; rfl)]
          simp only [close, traced, Reading.past, append_nil, hlength, hbase, hgraph, Int.add_zero,
            Int.zero_add, point, N]
        obtain ⟨grown, hrest⟩ := hbehind hpos here.1 (N := N)
          ⟨hM.inUse, hM.owners, hM.expanding⟩ hgraph
        refine ⟨grown, leads_of_use hk hM hs hsite (e.below (simulates hk) _ _) ?_⟩
        have hhere : replacement e {} (r.base + r.base) r.pos (c :: cs) name n inside?
            { notes := M.notes } = here := by
          rw [hbase]
          rfl
        rw [htrace, hhere, houter]
        simp only [N, append_assoc] at hrest
        exact hrest

theorem expandFrom_of_nameless (hobjects : e.objects = []) (hfunctions : e.functions = [])
    (before : Option Char) (pos : Nat) (grown : Int) (s : List Char) (notes : Array Diagnostic) :
    expandFrom e before pos grown s notes = { text := s, notes } := by
  fun_induction expandFrom e before pos grown s notes with
  | case1 => rfl
  | case2 before pos grown notes c cs hsite out ih =>
    rw [show out = _ from ih]
  | case3 before pos grown notes c cs n hsite out ih =>
    obtain ⟨hpos, hle⟩ := siteAt_verbatim hsite
    obtain ⟨hsplit, -⟩ := split_of_fits hpos hle
    rw [show out = _ from ih, hsplit]
  | case4 before pos grown notes c cs name n call hsite =>
    have hname := (siteAt_use hsite).1
    rw [hobjects, hfunctions] at hname
    exact absurd hname not_mem_nil

theorem start_leads (macros : Table MacroDecl) (expandConst : Bool) (place : Int → Place)
    (s : List Char) :
    ∃ M, Leads (make macros expandConst place) (start s) M ∧
      M.outcome? = some (expand macros expandConst place s) := by
  set e := make macros expandConst place
  have hk : e.Knows := knows_make macros expandConst place
  obtain ⟨grown, hleads⟩ := expandFrom_leads hk s (M := start s) ⟨rfl, rfl, rfl⟩ rfl
    ⟨0, none, 0, s, []⟩ rfl rfl
  refine ⟨_, hleads, ?_⟩
  show some (expandFrom e none 0 0 s #[]) = _
  unfold expand
  dsimp only
  split
  · rename_i hnameless
    rw [Bool.and_eq_true, List.isEmpty_iff, List.isEmpty_iff] at hnameless
    rw [expandFrom_of_nameless hnameless.1 hnameless.2]
  · rfl

theorem halted_of_outcome? (h : M.outcome? = some out) : M.step e = none ∧ M.pending = [] := by
  unfold outcome? at h
  unfold step
  split at h
  · rename_i hfocus hpending
    rw [hfocus, hpending]
    exact ⟨rfl, rfl⟩
  · cases h

theorem run_unique {m : Nat} (h₁ : run e m M = some M₁) (h : run e n M = some M')
    (halt₁ : step e M₁ = none) (halt : step e M' = none) : M₁ = M' := by
  induction m generalizing n M with
  | zero =>
    cases h₁
    cases n with
    | zero => exact Option.some.inj h
    | succ n => rw [run, halt₁] at h; cases h
  | succ m ih =>
    cases n with
    | zero => cases h; rw [run, halt] at h₁; cases h₁
    | succ n =>
      obtain ⟨M₂, hstep, h₁⟩ := Option.bind_eq_some_iff.mp h₁
      rw [run, hstep] at h
      exact ih h₁ h

theorem expand_eq_of_run {macros : Table MacroDecl} {expandConst : Bool} {place : Int → Place}
    (h : (run (make macros expandConst place) n (start s)).bind outcome? = some out) :
    expand macros expandConst place s = out := by
  obtain ⟨M, hrun, hout⟩ := Option.bind_eq_some_iff.mp h
  obtain ⟨M', ⟨m, hrun'⟩, hout'⟩ := start_leads macros expandConst place s
  have hsame := run_unique hrun' hrun (halted_of_outcome? hout').1 (halted_of_outcome? hout).1
  rw [hsame, hout] at hout'
  exact (Option.some.inj hout').symm
end Machine

/-- **Expansion comes to its end, and keeps its books.** For every text and every table of macros
the machine halts with the outcome of the expansion and with empty books. After any number of steps
the names in use are the owners, none of them twice. -/
theorem expand_halts_with_empty_books (macros : Table MacroDecl) (expandConst : Bool)
    (place : Int → Place) (s : List Char) :
    (∃ n M, Machine.run (Expander.make macros expandConst place) n (Machine.start s) = some M ∧
      M.step (Expander.make macros expandConst place) = none ∧
      M.outcome? = some (expand macros expandConst place s) ∧
      M.inUse = ∅ ∧ M.owners = [] ∧ M.expanding = []) ∧
    ∀ n M, Machine.run (Expander.make macros expandConst place) n (Machine.start s) = some M →
      M.inUse = M.owners.toFinset ∧ M.owners.Nodup := by
  constructor
  · obtain ⟨M, ⟨n, hrun⟩, houtcome⟩ := Machine.start_leads macros expandConst place s
    obtain ⟨hhalt, hpending⟩ := Machine.halted_of_outcome?
      (e := make macros expandConst place) houtcome
    obtain ⟨hinUse, howners, hexpanding, -⟩ := (Machine.sound_start s).run hrun
    rw [hpending] at howners hexpanding
    rw [howners] at hinUse
    exact ⟨n, M, hrun, hhalt, houtcome, hinUse, howners, hexpanding⟩
  · intro n M hrun
    have hsound := (Machine.sound_start s).run hrun
    refine ⟨hsound.inUse, ?_⟩
    rw [hsound.owners]
    exact Machine.nodup_owned hsound.fresh

end CBoundary.Macro
