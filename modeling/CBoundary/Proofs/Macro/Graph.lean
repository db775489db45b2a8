import CBoundary.Proofs.Macro.Halting
import Mathlib.Data.List.Forall2
import Mathlib.Logic.Relation

/-!
# The graph of an expansion

Every use of a macro is met inside the replacement texts of some others, its owners, and the last of
them brings it in.  The uses are met in the order of an unfolding: a use, then what its arguments
bring in, then what its replacement text brings in.  That the graph hangs together follows from this
order alone.
-/

namespace CBoundary.Macro

open List

variable {names owners : List String} {n : Nat} {name : String} {g : Table (List String)}
  {s : List Char} {call : Option (Nat × List Char)}

/-! ## Uses with their owners -/

/-- A use of a macro, and the macros in whose replacement texts it was met, outermost first. -/
structure NestedUse where
  owners : List String
  name : String

/-- The macro that brings the next use in; the empty name stands for the text itself. -/
def ownerOf (owners : List String) : String := owners.getLast?.getD ""

/-- The owner of a use. -/
def NestedUse.owner (x : NestedUse) : String := ownerOf x.owners

/-- The use that a message is about, if it tells that a macro is being expanded. -/
def nestedUse? : Message → Option NestedUse
  | .expanding owners name => some ⟨owners, name⟩
  | _ => none

/-- The uses that diagnostics tell of. -/
def usesOf (notes : Array Diagnostic) : List NestedUse :=
  notes.toList.filterMap fun d => nestedUse? d.message

theorem usesOf_push (notes : Array Diagnostic) (d : Diagnostic) :
    usesOf (notes.push d) = usesOf notes ++ (nestedUse? d.message).toList := by
  unfold usesOf
  rw [Array.toList_push, filterMap_append]
  cases h : nestedUse? d.message <;> simp [h]

/-- The order in which uses are met: each is followed by those in its arguments and its replacement
text. -/
inductive Unfolds (names : List String) : List String → List NestedUse → Prop
  | nil (owners : List String) : Unfolds names owners []
  | use {owners : List String} {name : String} {inside body rest : List NestedUse}
      (hname : name ∈ names) (hinside : Unfolds names owners inside)
      (hbody : Unfolds names (owners ++ [name]) body) (hrest : Unfolds names owners rest) :
      Unfolds names owners (⟨owners, name⟩ :: (inside ++ body ++ rest))

section

variable {log : List NestedUse} {owner : String}

theorem Unfolds.append {log' : List NestedUse} (h : Unfolds names owners log)
    (h' : Unfolds names owners log') : Unfolds names owners (log ++ log') := by
  induction h with
  | nil => exact h'
  | @use owners name inside body rest hname hinside hbody _ _ _ ih =>
    have hlog := Unfolds.use hname hinside hbody (ih h')
    rwa [← append_assoc] at hlog

theorem Unfolds.reached (h : Unfolds names owners log) {brings : String → String → Prop}
    (hbrings : ∀ x ∈ log, brings x.owner x.name)
    (hroot : Relation.ReflTransGen brings "" (ownerOf owners)) :
    ∀ x ∈ log, x.name ∈ names ∧ Relation.ReflTransGen brings "" x.owner := by
  induction h with
  | nil => exact fun x hx => absurd hx not_mem_nil
  | @use owners name inside body rest hname _ _ _ ihinside ihbody ihrest =>
    have hinner : Relation.ReflTransGen brings "" (ownerOf (owners ++ [name])) := by
      rw [ownerOf, getLast?_concat]
      exact hroot.tail (hbrings ⟨owners, name⟩ mem_cons_self)
    intro x hx
    simp only [mem_cons, mem_append] at hx hbrings
    rcases hx with rfl | (hx | hx) | hx
    · exact ⟨hname, hroot⟩
    · exact ihinside (fun y hy => hbrings y (.inr (.inl (.inl hy)))) hroot x hx
    · exact ihbody (fun y hy => hbrings y (.inr (.inl (.inr hy)))) hinner x hx
    · exact ihrest (fun y hy => hbrings y (.inr (.inr hy))) hroot x hx

/-! ## The graph of some uses -/

/-- The owner brings the name in. -/
def Brings (g : Table (List String)) (owner name : String) : Prop :=
  ∃ names, g.find? owner = some names ∧ name ∈ names

/-- The graph with one use more. -/
def bring (g : Table (List String)) (x : NestedUse) : Table (List String) :=
  g.insert x.owner (insertName x.name ((g.find? x.owner).getD []))

theorem mem_insertName {n : String} {ns : List String} :
    n ∈ insertName name ns ↔ n = name ∨ n ∈ ns := by
  induction ns with
  | nil => simp [insertName]
  | cons n' ns ih =>
    rw [insertName]
    split
    · exact mem_cons
    · split
      · rename_i hbeq
        rw [eq_of_beq hbeq, mem_cons]
        exact or_self_left.symm
      · rw [mem_cons, ih, mem_cons, or_left_comm]

theorem brings_bring {x : NestedUse} :
    Brings (bring g x) owner name ↔ (x.owner = owner ∧ x.name = name) ∨ Brings g owner name := by
  unfold Brings bring
  rw [Table.find?_insert]
  by_cases howner : owner = x.owner
  · subst howner
    cases g.find? x.owner <;> simp [mem_insertName, eq_comm]
  · have hne : ¬ x.owner = owner := fun h => howner h.symm
    simp [howner, hne]

theorem brings_foldl : Brings (log.foldl bring g) owner name ↔
      (∃ x ∈ log, x.owner = owner ∧ x.name = name) ∨ Brings g owner name := by
  induction log generalizing g with
  | nil => simp
  | cons x log ih =>
    rw [foldl_cons, ih, brings_bring, exists_mem_cons_iff, or_left_comm, or_assoc]

theorem not_brings_empty (owner name : String) : ¬ Brings {} owner name := by
  rintro ⟨names, hfind, -⟩
  cases hfind

theorem mem_keys_foldl (h : owner ∈ (log.foldl bring g).keys) :
    (∃ x ∈ log, x.owner = owner) ∨ owner ∈ g.keys := by
  induction log generalizing g with
  | nil => exact .inr h
  | cons x log ih =>
    rcases ih h with ⟨y, hy, howner⟩ | hkeys
    · exact .inl ⟨y, mem_cons_of_mem x hy, howner⟩
    · obtain ⟨entry, hentry, rfl⟩ := mem_map.mp hkeys
      rcases Table.mem_entries_insert hentry with rfl | hentry
      · exact .inl ⟨x, mem_cons_self, rfl⟩
      · exact .inr (mem_map_of_mem hentry)

end

theorem distinct_foldl (h : g.Distinct) (log : List NestedUse) : (log.foldl bring g).Distinct := by
  induction log generalizing g with
  | nil => exact h
  | cons x log ih => exact ih (h.insert _ _)

/-! ## What expansion leaves behind -/

/-- From one trace to another the graph has grown by some uses, with a diagnostic for each. -/
structure Trace.Logs (t t' : Trace) (log : List NestedUse) : Prop where
  graph : t'.graph = log.foldl bring t.graph
  notes : usesOf t'.notes = usesOf t.notes ++ log

namespace Trace

variable {t t₁ t₂ : Trace} {log : List NestedUse}

theorem Logs.refl (t : Trace) : t.Logs t [] := ⟨rfl, (append_nil _).symm⟩

theorem Logs.trans {log' : List NestedUse} (h : t.Logs t₁ log) (h' : t₁.Logs t₂ log') :
    t.Logs t₂ (log ++ log') where
  graph := by rw [h'.graph, h.graph, foldl_append]
  notes := by rw [h'.notes, h.notes, append_assoc]

theorem logs_enter (t : Trace) (owners : List String) (name : String) :
    t.Logs (t.enter owners name) [⟨owners, name⟩] where
  graph := rfl
  notes := usesOf_push _ _

theorem Logs.add {t' : Trace} (h : t.Logs t' log) {d : Diagnostic}
    (hd : nestedUse? d.message = none) : t.Logs (t'.add d) log where
  graph := h.graph
  notes := by
    show usesOf (t'.notes.push d) = _
    rw [usesOf_push, hd, h.notes]
    exact append_nil _

/-- Between two traces an unfolding was met. -/
def Unfolded (names owners : List String) (t t' : Trace) : Prop :=
  ∃ log, t.Logs t' log ∧ Unfolds names owners log

theorem Unfolded.refl (names owners : List String) (t : Trace) : Unfolded names owners t t :=
  ⟨[], .refl t, .nil owners⟩

theorem Unfolded.trans {names owners : List String} (h : Unfolded names owners t t₁)
    (h' : Unfolded names owners t₁ t₂) : Unfolded names owners t t₂ := by
  obtain ⟨log, hlog, hunfolds⟩ := h
  obtain ⟨log', hlog', hunfolds'⟩ := h'
  exact ⟨log ++ log', hlog.trans hlog', hunfolds.append hunfolds'⟩

end Trace

theorem expandArguments_unfolded {expandOne : Expansion} {size : Nat}
    (hone : ∀ (base : Int) (text : List Char) (t : Trace), text.length < size →
      t.Unfolded names owners (expandOne base text t).2)
    (base : Int) (raw : Table (List Char × Int)) (t : Trace) :
    t.Unfolded names owners (expandArguments expandOne base size raw t).2 := by
  refine foldlRecOn (motive := fun acc : List (String × Argument) × Trace =>
    t.Unfolded names owners acc.2) raw.entries _ (.refl names owners t) ?_
  intro acc hacc entry _
  split
  · rename_i hshort
    exact hacc.trans (hone _ _ _ hshort)
  · exact hacc

section Replacing

variable {names : List String} {f : Frame} {name : String} {t t' : Trace}

/-- From one trace to another a use was replaced: its arguments first, then its replacement text. -/
def Frame.Replaced (names : List String) (f : Frame) (name : String) (t t' : Trace) : Prop :=
  ∃ inside body, t.Logs t' (inside ++ body) ∧ Unfolds names f.owners inside ∧
    Unfolds names (f.owners ++ [name]) body

theorem Frame.Replaced.refl (names : List String) (f : Frame) (name : String) (t : Trace) :
    f.Replaced names name t t :=
  ⟨[], [], .refl t, .nil _, .nil _⟩

theorem Frame.Replaced.add (h : f.Replaced names name t t') {d : Diagnostic}
    (hd : nestedUse? d.message = none) : f.Replaced names name t (t'.add d) := by
  obtain ⟨inside, body, hlog, hparts⟩ := h
  exact ⟨inside, body, hlog.add hd, hparts⟩

theorem Frame.replaced_of_unfolded {t₁ : Trace} (hinside : t.Unfolded names f.owners t₁)
    (hbody : t₁.Unfolded names (f.owners ++ [name]) t') : f.Replaced names name t t' := by
  obtain ⟨inside, hlog, hunfolds⟩ := hinside
  obtain ⟨body, hlog', hunfolds'⟩ := hbody
  exact ⟨inside, body, hlog.trans hlog', hunfolds, hunfolds'⟩

theorem replaced_replacementBy {place : Int → Place} {expandBody expandOne : Expansion}
    {s : List Char}
    (hbody : ∀ (base : Int) (text : List Char) (t : Trace),
      t.Unfolded names (f.owners ++ [name]) (expandBody base text t).2)
    (hone : ∀ (base : Int) (text : List Char) (t : Trace), text.length < s.length →
      t.Unfolded names f.owners (expandOne base text t).2)
    (base : Int) (pos n : Nat) (call : Option (Nat × List Char)) (m : MacroDecl) (t : Trace) :
    f.Replaced names name t
      (replacementBy place expandBody expandOne f base pos s name n call m t).2 := by
  unfold replacementBy
  cases m.body with
  | none => exact (Frame.Replaced.refl names f name t).add rfl
  | some body =>
    cases call with
    | none => exact (Frame.replaced_of_unfolded (.refl _ _ t) (hbody base body.chars t)).add rfl
    | some call =>
      dsimp only
      split
      · exact ((Frame.Replaced.refl names f name t).add rfl).add rfl
      · exact (Frame.replaced_of_unfolded (expandArguments_unfolded hone base _ t)
          (hbody (base + pos) _ _)).add rfl

end Replacing

/-- The uses that expansion meets in a text are an unfolding below the owners. -/
def Expander.Unfolding (e : Expander) (f : Frame) (s : List Char) : Prop :=
  ∀ base before pos (t : Trace),
    t.Unfolded (e.objects ++ e.functions) f.owners (fragment e f base before pos s t).2

theorem Expander.Below.replaced {e : Expander} {f : Frame} {s : List Char}
    (h : e.Below e.Unfolding f s) (base : Int) (pos : Nat) (name : String) (n : Nat)
    (call : Option (Nat × List Char)) (t : Trace) :
    f.Replaced (e.objects ++ e.functions) name (t.enter f.owners name)
      (replacement e f base pos s name n call t).2 := by
  have hleft := Frame.Replaced.refl (e.objects ++ e.functions) f name (t.enter f.owners name)
  rw [replacement_eq]
  cases hu : f.inUse.contains name with
  | true => exact hleft.add rfl
  | false =>
    rw [if_neg Bool.false_ne_true]
    cases hm : e.macros.find? name with
    | none => exact hleft.add rfl
    | some m =>
      exact replaced_replacementBy
        (fun base text => h.body name (Option.ne_none_iff_exists'.mpr ⟨m, hm⟩) hu text base none 0)
        (fun base text t hshort => h.argument name text hshort base none 0 t) _ _ _ _ _ _

theorem Expander.unfolding (e : Expander) : ∀ f s, e.Unfolding f s := by
  refine e.induction fun f s h base before pos t => ?_
  cases s with
  | nil =>
    rw [fragment]
    exact .refl _ _ t
  | cons c cs =>
    have hrest (n : Nat) := h.shorter (cs.drop n) (length_drop_cons_lt c cs n)
    rw [fragment]
    cases hsite : e.siteAt before (c :: cs) with
    | plain => exact h.shorter cs (Nat.lt_succ_self _) base (some c) (pos + 1) t
    | verbatim n => exact hrest (n - 1) base ((c :: cs).take n).getLast? (pos + n) t
    | use name n call =>
      obtain ⟨inside, body, hhere, hinside, hbody⟩ := h.replaced (base + base) pos name n call t
      obtain ⟨rest, hlog, hrest⟩ := hrest (n - 1) base ((c :: cs).take n).getLast? (pos + n)
        (replacement e f (base + base) pos (c :: cs) name n call t).2
      exact ⟨_, (t.logs_enter f.owners name).trans (hhere.trans hlog),
        .use (Expander.siteAt_use hsite).1 hinside hbody hrest⟩

/-! ## Rooted graphs -/

/-- The text brings in a macro, all names are those of macros, and every owner is reached from the
text. -/
structure Rooted (macros : Table MacroDecl) (g : Table (List String)) (name : String) : Prop where
  distinct : g.Distinct
  root : Brings g "" name
  known : ∀ owner n, Brings g owner n → n ∈ macros.keys
  owner_known : ∀ owner ∈ g.keys, owner ≠ "" → owner ∈ macros.keys
  reached : ∀ owner ∈ g.keys, Relation.ReflTransGen (Brings g) "" owner

/-- An unfolding leaves a rooted graph. -/
theorem Unfolds.rooted {log : List NestedUse} (h : Unfolds names [] log) {macros : Table MacroDecl}
    (hnames : ∀ n ∈ names, n ∈ macros.keys) (hname : ⟨[], name⟩ ∈ log) :
    Rooted macros (log.foldl bring {}) name := by
  have hbrings : ∀ x ∈ log, Brings (log.foldl bring {}) x.owner x.name :=
    fun x hx => brings_foldl.mpr (.inl ⟨x, hx, rfl, rfl⟩)
  have hlog := h.reached hbrings .refl
  have hknown : ∀ owner n, Brings (log.foldl bring {}) owner n → n ∈ macros.keys := by
    intro owner n hn
    rcases brings_foldl.mp hn with ⟨x, hx, -, rfl⟩ | hn
    · exact hnames _ (hlog x hx).1
    · exact absurd hn (not_brings_empty owner n)
  have hreached : ∀ owner ∈ (log.foldl bring {}).keys,
      Relation.ReflTransGen (Brings (log.foldl bring {})) "" owner := by
    intro owner howner
    rcases mem_keys_foldl howner with ⟨x, hx, rfl⟩ | hkeys
    · exact (hlog x hx).2
    · exact absurd hkeys not_mem_nil
  refine ⟨distinct_foldl Table.distinct_empty log, hbrings _ hname, hknown, ?_, hreached⟩
  intro owner howner hne
  rcases Relation.ReflTransGen.cases_tail (hreached owner howner) with rfl | ⟨n, -, hn⟩
  · exact absurd rfl hne
  · exact hknown n owner hn

/-! ## The outermost text -/

/-- A macro is what expansion finds at a range, and its name stands there. -/
def UsedAt (e : Expander) (s : List Char) (range : Span) (name : String) : Prop :=
  ∃ front piece rear call, s = front ++ (piece ++ rear) ∧
    range = ⟨front.length, front.length + piece.length⟩ ∧
    e.siteAt front.getLast? (piece ++ rear) = .use name piece.length call ∧ name.toList <+: piece

/-- What was expanded at an insert point is the graph of some uses, which unfold the text. -/
def Traced (e : Expander) (s : List Char) (x : Expansions) (log : List NestedUse) : Prop :=
  ∃ name, UsedAt e s x.point.orig name ∧ ⟨[], name⟩ ∈ log ∧
    Unfolds (e.objects ++ e.functions) [] log ∧ x.graph = log.foldl bring {}

/-- Beside each insert point stands what was expanded there, as the diagnostics tell. -/
structure Outcome.Recorded (e : Expander) (s : List Char) (notes : Array Diagnostic)
    (out : Outcome) : Prop where
  points : out.expansions.map Expansions.point = out.inserts
  logs : ∃ logs, usesOf out.notes = usesOf notes ++ logs.flatten ∧
    List.Forall₂ (Traced e s) out.expansions logs

theorem behind_of_fits {c : Char} {cs : List Char} (front : List Char) (hpos : 0 < n)
    (hle : n ≤ (c :: cs).length) :
    ((c :: cs).take n).getLast? = (front ++ (c :: cs).take n).getLast? ∧
      front.length + n = (front ++ (c :: cs).take n).length ∧
      front ++ (c :: cs).take n ++ cs.drop (n - 1) = front ++ c :: cs := by
  obtain ⟨hsplit, hlength⟩ := split_of_fits hpos hle
  have hne : (c :: cs).take n ≠ [] := by
    refine ne_nil_of_length_pos ?_
    rwa [hlength]
  refine ⟨?_, ?_, ?_⟩
  · rw [getLast?_append, getLast?_eq_some_getLast hne, Option.some_or]
  · rw [length_append, hlength]
  · rw [append_assoc, hsplit]

/-- What is recorded from a position on. -/
theorem recorded_expandFrom (e : Expander) (before : Option Char) (pos : Nat) (grown : Int)
    (s : List Char) (notes : Array Diagnostic) (front : List Char)
    (hbefore : before = front.getLast?) (hpos : pos = front.length) :
    (expandFrom e before pos grown s notes).Recorded e (front ++ s) notes := by
  fun_induction expandFrom e before pos grown s notes generalizing front with
  | case1 before pos grown notes => exact ⟨rfl, [], (append_nil _).symm, .nil⟩
  | case2 before pos grown notes c cs hsite out ih =>
    have hrest := ih (front ++ [c]) (by simp) (by simp [hpos])
    rw [append_assoc, singleton_append] at hrest
    exact ⟨hrest.points, hrest.logs⟩
  | case3 before pos grown notes c cs n hsite out ih =>
    obtain ⟨hsome, hle⟩ := Expander.siteAt_verbatim hsite
    obtain ⟨hlast, hstart, hs⟩ := behind_of_fits front hsome hle
    have hrest := ih (front ++ (c :: cs).take n) hlast (hpos ▸ hstart)
    rw [hs] at hrest
    exact ⟨hrest.points, hrest.logs⟩
  | case4 before pos grown notes c cs name n call hsite here t hhere delta point out ih =>
    obtain ⟨hname, hspelled, hsome, hle, -⟩ := Expander.siteAt_use hsite
    obtain ⟨hsplit, hlength⟩ := split_of_fits hsome hle
    obtain ⟨hlast, hstart, hs⟩ := behind_of_fits front hsome hle
    obtain ⟨hpoints, logs, hnotes, htraced⟩ := ih (front ++ (c :: cs).take n) hlast (hpos ▸ hstart)
    rw [hs] at htraced
    have hreplaced := (e.below e.unfolding {} (c :: cs)).replaced 0 pos name n call { notes }
    rw [hhere] at hreplaced
    obtain ⟨inside, body, hlog, hinside, hbody⟩ := hreplaced
    have hlogs := (Trace.logs_enter { notes } [] name).trans hlog
    have hused : UsedAt e (front ++ c :: cs) point.orig name := by
      refine ⟨front, (c :: cs).take n, cs.drop (n - 1), call, by rw [hsplit], ?_, ?_, ?_⟩
      · show Span.mk _ _ = _
        rw [hlength, hpos]
      · rw [hsplit, hlength, ← hbefore, hsite]
      · exact hspelled
    have hunfolds : Unfolds (e.objects ++ e.functions) [] (⟨[], name⟩ :: (inside ++ body ++ [])) :=
      .use hname hinside hbody (.nil [])
    rw [append_nil] at hunfolds
    refine ⟨?_, (⟨[], name⟩ :: (inside ++ body)) :: logs, ?_, .cons ?_ htraced⟩
    · show point :: out.expansions.map Expansions.point = point :: out.inserts
      rw [hpoints]
    · rw [hnotes, hlogs.notes, flatten_cons, append_assoc]
      rfl
    · exact ⟨name, hused, mem_cons_self, hunfolds, hlogs.graph⟩

/-- **What is expanded at an insert point is a rooted graph.** For every text and every table of
macros: the graphs stand beside the insert points in order. Each has the macro used at its point
below the text itself, only names of macros, all owners reached from the text, and the edges that
the diagnostics tell of. -/
theorem expand_graphs_rooted (macros : Table MacroDecl) (expandConst : Bool) (place : Int → Place)
    (s : List Char) :
    let out := expand macros expandConst place s
    out.expansions.map Expansions.point = out.inserts ∧
    ∃ logs : List (List NestedUse), usesOf out.notes = logs.flatten ∧
      List.Forall₂ (fun x log => ∃ name,
        UsedAt (Expander.make macros expandConst place) s x.point.orig name ∧
        Rooted macros x.graph name ∧
        ∀ owner n, Brings x.graph owner n ↔ ∃ u ∈ log, u.owner = owner ∧ u.name = n)
        out.expansions logs := by
  intro out
  have hnames : ∀ n ∈ (Expander.make macros expandConst place).objects ++
      (Expander.make macros expandConst place).functions, n ∈ macros.keys :=
    fun n hn => Table.mem_keys_iff.mpr (Expander.knows_make macros expandConst place n hn)
  have hrecorded : out.Recorded (Expander.make macros expandConst place) s #[] := by
    show (expand macros expandConst place s).Recorded _ s #[]
    unfold expand
    dsimp only
    split
    · exact ⟨rfl, [], rfl, .nil⟩
    · exact recorded_expandFrom _ none 0 0 s #[] [] rfl rfl
  obtain ⟨hpoints, logs, hnotes, htraced⟩ := hrecorded
  refine ⟨hpoints, logs, hnotes, htraced.imp ?_⟩
  rintro x log ⟨name, hused, hroot, hunfolds, hgraph⟩
  rw [hgraph]
  refine ⟨name, hused, hunfolds.rooted hnames hroot, fun owner n => ?_⟩
  rw [brings_foldl]
  exact or_iff_left (not_brings_empty owner n)

end CBoundary.Macro
