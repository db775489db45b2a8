import CBoundary.Macro.Expand
import Mathlib.Data.Finset.Basic
import Mathlib.Data.Finset.Lattice.Lemmas

/-!
# Expansion step by step

Expansion as a machine that keeps books: an entry is made when a use comes up or its replacement
text is begun, and has to be taken back when that is complete.  Nothing bounds the steps, and the
machine may get stuck.
-/

namespace CBoundary.Macro

open List

/-- A text in the middle of its expansion: its base, what was last read, how far, what is left and
what has become of it. -/
structure Reading where
  base : Int
  before : Option Char
  pos : Nat
  rest : List Char
  done : List Char

/-- Some characters were read and replaced. -/
def Reading.past (r : Reading) (n : Nat) (text : List Char) : Reading where
  base := r.base
  before := (r.rest.take n).getLast?
  pos := r.pos + n
  rest := r.rest.drop n
  done := r.done ++ text

/-- A use of a macro, and the piece of text it takes. -/
structure Use where
  name : String
  base : Int
  pos : Nat
  piece : List Char

/-- What a replacement waits for: the expansion of an argument, with those complete and those left,
or that of the replacement text. -/
inductive Stage where
  | argument (body : List Char) (done : List (String × Argument)) (key : String) (raw : List Char)
      (left : List (String × List Char × Int))
  | body

/-- A replacement that is not complete, and the text around the use, read to its end. -/
structure Pending where
  use : Use
  outer : Reading
  stage : Stage

/-- What the machine looks at: a text to be read on, or one that is complete. -/
inductive Focus where
  | reading (r : Reading)
  | result (text : List Char)

/-- The books, and what the machine is at. -/
structure Machine where
  inUse : Finset String := ∅
  owners : List String := []
  expanding : List String := []
  graph : Table (List String) := {}
  notes : Array Diagnostic := #[]
  inserts : List InsertPoint := []
  expansions : List Expansions := []
  grown : Int := 0
  focus : Focus
  pending : List Pending := []

namespace Machine

/-! ## Steps -/

/-- The machine in front of a text. -/
def start (s : List Char) : Machine := { focus := .reading ⟨0, none, 0, s, []⟩ }

/-- Enters an outermost replacement as an insert point, with the graph of what was expanded. -/
def close (M : Machine) (u : Use) (text : List Char) : Machine :=
  let delta : Int := text.length - u.piece.length
  let at_ : Int := u.base + u.pos
  let point : InsertPoint := ⟨⟨at_, at_ + u.piece.length⟩,
    ⟨M.grown + at_, M.grown + at_ + u.piece.length + delta⟩, delta⟩
  { M with
    inserts := M.inserts ++ [point]
    expansions := M.expansions ++ [⟨point, M.graph⟩]
    grown := M.grown + delta
    graph := {} }

/-- The macro comes to be replaced. -/
def enter (M : Machine) (u : Use) : Machine :=
  let t := Trace.enter ⟨M.graph, M.notes⟩ M.owners u.name
  { M with expanding := M.expanding ++ [u.name], graph := t.graph, notes := t.notes }

/-- The macro is replaced: the text around goes on behind the replacement. -/
def leave (M : Machine) (u : Use) (outer : Reading) (text : List Char) : Machine :=
  let M' := { M with
    notes := M.notes.push (.at_ .debug5 .unknown (.expanded M.expanding (String.ofList text)))
    expanding := M.expanding.dropLast
    focus := .reading { outer with done := outer.done ++ text } }
  if M'.expanding.isEmpty then M'.close u text else M'

/-- Begins the replacement text. -/
def enterBody (M : Machine) (u : Use) (outer : Reading) (base : Int) (text : List Char) : Machine :=
  { M with
    inUse := insert u.name M.inUse
    owners := M.owners ++ [u.name]
    focus := .reading ⟨base, none, 0, text, []⟩
    pending := ⟨u, outer, .body⟩ :: M.pending }

/-- Begins the next argument, or substitutes. -/
def nextArgument (M : Machine) (u : Use) (outer : Reading) (body : List Char)
    (done : List (String × Argument)) : List (String × List Char × Int) → Machine
  | [] => M.enterBody u outer (u.base + u.pos) (substitute ⟨done⟩ none body)
  | (key, raw, offset) :: left =>
    { M with
      focus := .reading ⟨u.base + offset, none, 0, raw, []⟩
      pending := ⟨u, outer, .argument body done key raw left⟩ :: M.pending }

/-- A macro with parameters is called. -/
def call (e : Expander) (M : Machine) (u : Use) (outer : Reading) (m : MacroDecl) (body : List Char)
    (start : Nat) (inside : List Char) : Machine :=
  let params := m.args.getD []
  let args := splitArguments params.length m.isVariadic [[]]
    (Token.scan inside (u.base + u.pos + start))
  if args.length < params.length then
    { M with notes := M.notes.push (.of .macroExpand (e.place (u.base + u.pos))
        (.tooFewArguments u.name args.length params.length)) }.leave u outer u.piece
  else if params.isEmpty then M.enterBody u outer (u.base + u.pos) body
  else M.nextArgument u outer body []
    (Table.ofList ((params.map Token.value).zip (args.map argumentText))).entries

/-- A use comes up; one in use is left alone. -/
def replace (e : Expander) (M : Machine) (u : Use) (outer : Reading)
    (inside? : Option (Nat × List Char)) : Option Machine :=
  if u.name ∈ M.inUse then some ((M.enter u).leave u outer u.piece)
  else (e.macros.find? u.name).map fun m =>
    match m.body, inside? with
    | none, _ => (M.enter u).leave u outer []
    | some body, none => (M.enter u).enterBody u outer u.base body.chars
    | some body, some (start, inside) => call e (M.enter u) u outer m body.chars start inside

/-- A text is complete and goes to the replacement that waits for it. -/
def resume (M : Machine) (text : List Char) (p : Pending) (below : List Pending) : Option Machine :=
  match p.stage with
  | .body =>
    if p.use.name ∈ M.inUse then
      some ({ M with
        inUse := M.inUse.erase p.use.name
        owners := M.owners.dropLast
        pending := below }.leave p.use p.outer text)
    else none
  | .argument body done key raw left =>
    some ({ M with pending := below }.nextArgument p.use p.outer body
      (done ++ [(key, Argument.mk raw text)]) left)

/-- Reads on in a text. -/
def read (e : Expander) (M : Machine) (r : Reading) : Option Machine :=
  match r.rest with
  | [] => some { M with focus := .result r.done }
  | c :: cs =>
    match e.siteAt r.before (c :: cs) with
    | .plain => some { M with focus := .reading (r.past 1 [c]) }
    | .verbatim n => some { M with focus := .reading (r.past n ((c :: cs).take n)) }
    | .use name n inside? =>
      M.replace e ⟨name, r.base + r.base, r.pos, (c :: cs).take n⟩ (r.past n []) inside?

/-- One step; none when the outermost text is complete, or the machine stuck. -/
def step (e : Expander) (M : Machine) : Option Machine :=
  match M.focus with
  | .reading r => M.read e r
  | .result text =>
    match M.pending with
    | [] => none
    | p :: below => M.resume text p below

/-- The machine after a number of steps. -/
def run (e : Expander) : Nat → Machine → Option Machine
  | 0, M => some M
  | n + 1, M => (step e M).bind (run e n)

/-- What the machine leaves behind when the outermost text is complete. -/
def outcome? (M : Machine) : Option Outcome :=
  match M.focus, M.pending with
  | .result text, [] => some ⟨text, M.inserts, M.expansions, M.notes⟩
  | _, _ => none

/-! ## Sound books -/

/-- The macros whose replacement texts are being expanded, outermost first. -/
def owned : List Pending → List String
  | [] => []
  | p :: below =>
    match p.stage with
    | .body => owned below ++ [p.use.name]
    | .argument .. => owned below

/-- No macro is replaced inside its own replacement text. -/
def Fresh : List Pending → Prop
  | [] => True
  | p :: below => p.use.name ∉ owned below ∧ Fresh below

theorem nodup_owned {pending : List Pending} (h : Fresh pending) : (owned pending).Nodup := by
  induction pending with
  | nil => exact nodup_nil
  | cons p below ih =>
    unfold owned
    cases p.stage with
    | argument => exact ih h.2
    | body =>
      rw [← concat_eq_append]
      exact (ih h.2).concat h.1

/-- The books say what is pending, apart from some macros that are not. -/
structure Sound (M : Machine) (loose : List String) : Prop where
  inUse : M.inUse = M.owners.toFinset
  owners : M.owners = owned M.pending
  expanding : M.expanding = M.pending.reverse.map (·.use.name) ++ loose
  fresh : Fresh M.pending

theorem sound_start (s : List Char) : (start s).Sound [] := ⟨rfl, rfl, rfl, trivial⟩

variable {e : Expander} {M M' : Machine} {u : Use} {outer : Reading}

theorem Sound.mem_inUse {names : List String} (h : M.Sound names) (name : String) :
    name ∈ M.inUse ↔ name ∈ owned M.pending := by
  rw [h.inUse, mem_toFinset, h.owners]

theorem Sound.enter (h : M.Sound []) (u : Use) : (M.enter u).Sound [u.name] := by
  refine ⟨h.inUse, h.owners, ?_, h.fresh⟩
  show M.expanding ++ [u.name] = _
  rw [h.expanding, append_nil]
  rfl

theorem Sound.leave (h : M.Sound [u.name]) (outer : Reading) (text : List Char) :
    (M.leave u outer text).Sound [] := by
  have hexpanding : M.expanding.dropLast = M.pending.reverse.map (·.use.name) ++ [] := by
    rw [h.expanding, dropLast_concat, append_nil]
  unfold Machine.leave
  dsimp only
  split <;> exact ⟨h.inUse, h.owners, hexpanding, h.fresh⟩

section

variable (h : M.Sound [u.name]) (hnew : u.name ∉ M.inUse) (outer : Reading)

include h hnew

theorem Sound.enterBody (base : Int) (text : List Char) :
    (M.enterBody u outer base text).Sound [] := by
  refine ⟨?_, ?_, ?_, ?_, h.fresh⟩
  · show insert u.name M.inUse = (M.owners ++ [u.name]).toFinset
    rw [h.inUse, toFinset_append, Finset.union_comm]
    rfl
  · show M.owners ++ [u.name] = owned M.pending ++ [u.name]
    rw [h.owners]
  · show M.expanding = (⟨u, outer, .body⟩ :: M.pending).reverse.map (·.use.name) ++ []
    rw [h.expanding]
    simp
  · exact fun hmem => hnew ((h.mem_inUse u.name).mpr hmem)

theorem Sound.nextArgument (body : List Char) (done : List (String × Argument))
    (left : List (String × List Char × Int)) :
    (M.nextArgument u outer body done left).Sound [] := by
  cases left with
  | nil => exact h.enterBody hnew outer _ _
  | cons entry left =>
    refine ⟨h.inUse, h.owners, ?_, ?_, h.fresh⟩
    · show M.expanding = (⟨u, outer, _⟩ :: M.pending).reverse.map (·.use.name) ++ []
      rw [h.expanding]
      simp
    · exact fun hmem => hnew ((h.mem_inUse u.name).mpr hmem)

theorem Sound.call (m : MacroDecl) (body : List Char) (start : Nat) (inside : List Char) :
    (Machine.call e M u outer m body start inside).Sound [] := by
  unfold Machine.call
  dsimp only
  split
  · have hsame : ∀ notes, ({ M with notes } : Machine).Sound [u.name] := fun _ =>
      ⟨h.inUse, h.owners, h.expanding, h.fresh⟩
    exact (hsame _).leave outer _
  · split
    · exact h.enterBody hnew outer _ _
    · exact h.nextArgument hnew outer _ _ _

end

/-- So does one that begins a use. -/
theorem Sound.replace (h : M.Sound []) {inside? : Option (Nat × List Char)}
    (hstep : M.replace e u outer inside? = some M') : M'.Sound [] := by
  unfold Machine.replace at hstep
  split at hstep
  · cases hstep
    exact (h.enter u).leave outer _
  · rename_i hnew
    obtain ⟨m, -, hm⟩ := Option.map_eq_some_iff.mp hstep
    subst hm
    have hnew' : u.name ∉ (M.enter u).inUse := hnew
    split
    · exact (h.enter u).leave outer _
    · exact (h.enter u).enterBody hnew' outer _ _
    · exact (h.enter u).call hnew' outer _ _ _ _

/-- A step that completes something keeps the books. -/
theorem Sound.resume (h : M.Sound []) {p : Pending} {below : List Pending}
    (hpending : M.pending = p :: below) {text : List Char}
    (hstep : M.resume text p below = some M') : M'.Sound [] := by
  obtain ⟨inUse, owners, expanding, fresh⟩ := h
  rw [hpending] at owners expanding fresh
  have hopen : M.expanding = below.reverse.map (·.use.name) ++ [p.use.name] := by
    rw [expanding]
    simp
  unfold Machine.resume at hstep
  unfold owned at owners
  cases hstage : p.stage with
  | body =>
    rw [hstage] at hstep owners
    dsimp only at hstep owners
    split at hstep
    · cases hstep
      refine Sound.leave ⟨?_, ?_, hopen, fresh.2⟩ p.outer text
      · rw [inUse, owners, dropLast_concat, toFinset_append, Finset.union_comm]
        exact Finset.erase_insert fun hmem => fresh.1 (mem_toFinset.mp hmem)
      · rw [owners, dropLast_concat]
    · cases hstep
  | argument body done key raw left =>
    rw [hstage] at hstep owners
    cases hstep
    refine Sound.nextArgument (M := { M with pending := below })
      ⟨inUse, owners, hopen, fresh.2⟩ ?_ _ _ _ _
    rw [inUse, owners, mem_toFinset]
    exact fresh.1

theorem Sound.read (h : M.Sound []) {r : Reading} (hstep : M.read e r = some M') : M'.Sound [] := by
  have hsame : ∀ focus, ({ M with focus } : Machine).Sound [] := fun _ =>
    ⟨h.inUse, h.owners, h.expanding, h.fresh⟩
  unfold Machine.read at hstep
  split at hstep
  · cases hstep
    exact hsame _
  · split at hstep
    · cases hstep
      exact hsame _
    · cases hstep
      exact hsame _
    · exact h.replace hstep

theorem Sound.step (h : M.Sound []) (hstep : M.step e = some M') : M'.Sound [] := by
  unfold Machine.step at hstep
  split at hstep
  · exact h.read hstep
  · split at hstep
    · cases hstep
    · rename_i p below hpending
      exact h.resume hpending hstep

theorem Sound.run {n : Nat} (h : M.Sound []) (hrun : run e n M = some M') : M'.Sound [] := by
  induction n generalizing M with
  | zero =>
    cases hrun
    exact h
  | succ n ih =>
    obtain ⟨M₁, hstep, hrest⟩ := Option.bind_eq_some_iff.mp hrun
    exact ih (h.step hstep) hrest

end Machine

end CBoundary.Macro
