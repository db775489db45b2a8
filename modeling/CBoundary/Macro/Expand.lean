import CBoundary.Macro.Basic

/-!
# Macro expansion

Expanding a text replaces every use of a macro by its replacement text, in which arguments are
substituted and macros are expanded again.  A macro is not expanded inside its own expansion, so
that expansion ends for every table of macros.  Every replacement in the outermost text leaves an
insert point with the graph of what was expanded there.
-/

namespace CBoundary.Macro

open CBoundary.Text

/-- Escapes a text for a string literal. -/
def escape (s : List Char) : List Char :=
  s.flatMap fun c =>
    if c = '\\' then ['\\', '\\']
    else if c = '\n' then ['\\', 'n']
    else if c = '\t' then ['\\', 't']
    else if c = '\"' then ['\\', '\"']
    else [c]

/-! ## Substituting arguments -/

/-- An argument of a call: its text, and its text with macros expanded. -/
structure Argument where
  raw : List Char
  expanded : List Char
  deriving Repr, Inhabited

/-- The longest of some names that stands between word boundaries at the front of a
text. -/
def wholeName? (names : List String) (before : Option Char) (s : List Char) : Option String :=
  if !isBoundary before s.head? then none
  else
    names.foldl (fun best n =>
      let cs := n.toList
      if cs.isPrefixOf s && isBoundary (if cs.isEmpty then before else cs.getLast?)
          (s.drop cs.length).head? && best.all (fun b => b.length < n.length)
      then some n else best) none

/-- The words pasted to one just read, and the length of all. -/
def pasted (s : List Char) : List (List Char) × Nat :=
  let gap := runLength isSpace s
  let rest := s.drop gap
  if rest.take 2 = ['#', '#'] then
    let gap₂ := runLength isSpace (rest.drop 2)
    let w := (rest.drop (2 + gap₂)).takeWhile isWordChar
    if w.isEmpty then ([], 0)
    else
      let n := gap + 2 + gap₂ + w.length
      let (ws, m) := pasted (s.drop n)
      (w :: ws, n + m)
  else ([], 0)
termination_by s.length
decreasing_by
  rename_i h _
  have h1 : s.drop gap ≠ [] := by
    intro h0
    simp only [rest, h0, List.take_nil] at h
    exact absurd h (by simp)
  have h2 : 0 < s.length - gap := by
    rw [← List.length_drop]
    exact List.length_pos_iff.2 h1
  simp only [List.length_drop]
  omega

/-- The expanded argument for a parameter. -/
def expandedArgument (args : Table Argument) (name : String) : List Char :=
  ((args.find? name).map Argument.expanded).getD []

/-- Substitutes arguments into a replacement text: as a string behind a number sign, as they are
where words are pasted, else expanded. A parameter without a name stands at the ends of words. -/
def substitute (args : Table Argument) (before : Option Char) (s : List Char) : List Char :=
  match s with
  | [] => ((wholeName? args.keys before []).map (expandedArgument args)).getD []
  | c :: cs =>
    let gap := runLength isSpace cs
    let stringified := (cs.drop gap).takeWhile isWordChar
    if c = '#' && !stringified.isEmpty then
      let text := match args.find? (String.ofList stringified) with
        | some a => escape a.raw
        | none => []
      '\"' :: text ++ '\"' ::
        substitute args stringified.getLast? (cs.drop (gap + stringified.length))
    else
      let w := (c :: cs).takeWhile isWordChar
      let (ws, m) := if w.isEmpty then ([], 0) else pasted ((c :: cs).drop w.length)
      if !ws.isEmpty then
        let text := (w :: ws).flatMap fun n =>
          ((args.find? (String.ofList n)).map Argument.raw).getD n
        text ++ substitute args ((ws.getLast?).bind List.getLast?) (cs.drop (w.length + m - 1))
      else
        match wholeName? args.keys before (c :: cs) with
        | some n =>
          if n.isEmpty then expandedArgument args n ++ c :: substitute args (some c) cs
          else
            expandedArgument args n ++ substitute args n.toList.getLast? (cs.drop (n.length - 1))
        | none => c :: substitute args (some c) cs
termination_by s.length

/-! ## Finding macros -/

/-- The macros in use for a text. -/
structure Expander where
  macros : Table MacroDecl
  /-- The macros without parameters that are expanded. -/
  objects : List String
  /-- The macros with parameters that are expanded. -/
  functions : List String
  /-- Where an offset lies in the file. -/
  place : Int → Place

/-- The macros of a table that are expanded; constants only on request. -/
def Expander.make (macros : Table MacroDecl) (expandConst : Bool) (place : Int → Place) :
    Expander :=
  let live := macros.entries.filter fun (_, m) => expandConst || !m.traits.isConst
  { macros
    objects := (live.filter fun (_, m) => m.args.isNone).map Prod.fst
    functions := (live.filter fun (_, m) => m.args.isSome).map Prod.fst
    place }

/-- What stands at the front of a text. -/
inductive Site where
  /-- Nothing that matters. -/
  | plain
  /-- A note or a literal of some length. -/
  | verbatim (length : Nat)
  /-- A use of a macro; for a call, the inside of the parentheses and where it
  starts. -/
  | use (name : String) (length : Nat) (call : Option (Nat × List Char))
  deriving Repr

/-- The arguments in parentheses that follow a macro's name. -/
def callAfter? (name : String) (s : List Char) : Option Site :=
  let n := name.length
  let gap := runLength isSpace (s.drop n)
  match Lex.code.blockLength '(' (s.drop (n + gap)) with
  | 0 => none
  | k + 1 =>
    some (.use name (n + gap + k + 1)
      (some (n + gap + 1, ((s.drop (n + gap + 1)).take (k - 1)))))

/-- The first of some names, longest first, that is called at the front of a
text. -/
def calledName? (names : List String) (before : Option Char) (s : List Char) : Option Site :=
  if !isBoundary before s.head? then none
  else
    (names.filterMap fun n =>
      let cs := n.toList
      if cs.isPrefixOf s && isBoundary (if cs.isEmpty then before else cs.getLast?)
          (s.drop cs.length).head? then
        (callAfter? n s).map fun site => (cs.length, site)
      else none).foldl (fun best (len, site) =>
        match best with
        | some (l, _) => if l < len then some (len, site) else best
        | none => some (len, site)) none |>.map Prod.snd

/-- What stands at the front of a text: a note or a literal, a macro without parameters, or a call.
-/
def Expander.siteAt (e : Expander) (before : Option Char) (s : List Char) : Site :=
  match Lex.firstOf [Lex.note, Lex.literal] s with
  | n + 1 => .verbatim (n + 1)
  | 0 =>
    match wholeName? (e.objects.filter fun n => !n.isEmpty) before s with
    | some name => .use name name.length none
    | none => (calledName? e.functions before s).getD .plain

/-! ## Expanding -/

/-- The macros being expanded, as names in use and as a stack of owners, and those being replaced.
-/
structure Frame where
  inUse : List String := []
  owners : List String := []
  expanding : List String := []
  deriving Repr

/-- Inside the replacement text of a macro. -/
def Frame.enter (f : Frame) (name : String) : Frame :=
  ⟨name :: f.inUse, f.owners ++ [name], f.expanding ++ [name]⟩

/-- Inside the arguments of a call. -/
def Frame.enterArguments (f : Frame) (name : String) : Frame :=
  { f with expanding := f.expanding ++ [name] }

/-- What an expansion leaves besides the text. -/
structure Trace where
  graph : Table (List String) := {}
  notes : Array Diagnostic := #[]

/-- Adds a diagnostic. -/
def Trace.add (t : Trace) (d : Diagnostic) : Trace := { t with notes := t.notes.push d }

/-- Notes that an owner brings in a name. -/
def Trace.enter (t : Trace) (owners : List String) (name : String) : Trace :=
  let owner := (owners.getLast?).getD ""
  { graph := t.graph.insert owner (insertName name ((t.graph.find? owner).getD []))
    notes := t.notes.push (.at_ .debug4 .unknown (.expanding owners name)) }

/-- How many macros are not in use. -/
def Expander.unused (e : Expander) (inUse : List String) : Nat :=
  (e.macros.keys.filter fun k => !inUse.contains k).length

theorem length_filter_lt {α : Type} {p q : α → Bool} {l : List α} {a : α}
    (h : ∀ x, p x = true → q x = true) (ha : a ∈ l) (hp : p a = false) (hq : q a = true) :
    (l.filter p).length < (l.filter q).length := by
  have split : l.filter p = (l.filter q).filter p := by
    rw [List.filter_filter]
    congr 1
    funext x
    cases hx : p x
    · simp
    · simp [h x hx]
  rw [split]
  refine List.length_filter_lt_length_iff_exists.2 ⟨a, List.mem_filter.2 ⟨ha, hq⟩, ?_⟩
  simp [hp]

theorem Expander.unused_cons_lt (e : Expander) {inUse : List String} {name : String}
    {m : MacroDecl} (hm : e.macros.find? name = some m) (hu : inUse.contains name = false) :
    e.unused (name :: inUse) < e.unused inUse := by
  have hmem : name ∈ e.macros.keys := by
    simp only [Table.find?, Option.map_eq_some_iff] at hm
    obtain ⟨entry, hfind, _⟩ := hm
    have h1 := List.mem_of_find?_eq_some hfind
    have h2 := List.find?_some hfind
    have h3 : entry.1 = name := by simpa using h2
    exact List.mem_map.2 ⟨entry, h1, h3⟩
  refine length_filter_lt ?_ hmem ?_ ?_
  · intro x hx
    simp only [List.contains_cons, Bool.not_or, Bool.and_eq_true] at hx
    exact hx.2
  · simp
  · rw [hu]
    rfl

/-- The arguments of a call: commas part them while parameters are left, then end the list or belong
to the variable part. -/
def splitArguments (count : Nat) (variadic : Bool) : List (List Token) → List Token → List (List Token)
  | done, [] => done
  | done, t :: ts =>
    if t.value == "," && done.length < count then splitArguments count variadic (done ++ [[]]) ts
    else if t.value == "," && !variadic then done
    else splitArguments count variadic (done.dropLast ++ [(done.getLast?).getD [] ++ [t]]) ts

/-- The text of an argument and its offset. -/
def argumentText (ts : List Token) : List Char × Int :=
  (trim (String.join (Tokens.values ts)).toList, (Tokens.span ts).start)

mutual

/-- Expands a piece of text that starts after a character at a position. -/
def fragment (e : Expander) (f : Frame) (base : Int) (before : Option Char) (pos : Nat)
    (s : List Char) (t : Trace) : List Char × Trace :=
  match s with
  | [] => ([], t)
  | c :: cs =>
    match e.siteAt before (c :: cs) with
    | .plain =>
      let (rest, t) := fragment e f base (some c) (pos + 1) cs t
      (c :: rest, t)
    | .verbatim n =>
      let (rest, t) := fragment e f base ((c :: cs).take n).getLast? (pos + n) (cs.drop (n - 1)) t
      ((c :: cs).take n ++ rest, t)
    | .use name n call =>
      let (here, t) := replacement e f (base + base) pos (c :: cs) name n call t
      let (rest, t) := fragment e f base ((c :: cs).take n).getLast? (pos + n) (cs.drop (n - 1)) t
      (here ++ rest, t)
termination_by (e.unused f.inUse, s.length, 1)

/-- What replaces the use of a macro at the front of a text. -/
def replacement (e : Expander) (f : Frame) (base : Int) (pos : Nat) (s : List Char)
    (name : String) (n : Nat) (call : Option (Nat × List Char)) (t : Trace) :
    List Char × Trace :=
  let t := t.enter f.owners name
  let leave (text : List Char) (t : Trace) : List Char × Trace :=
    (text, t.add (.at_ .debug5 .unknown (.expanded (f.expanding ++ [name]) (String.ofList text))))
  match _hu : f.inUse.contains name with
  | true => leave (s.take n) t
  | false =>
    match _hm : e.macros.find? name with
    | none => leave (s.take n) t
    | some m =>
      match m.body with
      | none => leave [] t
      | some body =>
        match call with
        | none =>
          let (text, t) := fragment e (f.enter name) base none 0 body.chars t
          leave text t
        | some (start, inside) =>
          let params := m.args.getD []
          let args := splitArguments params.length m.isVariadic [[]]
            (Token.scan inside (base + pos + start))
          if args.length < params.length then
            leave (s.take n) (t.add (.of .macroExpand (e.place (base + pos))
              (.tooFewArguments name args.length params.length)))
          else
            let raw : Table (List Char × Int) :=
              Table.ofList ((params.map Token.value).zip (args.map argumentText))
            let (table, t) := raw.entries.foldl (fun (acc : List (String × Argument) × Trace) entry =>
              let (key, text, offset) := entry
              if _h : text.length < s.length then
                let (expanded, t) :=
                  fragment e (f.enterArguments name) (base + offset) none 0 text acc.2
                (acc.1 ++ [(key, ⟨text, expanded⟩)], t)
              else (acc.1 ++ [(key, ⟨text, text⟩)], acc.2)) ([], t)
            let substituted :=
              if params.isEmpty then body.chars else substitute ⟨table⟩ none body.chars
            let (text, t) := fragment e (f.enter name) (base + pos) none 0 substituted t
            leave text t
termination_by (e.unused f.inUse, s.length, 0)
decreasing_by
  · exact Prod.Lex.left _ _ (e.unused_cons_lt _hm _hu)
  · exact Prod.Lex.right _ (Prod.Lex.left _ _ _h)
  · exact Prod.Lex.left _ _ (e.unused_cons_lt _hm _hu)

end

/-- The outcome of expanding a text. -/
structure Outcome where
  text : List Char
  inserts : List InsertPoint := []
  expansions : List Expansions := []
  notes : Array Diagnostic := #[]

/-- Expands the rest of the outermost text, from a position and a growth on. -/
def expandFrom (e : Expander) (before : Option Char) (pos : Nat) (grown : Int) (s : List Char)
    (notes : Array Diagnostic) : Outcome :=
  match s with
  | [] => { text := [], notes }
  | c :: cs =>
    match e.siteAt before (c :: cs) with
    | .plain =>
      let out := expandFrom e (some c) (pos + 1) grown cs notes
      { out with text := c :: out.text }
    | .verbatim n =>
      let out := expandFrom e ((c :: cs).take n).getLast? (pos + n) grown (cs.drop (n - 1)) notes
      { out with text := (c :: cs).take n ++ out.text }
    | .use name n call =>
      let (here, t) := replacement e {} 0 pos (c :: cs) name n call { notes }
      let delta : Int := here.length - n
      let point : InsertPoint := ⟨⟨pos, pos + n⟩, ⟨grown + pos, grown + pos + n + delta⟩, delta⟩
      let out := expandFrom e ((c :: cs).take n).getLast? (pos + n) (grown + delta)
        (cs.drop (n - 1)) t.notes
      { out with
        text := here ++ out.text
        inserts := point :: out.inserts
        expansions := ⟨point, t.graph⟩ :: out.expansions }
termination_by s.length

/-- Expands the macros of a text. -/
def expand (macros : Table MacroDecl) (expandConst : Bool) (place : Int → Place)
    (s : List Char) : Outcome :=
  let e := Expander.make macros expandConst place
  if e.objects.isEmpty && e.functions.isEmpty then { text := s }
  else expandFrom e none 0 0 s #[]

end CBoundary.Macro
