import CBoundary.Survey.Location

/-!
# Statistics

Uses are counted for every pair of levels of detail: by module, by file, by
definition, or by place.
-/

namespace CBoundary.Survey

/-- How much of a location matters. -/
inductive Detail where
  | mod
  | file
  | defn
  | full
  deriving DecidableEq, Repr, Inhabited

namespace Detail

/-- All levels. -/
def all : List Detail := [mod, file, defn, full]

/-- The name of a level. -/
def name : Detail → String
  | mod => "mod"
  | file => "file"
  | defn => "defn"
  | full => "full"

/-- The level with a name. -/
def ofName? (s : String) : Option Detail := all.find? fun d => d.name == s

end Detail

/-- What is left of a location at a level. -/
structure Key where
  moduleName : String
  file : String := ""
  position : Nat × Int := (0, 0)
  name : String := ""
  kind : String := ""
  snippet : Snippet := {}
  deriving DecidableEq, Repr, Inhabited

namespace Key

/-- A location at a level of detail. -/
def ofLocation (d : Detail) (l : Location) : Key :=
  match d with
  | .mod => { moduleName := l.moduleName }
  | .file => { moduleName := l.moduleName, file := l.file }
  | .defn =>
    { moduleName := l.moduleName, file := l.file, position := l.definedAt
      name := l.fullName, kind := l.kind }
  | .full =>
    { moduleName := l.moduleName, file := l.file, position := l.usedAt
      name := l.fullName, kind := l.kind, snippet := l.snippet }

/-- Compares two ranges; no range comes first. -/
def compareRanges : Option Span → Option Span → Ordering
  | none, none => .eq
  | none, some _ => .lt
  | some _, none => .gt
  | some a, some b => (compare a.start b.start).then (compare a.stop b.stop)

/-- Compares two keys field by field. -/
def cmp (a b : Key) : Ordering :=
  (compare a.moduleName b.moduleName).then <|
  (compare a.file b.file).then <|
  (compare a.position.1 b.position.1).then <|
  (compare a.position.2 b.position.2).then <|
  (compare a.name b.name).then <|
  (compare a.kind b.kind).then <|
  (compare a.snippet.text b.snippet.text).then <|
  compareRanges a.snippet.range b.snippet.range

/-- Does a key not come after another one? -/
def le (a b : Key) : Bool := cmp a b != .gt

end Key

/-- Counts by key, in the order in which the keys came up. -/
abbrev Counts (κ α : Type) : Type := List (κ × α)

/-- Changes the value under a key, which is entered if it is not there. -/
def Counts.alter {κ α : Type} [BEq κ] (key : κ) (f : Option α → α) : Counts κ α → Counts κ α
  | [] => [(key, f none)]
  | e :: es => if e.1 == key then (e.1, f (some e.2)) :: es else e :: Counts.alter key f es

/-- One value for each level of detail, once there is any. -/
structure ByDetail (α : Type) where
  mod : Option α := none
  file : Option α := none
  defn : Option α := none
  full : Option α := none
  deriving DecidableEq, Repr, Inhabited

namespace ByDetail

variable {α : Type}

/-- The value for a level. -/
def get? (x : ByDetail α) : Detail → Option α
  | .mod => x.mod
  | .file => x.file
  | .defn => x.defn
  | .full => x.full

/-- Sets the value for a level. -/
def set (x : ByDetail α) (d : Detail) (v : α) : ByDetail α :=
  match d with
  | .mod => { x with mod := some v }
  | .file => { x with file := some v }
  | .defn => { x with defn := some v }
  | .full => { x with full := some v }

end ByDetail

/-- For each level and key of the targets, how often they are used. -/
abbrev Targets (κ : Type) : Type := ByDetail (Counts κ Int)

/-- For each level and key of the sources, what they use. -/
abbrev Stats (κ : Type) : Type := ByDetail (Counts κ (Targets κ))

namespace Stats

variable {κ : Type} [BEq κ]

/-- Counts uses of one key by another, at given levels. -/
def add (s : Stats κ) (outer : Detail) (source : κ) (inner : Detail) (target : κ) (n : Int) :
    Stats κ :=
  let addTarget (t : Targets κ) : Targets κ :=
    t.set inner (Counts.alter target (fun old => old.getD 0 + n) ((t.get? inner).getD []))
  s.set outer (Counts.alter source (fun old => addTarget (old.getD {})) ((s.get? outer).getD []))

/-- How often a key is used by another one. -/
def count (s : Stats κ) (outer : Detail) (source : κ) (inner : Detail) (target : κ) : Int :=
  let targets := ((s.get? outer).bind fun l => l.find? fun e => e.1 == source).map Prod.snd
  let counts := targets.bind fun t => t.get? inner
  ((counts.bind fun l => l.find? fun e => e.1 == target).map Prod.snd).getD 0

end Stats

/-- Counts one use at all pairs of levels, both ways. -/
def countUse (s : Stats Key × Stats Key) (u : Use) : Stats Key × Stats Key :=
  Detail.all.foldl (fun s x =>
    Detail.all.foldl (fun s y =>
      let source := Key.ofLocation x u.source
      let target := Key.ofLocation y u.target
      (s.1.add x source y target 1, s.2.add y target x source 1)) s) s

/-- The statistics of uses by source, and by target. -/
def statsOf (uses : List Use) : Stats Key × Stats Key := uses.foldl countUse ({}, {})

end CBoundary.Survey
