import CBoundary.Access.Check
import CBoundary.Report

/-!
# Locations

A survey records what uses what.  Both ends of a use are locations: a definition,
the place of the use, and the lines of the text around it.
-/

namespace CBoundary.Survey

/-- A piece of a text, and the range in it that matters. -/
structure Snippet where
  text : String := ""
  range : Option Span := none
  deriving DecidableEq, Repr, Inhabited

/-- The lines in which a range lies, and the range in them. -/
def linesAt (s : List Char) (range : Option Span) : Snippet :=
  match range with
  | none => {}
  | some r =>
    if (s.length : Int) ≤ r.start then {}
    else
      let start := Text.clampBound s.length r.start
      let begin : Nat := ((Text.lastIndexOf? (· == '\n') (s.take start)).map (· + 1)).getD 0
      let stop := Text.clampBound s.length r.stop
      let finish := ((s.drop stop).findIdx? (· == '\n')).map (stop + ·) |>.getD s.length
      ⟨String.ofList ((s.take finish).drop begin), some ⟨r.start - begin, r.stop - begin⟩⟩

/-- One end of a use. -/
structure Location where
  moduleName : String
  file : String
  /-- Line and column of the definition. -/
  definedAt : Nat × Int
  /-- Line and column of the use. -/
  usedAt : Nat × Int
  kind : String
  name : String
  snippet : Snippet := {}
  /-- The record to which a field belongs. -/
  parent : Option String := none
  deriving DecidableEq, Repr, Inhabited

namespace Location

/-- The name, after that of the record it belongs to. -/
def fullName (l : Location) : String :=
  match l.parent with
  | some p => if p.isEmpty then l.name else s!"{p}.{l.name}"
  | none => l.name

/-- The location of a definition, used at an offset of its scope or not at all. -/
def ofDefinition (d : Definition) (useOffset : Option Int) (snippet : Snippet) : Location :=
  let definedAt := d.scope.linePos d.offset
  { moduleName := d.moduleName
    file := d.scope.file.name
    definedAt
    usedAt := (useOffset.map d.scope.linePos).getD definedAt
    kind := d.kind
    name := d.name
    snippet }

/-- The location of a field of a record. -/
def ofField (record field : Definition) : Location :=
  let definedAt := field.scope.linePos field.offset
  { moduleName := record.moduleName
    file := record.scope.file.name
    definedAt
    usedAt := definedAt
    kind := "field"
    name := field.name
    parent := some record.name }

/-- The display of a line and a column. -/
def displayPair (p : Nat × Int) : String := s!"({p.1}, {p.2})"

/-- The display of a location. -/
def display (l : Location) : String :=
  "LocationId(mod=" ++ Text.quote l.moduleName ++ ", file=" ++ Text.quote l.file ++
    ", lineColDefn=" ++ displayPair l.definedAt ++ ", lineColUse=" ++ displayPair l.usedAt ++
    ", kind=" ++ Text.quote l.kind ++ ", name=" ++ Text.quote l.name ++
    ", snippet=" ++ Text.quote l.snippet.text ++
    ", range=" ++ ((l.snippet.range.map fun r => s!"({r.start}, {r.stop})").getD "None") ++
    ", parentname=" ++ ((l.parent.map Text.quote).getD "None") ++ ")"

end Location

/-- The kinds of uses. -/
inductive UseKind where
  | expansion
  | call
  | field
  deriving DecidableEq, Repr, Inhabited

/-- The display of a kind of use. -/
def UseKind.display : UseKind → String
  | expansion => "<AccessType.MACRO: 0>"
  | call => "<AccessType.CALL: 1>"
  | field => "<AccessType.FIELD: 3>"

/-- A use of a target by a source. -/
structure Use where
  kind : UseKind
  source : Location
  target : Location
  deriving DecidableEq, Repr, Inhabited

/-- The display of a use. -/
def Use.display (u : Use) : String :=
  "Access(type=" ++ u.kind.display ++ ", src=" ++ u.source.display ++
    ", dst=" ++ u.target.display ++ ")"

/-- A range in a function's body as a location. -/
def placeIn (d : Definition) (r : Span) : Location :=
  let body := d.body
  .ofDefinition d (some (body.span.start + r.start)) (linesAt body.chars (some r))

/-- The uses that an event stands for. -/
def usesOf (cb : Codebase) (e : AccessEvent) : Option (List Use) :=
  match e.access with
  | .expansion x =>
    some (x.graph.entries.flatMap fun (owner, names) =>
      let source := if owner.isEmpty then e.source else (cb.macros.find? owner).getD e.source
      let location := Location.ofDefinition source (some x.point.new.start) {}
      names.filterMap fun n => (cb.macros.find? n).map fun d =>
        ⟨.expansion, location, .ofDefinition d none {}⟩)
  | .name span name =>
    (cb.names.find? name).map fun d =>
      [⟨.call, placeIn e.source span, .ofDefinition d none {}⟩]
  | .chain _ => none
  | .field _ type field span => do
    let d ← (← cb.fields.find? type).find? field
    let record ← cb.findType? type
    return [⟨.field, placeIn e.source span, .ofField record d⟩]

end CBoundary.Survey
