import CBoundary.Survey.Location
import CBoundary.Text.Pattern

/-!
# Filters

A filter selects definitions or locations:

* `module`: a module of the workspace, or an alias of one
* `[module]`: a module, by name or by pattern
* `(type)`: a type, by name or by pattern
* `(type).field`: a field, both by name or by pattern
* `*name`: anything of that name, or that matches the pattern
* `file`: what is in a file with that end of its name
* `name`: anything of that name, or that matches the pattern

A pattern stands between slashes.  What a search for a pattern finds is left open
first, and fixed where filters are used.
-/

namespace CBoundary.Survey

/-- The text inside its first and last character. -/
def inside (s : String) : String := Text.interiorOf s

/-- Does a text start and end with given characters?  It may be one and the same
character. -/
def framed (first last : Char) (s : String) : Bool :=
  s.toList.head? == some first && s.toList.getLast? == some last

variable (search : String → String → Bool)

/-- Does a name fit a filter: an empty one, the same name, or a pattern between slashes? -/
def fitsName (filter value : String) : Bool :=
  if filter.isEmpty then true
  else if framed '/' '/' filter then search (inside filter) value
  else value == filter

/-- Does a type, or the alias of one, fit a filter? -/
def fitsType (cb : Codebase) (filter value : String) : Bool :=
  if filter.isEmpty then true
  else if framed '/' '/' filter then search (inside filter) value
  else value == cb.untypedef filter

/-- Takes off parentheses around a text as long as there are any. -/
def dropParens (s : List Char) : List Char :=
  match s with
  | [] => []
  | [c] => [c]
  | c :: d :: cs =>
    if c == '(' && (d :: cs).getLast? == some ')' then dropParens (Text.interior (c :: d :: cs))
    else s
termination_by s.length
decreasing_by grind [Text.interior]

/-- Takes off parentheses around a text as long as there are two of them in
front. -/
def dropDoubleParens (s : List Char) : List Char :=
  match s with
  | '(' :: '(' :: cs =>
    if ('(' :: cs).getLast? == some ')' then dropDoubleParens (Text.interior ('(' :: '(' :: cs))
    else s
  | _ => s
termination_by s.length
decreasing_by grind [Text.interior]

/-- The type that a filter names in parentheses, which stay if there are colons in them. -/
def unparenthesize (filter : String) : String :=
  let s := filter.toList
  String.ofList (if s.contains ':' then dropDoubleParens s else dropParens s)

/-- The type and the field behind the last dot of a nonempty filter. -/
def splitField? (filter : String) : Option (String × String) :=
  let s := filter.toList
  match s.getLast? with
  | none => none
  | some last =>
    match if last == ')' then none else Text.lastIndexOf? (· == '.') s with
    | none => some (unparenthesize filter, "")
    | some i => some (unparenthesize (String.ofList (s.take i)), String.ofList (s.drop (i + 1)))

/-- The type and the field that a filter names. -/
def splitField (filter : String) : String × String := (splitField? filter).getD ("", "")

/-- The module of the workspace that a filter names. -/
def namedModule? (w : Workspace) (filter : String) : Option String :=
  if w.modules.contains filter then some filter else w.sourceAliases.find? filter

/-- Does a location fit a filter, by a search for patterns? -/
def locationFits (w : Workspace) (cb : Codebase) (filter : String) (l : Location) : Bool :=
  if filter.isEmpty then true
  else if framed '[' ']' filter then l.moduleName == inside filter
  else
    match namedModule? w filter with
    | some m => m == l.moduleName
    | none =>
      if filter.startsWith "(" && l.kind == "field" then
        match l.parent with
        | none => false
        | some parent =>
          if parent.isEmpty then false
          else if filter.endsWith ")" then fitsType search cb (inside filter) parent
          else
            let (type, field) := splitField filter
            fitsName search field l.name && fitsType search cb type parent
      else if filter.startsWith "*" then fitsName search ((filter.drop 1).toString) l.name
      else
        let inFile := !l.file.isEmpty && l.file.endsWith filter
        if filter.contains '/' || filter.contains '.' then inFile
        else inFile || fitsName search filter l.name

/-- Does a definition fit a filter, inside the record looked at? -/
def definitionFits (w : Workspace) (cb : Codebase) (record : String) (filter : String)
    (d : Definition) : Bool :=
  if filter.isEmpty then true
  else if framed '[' ']' filter then fitsName search (inside filter) d.moduleName
  else
    match namedModule? w filter with
    | some m => m == d.moduleName
    | none =>
      if filter.startsWith "(" then
        if filter.endsWith ")" then d.kind == "record" && fitsType search cb (inside filter) d.name
        else if d.kind != "field" || record.isEmpty then false
        else
          let (type, field) := splitField filter
          fitsName search field d.name && fitsType search cb type record
      else if filter.startsWith "*" then fitsName search ((filter.drop 1).toString) d.name
      else d.scope.file.name.endsWith filter || fitsName search filter d.name

/-- Does a location fit a filter? -/
def fitsLocation (w : Workspace) (cb : Codebase) (filter : String) (l : Location) : Bool :=
  locationFits Text.matchesPattern w cb filter l

/-- The record looked at after a definition: a record opens its own, and a field stays inside. -/
def enclosing (record : String) (d : Definition) : String :=
  if d.kind == "record" then d.name else if d.kind == "field" then record else ""

/-- Does a definition fit a filter? The state is the record looked at. -/
def fits (w : Workspace) (cb : Codebase) (filter : String) (d : Definition) : StateM String Bool := do
  modify fun record => enclosing record d
  return definitionFits Text.matchesPattern w cb (← get) filter d

/-- Does a definition fit one of some filters? -/
def fitsAny (w : Workspace) (cb : Codebase) (d : Definition) : List String → StateM String Bool
  | [] => return false
  | f :: fs => do if ← fits w cb f d then return true else fitsAny w cb d fs

/-- What a survey is asked to show. -/
structure Selection where
  /-- Include what belongs to no module. -/
  unmodular : Bool := false
  sources : Option (List String) := none
  listed : Option (List String) := none
  metrics : Option (List String) := none
  deriving DecidableEq, Repr, Inhabited

/-- The filters given; none is as good as an empty list. -/
def given (filters : Option (List String)) : List String := filters.getD []

/-- Is a definition to be looked at for uses? -/
def Selection.wantsScan (x : Selection) (w : Workspace) (cb : Codebase) (d : Definition) :
    StateM String Bool :=
  if !x.unmodular && d.moduleName.isEmpty then return false
  else if (given x.sources).isEmpty then return true
  else fitsAny w cb d (given x.sources)

/-- Is a definition to be listed? -/
def Selection.wantsListed (x : Selection) (w : Workspace) (cb : Codebase) (d : Definition) :
    StateM String Bool :=
  if d.moduleName.isEmpty then return (given x.listed).isEmpty && x.unmodular
  else if (given x.listed).isEmpty then return true
  else fitsAny w cb d (given x.listed)

/-- Does a definition count in the metrics? -/
def Selection.wantsMetric (x : Selection) (d : Definition) : Bool :=
  if d.moduleName.isEmpty then x.unmodular
  else (given x.metrics).isEmpty || (given x.metrics).contains d.moduleName

end CBoundary.Survey
