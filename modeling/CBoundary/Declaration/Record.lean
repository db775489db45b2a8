import CBoundary.Statement.Basic

/-!
# Records

A record is a structure, a union or an enumeration with a body.  The names behind the body are
variables, or with `typedef` further names of the type.  A record without a name is named after
the place of its body; the members of one that declares nothing count as members of the
enclosing record.
-/

namespace CBoundary

/-- What a record is. -/
inductive RecordKind where
  | undef
  | struct
  | union
  | enum
  deriving DecidableEq, Repr, Inhabited

/-- The display of a record kind. -/
def RecordKind.name : RecordKind → String
  | undef => "UNDEF"
  | struct => "STRUCT"
  | union => "UNION"
  | enum => "ENUM"

/-- The number of a record kind. -/
def RecordKind.number : RecordKind → Nat
  | undef => 0
  | struct => 1
  | union => 2
  | enum => 3

/-- A record with a body. -/
structure RecordDecl where
  kind : RecordKind := .undef
  name : Token
  /-- The words of the record as a type. -/
  type : List Token := []
  body : Option Token := none
  members : Option (List Variable) := none
  typedefs : Option (List Variable) := none
  vardefs : Option (List Variable) := none
  preComment : Option Token := none
  postComment : Option Token := none
  nested : Option (List RecordDecl) := none
  parent : Option String := none
  unnamed : Bool := false
  scope : Scope := .blank
  /-- The number of the entry in a code base through which it came in. -/
  entry : Nat := 0
  deriving Inhabited

namespace RecordDecl

/-- What tells a record from all others: its entry, its scope and its name's place. -/
def site (r : RecordDecl) : Nat × Int × Int := (r.entry, r.scope.offset, r.name.span.start)

/-- What the words in front of a body say. -/
structure Front where
  kind : RecordKind := .undef
  name : Option Token := none
  isTypedef : Bool := false
  deriving Repr

/-- Reads the words in front of the body, and finds the body with what follows it. -/
def readFront (f : Front) : List Token → Option (Front × Token × List Token)
  | [] => none
  | t :: ts =>
    if t.value == "typedef" then readFront { f with isTypedef := true } ts
    else if t.value == "struct" then readFront { f with kind := .struct } ts
    else if t.value == "union" then readFront { f with kind := .union } ts
    else if t.value == "enum" then readFront { f with kind := .enum } ts
    else if t.isQualifier then readFront f ts
    else if t.isLongName then readFront { f with name := some t } ts
    else if t.kind == .brace then some (f, t.interior, ts)
    else if t.kind == .separator then none
    else readFront f ts

/-- The record that a statement declares; the kind of its first code is settled. -/
def ofTokens (c : Context) (ts : List Token) (parent : Option String) :
    Except Fault (Option RecordDecl) := do
  let some lead := Tokens.lead? ts | throw .noTokens
  let rest := ts.drop lead.next
  let rest := if lead.comment.isNone then (rest.take 1).map Token.settled ++ rest.drop 1 else rest
  let some (front, body, tail) := readFront {} rest | return none
  let name := front.name.getD
    ⟨body.idx, body.span, "(" ++ c.location body.span.start ++ ")", none⟩
  let vars := (Statement.ofTokens tail).filterMap fun s =>
    (Variable.ofDefinition c.scope s.tokens).map fun v => { v with type := some [name] }
  return some {
    kind := front.kind
    name
    type := [name]
    body := some body
    typedefs := if front.isTypedef then some vars else none
    vardefs := if front.isTypedef then none else some vars
    preComment := lead.comment
    postComment := Tokens.postComment ts
    parent
    unnamed := !front.isTypedef && front.name.isNone && vars.isEmpty
    scope := c.scope }

/-- Length of the body of a record. -/
def bodyLength (r : RecordDecl) : Nat := (r.body.map fun b => b.value.length).getD 0

/-- Members and inner records read so far, and the type that the next member
inherits. -/
structure Reading where
  members : List Variable := []
  nested : List RecordDecl := []
  inherited : Option (List Token) := none

/-- Adds a declared variable to the members. -/
def Reading.addVariable (r : Reading) : Option Variable → Reading
  | some v =>
    let v := v.inherit r.inherited
    { r with members := r.members ++ [v], inherited := v.handsOn }
  | none => { r with inherited := none }

/-- Adds an inner record whose members are known. -/
def Reading.addRecord (r : Reading) (inner : RecordDecl) : Reading :=
  let vars := inner.vardefs.getD []
  let shown :=
    if !vars.isEmpty then vars
    else if inner.unnamed then inner.members.getD []
    else []
  { r with members := r.members ++ shown, nested := r.nested ++ [inner] }

/-- The record with its members and inner records read off its body. -/
def withMembers (c : Context) (r : RecordDecl) : Except Fault RecordDecl :=
  match r.members, r.body with
  | some _, _ => .ok r
  | none, none => .ok { r with members := some [] }
  | none, some body => do
    let c := c.enterPiece body.span.start
    let read ← (Statement.scan body.chars 0).foldlM (fun (acc : Reading) s => do
      let k ← s.kind
      if k.isDirective then return acc
      if k.isRecord then
        match ← ofTokens c s.tokens (some r.name.value) with
        | none => return acc
        | some inner =>
          if _h : inner.bodyLength < r.bodyLength then
            return acc.addRecord (← withMembers c inner)
          else return acc.addRecord inner
      return acc.addVariable (Variable.ofDefinition c.scope s.tokens)) {}
    return { r with
      members := some read.members
      nested := if read.nested.isEmpty then r.nested else some (r.nested.getD [] ++ read.nested) }
termination_by r.bodyLength

/-! ## Changes throughout a record -/

theorem sizeOf_nested_lt {r n : RecordDecl} {l : List RecordDecl} (h : r.nested = some l)
    (hn : n ∈ l) : sizeOf n < sizeOf r := by
  cases r
  simp only at h
  subst h
  have := List.sizeOf_lt_of_mem hn
  simp only [mk.sizeOf_spec, Option.some.sizeOf_spec]
  omega

/-- Changes the inner records and then the record itself. -/
def mapTree (f : RecordDecl → RecordDecl) (r : RecordDecl) : RecordDecl :=
  match _h : r.nested with
  | none => f r
  | some l => f { r with nested := some (l.attach.map fun n => mapTree f n.1) }
termination_by sizeOf r
decreasing_by exact sizeOf_nested_lt _h n.2

/-- Changes the variables of a record, not those of inner records. -/
def mapOwn (f : Variable → Variable) (r : RecordDecl) : RecordDecl :=
  { r with
    members := r.members.map (List.map f)
    typedefs := r.typedefs.map (List.map f)
    vardefs := r.vardefs.map (List.map f) }

/-- Changes all variables of a record and its inner records. -/
def mapVariables (f : Variable → Variable) (r : RecordDecl) : RecordDecl := r.mapTree (mapOwn f)

/-- Changes the entry numbers of a record and of all in it. -/
def renumber (f : Nat → Nat) (r : RecordDecl) : RecordDecl :=
  r.mapTree fun r => { r.mapOwn (fun v => { v with entry := f v.entry }) with entry := f r.entry }

/-- Brings every copy of a record inside another one up to date. -/
def refresh (new r : RecordDecl) : RecordDecl :=
  r.mapTree fun n => if n.site == new.site then new else n

/-- Brings every copy of a variable up to date. -/
def refreshVariable (new : Variable) (r : RecordDecl) : RecordDecl := r.mapVariables new.refresh

end RecordDecl

end CBoundary
