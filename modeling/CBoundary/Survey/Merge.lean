import CBoundary.Survey.Location

/-!
# Adding up results

Results of the same shape are added up: numbers by their sum, texts and lists one
after the other, tables name by name.
-/

namespace CBoundary.Survey

/-- A result. -/
inductive Value where
  | nothing
  | flag (b : Bool)
  | number (n : Int)
  | text (s : String)
  | list (l : List Value)
  | table (entries : List (String × Value))
  deriving Repr, Inhabited

/-- Why two results cannot be added up. -/
inductive MergeFault where
  /-- They are of different kinds. -/
  | kindsDiffer
  /-- There is no sum of two results of this kind. -/
  | noSum (kind : String)
  /-- It is not decided how a field is to be treated. -/
  | undecided
  deriving DecidableEq, Repr

/-- The wording of a refusal, for those that have one. -/
def MergeFault.message? : MergeFault → Option String
  | noSum kind => some s!"Unsupported type <class '{kind}'>"
  | _ => none

namespace Value

/-- The name of the kind of a result. -/
def kind : Value → String
  | nothing => "NoneType"
  | flag _ => "bool"
  | number _ => "int"
  | text _ => "str"
  | list _ => "list"
  | table _ => "dict"

/-- Sets the value under a name, which keeps its place if it is there. -/
def set (entries : List (String × Value)) (key : String) (v : Value) : List (String × Value) :=
  match entries with
  | [] => [(key, v)]
  | e :: es => if e.1 == key then (key, v) :: es else e :: set es key v

mutual

/-- The sum of two results under the same name. -/
def join (a : Value) (b : Value) : Except MergeFault Value :=
  match b with
  | number n =>
    match a with
    | number m => return number (m + n)
    | _ => throw .kindsDiffer
  | text t =>
    match a with
    | text s => return text (s ++ t)
    | _ => throw .kindsDiffer
  | list l =>
    match a with
    | list k => return list (k ++ l)
    | _ => throw .kindsDiffer
  | table es =>
    match a with
    | table old => return table (← joinAll old es)
    | _ => throw .kindsDiffer
  | flag _ => if a.kind == "bool" then throw (.noSum "bool") else throw .kindsDiffer
  | nothing => if a.kind == "NoneType" then throw (.noSum "NoneType") else throw .kindsDiffer

/-- Adds entries to others, name by name. -/
def joinAll (old : List (String × Value)) (new : List (String × Value)) :
    Except MergeFault (List (String × Value)) :=
  match new with
  | [] => return old
  | (key, v) :: es => do
    match old.find? fun e => e.1 == key with
    | none => joinAll (old ++ [(key, v)]) es
    | some e => joinAll (set old key (← join e.2 v)) es

end

/-- Adds a table to another one; other results cannot be added up by themselves. -/
def merge (a b : Value) : Except MergeFault Value :=
  match a, b with
  | table old, table new => return table (← joinAll old new)
  | _, _ => if a.kind == b.kind then throw (.noSum a.kind) else throw .kindsDiffer

end Value

/-- Adds up modules and files of two locations; at the positions the sum breaks off. -/
def Location.merge (a b : Location) : Location × MergeFault :=
  ({ a with moduleName := a.moduleName ++ b.moduleName, file := a.file ++ b.file }, .undecided)

end CBoundary.Survey
