import CBoundary.Audit
import CBoundary.Text.Clean
import CBoundary.Text.Json

/-!
# Module descriptions

A module describes itself in a comment of the `README.md` in its directory: the word `MODULE:`
and a JSON object with its fields.
-/

namespace CBoundary

open Audit
open Text (Json)

/-- A description found in a text: where it stands and what it says. -/
structure Description where
  pos : Nat
  chars : List Char
  deriving DecidableEq, Repr

namespace Description

/-- What follows a word at the front of a text and white space behind it. -/
def after? (word : String) (s : List Char) : Option (List Char) :=
  let w := word.toList
  if w.isPrefixOf s then some ((s.drop w.length).dropWhile Text.isSpace) else none

/-- The token that describes a module at the front of a text, and what follows the
comment. -/
def at? (s : List Char) : Option (List Char × List Char) := do
  let s ← after? "<!--" s
  let s ← after? "MODULE:" s
  let n := Lex.code.tokenLength s
  if n = 0 then none
  let rest := (s.drop n).dropWhile Text.isSpace
  let rest ← if "-->".toList.isPrefixOf rest then some (rest.drop 3) else none
  return (s, rest)

/-- The descriptions in a text of a given length. -/
def scan (length : Nat) (s : List Char) : List Description :=
  match s with
  | [] => []
  | c :: cs =>
    match at? (c :: cs) with
    | none => scan length cs
    | some (found, rest) =>
      ⟨length - found.length, found.take (Lex.code.tokenLength found)⟩ ::
        (if _h : rest.length < (c :: cs).length then scan length rest else [])
termination_by s.length
decreasing_by all_goals (simp only [List.length_cons] at *; omega)

/-- The fields that a description may give. -/
structure Fields where
  name : String := ""
  dirname : String := ""
  fileAliases : List String := []
  sourceAliases : List String := []
  deriving DecidableEq, Repr, Inhabited

/-- The text of a JSON string. -/
def text? : Json → Option String
  | .string s => some s
  | _ => none

/-- Does a JSON value stand for nothing? -/
def isBlank : Json → Bool
  | .null => true
  | .bool b => !b
  | .number n =>
    (n.toList.takeWhile fun c => c != 'e' && c != 'E').all fun c => c == '0' || c == '-' || c == '.'
  | .string s => s.isEmpty
  | .array l => l.isEmpty
  | .object l => l.isEmpty

/-- The texts of a JSON array of strings. -/
def texts? : Json → Option (List String)
  | .array l => l.mapM text?
  | _ => none

/-- The fields with one set, if there is such a field and the value fits; a blank directory is not
set. -/
def Fields.set? (f : Fields) (key : String) (v : Json) : Option Fields :=
  match key with
  | "name" => (text? v).map fun name => { f with name }
  | "dirname" =>
    if isBlank v then some { f with dirname := "" }
    else (text? v).map fun dirname => { f with dirname }
  | "fileAliases" => (texts? v).map fun fileAliases => { f with fileAliases }
  | "sourceAliases" => (texts? v).map fun sourceAliases => { f with sourceAliases }
  | _ => none

/-- The module with some fields. -/
def Fields.toModule (f : Fields) : Module :=
  Module.make f.name f.dirname f.fileAliases f.sourceAliases

/-- Reads a description over given fields. What is not JSON is reported; JSON of another form is a
fault. -/
def read (file : String) (text : List Char) (given : List (String × Json)) (d : Description) :
    Audit (Option Module) := do
  let cleaned := Text.dropNotes d.chars
  match Json.parse cleaned with
  | .error r =>
    trace .fatal .unknown (.badDescription file (Text.lineNumber text (some d.pos))
      (r.message cleaned) (String.ofList d.chars))
    return none
  | .ok (.object members) =>
    let some fields := (given ++ members).foldlM (fun (f : Fields) (k, v) => f.set? k v) {}
      | throw .malformedDescription
    let m := fields.toModule
    trace .debug3 .unknown (.addModule m)
    return some m
  | .ok _ => throw .malformedDescription

end Description

namespace Workspace

/-- Does something with each module a file describes. -/
def forDescriptions {α : Type} (tree : FileTree) (file : String) (given : List (String × Json))
    (step : α → Module → Audit α) (start : α) : Audit α := do
  let some text := tree.find? file | throw (.missingFile file)
  let s := Text.unifyLineBreaks text.toList
  (Description.scan s.length s).foldlM (fun acc d => do
    match ← d.read file s given with
    | some m => step acc m
    | none => return acc) start

/-- The modules described in a file: several, or the one it is named after. -/
def readModules (tree : FileTree) (name file : String) (given : List (String × Json)) :
    Audit (List Module) :=
  let file := if file.isEmpty && !name.isEmpty then s!"src/{name}/README.md" else file
  forDescriptions tree file (("name", .string name) :: given)
    (fun acc m => return acc ++ [m]) []

/-! ## Files below the root -/

/-- The paths below `src`, without what is hidden, in increasing order. -/
def sourcePaths (root : String) (tree : FileTree) : List (List String) :=
  let dir := Path.normalize (Path.join root "src") ++ "/"
  let paths := (tree.files.keys.filter fun k => k.startsWith dir).map fun k =>
    (k.drop dir.length).toString
  ((paths.map Path.parts).filter fun ps => ps.all fun p => !p.startsWith ".")

/-- The path of a file below `src`. -/
def sourcePath (root : String) (parts : List String) : String :=
  Path.join root ("src/" ++ "/".intercalate parts)

/-- Sorts paths. -/
def sortPaths (l : List String) : List String := l.mergeSort fun a b => a ≤ b

/-- The sources below the root whose names fulfil a condition, in increasing
order. -/
def filesWith (root : String) (tree : FileTree) (p : String → Bool) : List String :=
  sortPaths (((sourcePaths root tree).filter fun ps => p (ps.getLastD "")).map (sourcePath root))

/-- The descriptions of modules below the root. -/
def readmes (root : String) (tree : FileTree) : List String :=
  sortPaths (((sourcePaths root tree).filter fun ps =>
    ps.length == 2 && ps.getLast? == some "README.md").map (sourcePath root))

/-- All headers but the inline ones. -/
def headerFiles (root : String) (tree : FileTree) : List String :=
  filesWith root tree fun n => n.endsWith ".h" && !n.endsWith "_inline.h"

/-- All inline headers. -/
def inlineFiles (root : String) (tree : FileTree) : List String :=
  filesWith root tree fun n => n.endsWith "_inline.h"

/-- All sources that are no headers. -/
def codeFiles (root : String) (tree : FileTree) : List String :=
  filesWith root tree fun n => n.endsWith ".c"

/-- All sources: headers, then inline headers, then the rest. -/
def allFiles (root : String) (tree : FileTree) : List String :=
  headerFiles root tree ++ inlineFiles root tree ++ codeFiles root tree

/-- The workspace of a root, with the modules described there. -/
def ofRoot (tree : FileTree) (path : String) : Audit Workspace := do
  let root := Path.normalize path
  (readmes root tree).foldlM (fun w file =>
    forDescriptions tree file [("name", .string (Path.baseName (Path.dirName file)))]
      (fun (w : Workspace) m =>
        match w.addModule m with
        | .ok w => return w
        | .error e => throw (.modules e)) w) { root }

end Workspace

end CBoundary
