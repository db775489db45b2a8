import CBoundary.Access.Check

/-!
# Renaming fields

A table names new names for fields of records.  Every access to one of these fields becomes a
patch of the file in which it stands.  Patches are applied in the order of their ranges, those of
one range in the order in which they were made.
-/

namespace CBoundary

/-! ## Patches -/

/-- A range of a text and what replaces it. -/
structure Patch where
  span : Span
  text : String
  deriving DecidableEq, Repr, Inhabited

namespace Patch

/-- Does the range of a patch not come after that of another one? -/
def le (a b : Patch) : Bool :=
  a.span.start < b.span.start || (a.span.start == b.span.start && a.span.stop ≤ b.span.stop)

/-- Applies patches in their order, from a position on; what stands between is kept. -/
def applyFrom (s : List Char) (pos : Int) : List Patch → List Char
  | [] => Text.sliceFrom s pos
  | p :: ps =>
    (if pos < p.span.start then Text.slice s pos p.span.start else []) ++ p.text.toList ++
      applyFrom s p.span.stop ps

/-- The text with patches applied. -/
def apply (s : List Char) (ps : List Patch) : List Char := applyFrom s 0 (ps.mergeSort le)

end Patch

/-! ## Fields -/

/-- New names for fields, by record and old name. -/
abbrev RenameTable : Type := Table (Table String)

namespace Rename

open Audit

/-- A file in which a field was accessed, with the patch that renames it. -/
structure Edit where
  file : String
  patch : Option Patch
  deriving DecidableEq, Repr, Inhabited

/-- Does a text, between word boundaries, stand at the front of another one? -/
def isWordAt (before : Option Char) (s name : List Char) : Bool :=
  name.isPrefixOf s && Text.isBoundary before s.head? &&
    Text.isBoundary (match name.getLast? with
      | some c => some c
      | none => before) (s.drop name.length).head?

/-- Does one of some names stand between word boundaries anywhere in a text? -/
def mentionsFrom (names : List (List Char)) (before : Option Char) : List Char → Bool
  | [] => names.any (isWordAt before [])
  | c :: cs => names.any (isWordAt before (c :: cs)) || mentionsFrom names (some c) cs

/-- Does a text mention a field of a table?  If there are none, any word will do. -/
def mentions (table : RenameTable) (s : List Char) : Bool :=
  let names := table.values.flatMap fun t => t.keys.map String.toList
  mentionsFrom (if names.isEmpty then [[]] else names) none s

/-- Renames one access to a field in the text of a file; where the field is not found, it is
reported. -/
def renameAccess (d : Definition) (text : List Char) (chain : AccessChain)
    (type field newName : String) (span : Span) : Audit (Option Patch) := do
  let body := d.body
  let range : Span := ⟨span.start + body.span.start, span.stop + body.span.start⟩
  let inBody := String.ofList (Text.slice body.chars span.start span.stop)
  let inFile := String.ofList (Text.slice text range.start range.stop)
  let place := d.scope.location range.start
  if inBody != field || field != inFile then
    Audit.trace .quiet (.remark place) (.words
      [s!"Field access mismatch in {d.name}: <{field}> == <{inBody}> == <{inFile}>"])
    return none
  else
    print (place ++ s!" Field access in {d.name}: " ++ chain.display ++
      s!": {type}:{field} -> {newName}\n")
    return some ⟨range, newName⟩

/-- Renames what an event accesses, if the table says so. -/
def renameEvent (cb : Codebase) (tree : FileTree) (table : RenameTable) (e : AccessEvent) :
    Audit (List Edit) := do
  match e.access with
  | .field chain type field span =>
    let type := cb.untypedef type
    match (table.find? type).bind fun t => t.find? field with
    | none => return []
    | some newName =>
      let file := e.source.scope.file.name
      let some text := tree.find? file | throw (.missingFile file)
      let text := Text.unifyLineBreaks text.toList
      return [⟨file, ← renameAccess e.source text chain type field newName span⟩]
  | _ => return []

/-- The functions in which a field of a table may be accessed. -/
def candidates (cb : Codebase) (table : RenameTable) : List Definition :=
  (Checker.functions cb).filter fun d =>
    let body := d.body.chars
    !body.isEmpty && mentions table body

/-- Renames the fields of a table. -/
def renameFields (cb : Codebase) (tree : FileTree) (table : RenameTable) :
    Audit (Codebase × List Edit) := do
  let k := Checker.ofCodebase cb
  let (_, edits) ← k.scanDefinitions false (renameEvent k.codebase tree table)
    (candidates k.codebase table)
  return (k.codebase, edits)

/-- Renames the fields of one table after the other. -/
def renameAll (cb : Codebase) (tree : FileTree) : List RenameTable → Audit (List Edit)
  | [] => return []
  | t :: ts => do
    let (cb, edits) ← renameFields cb tree t
    return edits ++ (← renameAll cb tree ts)

/-- The files of some edits with their patches, in the order in which they came up. -/
def patchesByFile (edits : List Edit) : Table (List Patch) :=
  edits.foldl (fun t e => t.insert e.file ((t.find? e.file).getD [] ++ e.patch.toList)) {}

/-- Writes the patched files; patches are for the texts before any was written. -/
def writePatches (tree : FileTree) (t : Table (List Patch)) : Audit FileTree := do
  if t.isEmpty then
    print "No patches to apply.\n"
    return tree
  print "Applying patches:\n"
  let written ← t.entries.foldlM (fun (written : FileTree) (file, patches) => do
    if patches.isEmpty then return written
    print s!"{file}: Applying {patches.length} patches.\n"
    let text := Text.unifyLineBreaks ((tree.find? file).getD "").toList
    return written.write file (String.ofList (Patch.apply text patches))) tree
  let total := t.values.flatten.length
  print s!"Total patches applied: {total}\n"
  return written

end Rename

end CBoundary
