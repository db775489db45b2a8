import CBoundary.Table
import CBoundary.Text.Path
import CBoundary.Text.Quoted

/-!
# Modules of a workspace

A module owns a directory below `src/`, and may have further names: aliases for directories and
headers, and aliases that occur in identifiers.  The module of a file follows from its path.
-/

namespace CBoundary

/-- A module of the code. -/
structure Module where
  name : String
  dirname : String
  fileAliases : List String
  sourceAliases : List String
  deriving DecidableEq, Repr, Inhabited

namespace Module

/-- A module lives in the directory of its name unless another one is given. -/
def make (name dirname : String) (fileAliases sourceAliases : List String) : Module :=
  ⟨name, if dirname.isEmpty then name else dirname, fileAliases, sourceAliases⟩

/-- The display of a module. -/
def display (m : Module) : String :=
  "Module(name=" ++ Text.quote m.name ++ ", dirname=" ++ Text.quote m.dirname ++
    ", fileAliases=" ++ Text.quoteList m.fileAliases ++
    ", sourceAliases=" ++ Text.quoteList m.sourceAliases ++ ")"

end Module

/-- Why a list of modules is refused. -/
inductive ModuleConflict where
  | unnamed (m : Module)
  | duplicate (name : String)
  | directory (dirname owner : String)
  | fileAlias (given name owner : String)
  | sourceAlias (given name owner : String)
  deriving DecidableEq, Repr

/-- The wording of a refusal. -/
def ModuleConflict.message : ModuleConflict → String
  | unnamed m => "Module doesn't have a name: " ++ m.display
  | duplicate name => s!"Module {name} already exists"
  | directory dirname owner => s!"Module directory {dirname} conflicts with [{owner}]"
  | fileAlias given name owner =>
    s!"Module file alias {given} for [{name}] conflicts with [{owner}]"
  | sourceAlias given name owner =>
    s!"Module source alias {given} for [{name}] conflicts with [{owner}]"

/-- The kinds of files that matter. -/
inductive FileKind where
  | other
  | source
  | inlineHeader
  | header
  deriving DecidableEq, Repr, Inhabited

namespace FileKind

/-- The kind of a file, by the end of its name. -/
def ofName (name : String) : FileKind :=
  if name.endsWith ".c" then source
  else if name.endsWith "_inline.h" then inlineHeader
  else if name.endsWith ".h" then header
  else other

/-- The sign of a kind. -/
def sign : FileKind → String
  | other => ""
  | source => "c"
  | inlineHeader => "i"
  | header => "h"

/-- How much a definition in a file counts; a nameless file counts nothing. -/
def priority (name : String) : Nat :=
  match ofName name with
  | source => 4
  | inlineHeader => 3
  | header => 2
  | other => if name.isEmpty then 0 else 1

end FileKind

/-- A root directory and the modules below it. -/
structure Workspace where
  root : String := ""
  modules : Table Module := {}
  dirs : Table String := {}
  fileAliases : Table String := {}
  sourceAliases : Table String := {}
  deriving Repr, Inhabited

namespace Workspace

/-- Adds a module, unless one of its names is taken. -/
def addModule (w : Workspace) (m : Module) : Except ModuleConflict Workspace := do
  if m.name.isEmpty then throw (.unnamed m)
  if w.modules.contains m.name then throw (.duplicate m.name)
  if let some owner := w.dirs.find? m.dirname then throw (.directory m.dirname owner)
  let fileAliases ← m.fileAliases.foldlM (fun t a => do
    if let some owner := t.find? a then throw (ModuleConflict.fileAlias a m.name owner)
    return t.insert a m.name) w.fileAliases
  let sourceAliases ← m.sourceAliases.foldlM (fun t a => do
    if let some owner := t.find? a then throw (ModuleConflict.sourceAlias a m.name owner)
    return t.insert a m.name) w.sourceAliases
  return { w with
    modules := w.modules.insert m.name m
    dirs := w.dirs.insert m.dirname m.name
    fileAliases
    sourceAliases }

/-- The workspace with a new list of modules in place of the old one. -/
def setModules (w : Workspace) (ms : List Module) : Except ModuleConflict Workspace :=
  ms.foldlM addModule { root := w.root }

/-- The module names and aliases in identifiers. -/
def sourceNames (w : Workspace) : List String := w.modules.keys ++ w.sourceAliases.keys

/-- The module name in a path: the directory below `src/`, or that of a header in `include/`,
without what marks it as inline or private. -/
def moduleWord (w : Workspace) (path : String) : String :=
  let base := Path.join w.root "src/"
  if !path.startsWith base then ""
  else
    let rest := (path.drop base.length).toString
    if !rest.startsWith "include/" then (Path.parts rest).headD ""
    else
      let word := Path.stem (Path.baseName rest)
      let word :=
        if word.endsWith "_inline" then (word.dropEnd 7).toString
        else if word.endsWith "_private" then (word.dropEnd 8).toString
        else word
      if word == "wt_internal" || word == "extern" then "" else word

/-- The module of a file; the empty name if it belongs to none. -/
def moduleOfFile (w : Workspace) (path : String) : String :=
  let word := w.moduleWord path
  let word := (w.fileAliases.find? word).getD word
  if !(w.moduleWord path).isEmpty && w.modules.contains word then word else ""

end Workspace

end CBoundary
