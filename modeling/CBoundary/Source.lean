import CBoundary.Workspace.Module

/-!
# Sources

A source file knows where its lines break and how offsets in its expanded text map back to the
text on disk, so that any offset can be shown as a line and a column.  A scope says in which file
the piece of text lies that is being read, and where it starts.
-/

namespace CBoundary

/-! ## File trees -/

/-- The files below a directory. -/
structure FileTree where
  files : Table String := {}
  deriving Repr, Inhabited

namespace FileTree

/-- The text of a file as it stands on disk. -/
def find? (t : FileTree) (path : String) : Option String := t.files.find? (Path.normalize path)

/-- The tree with a file written. -/
def write (t : FileTree) (path text : String) : FileTree :=
  ⟨t.files.insert (Path.normalize path) text⟩

/-- The tree of some files. -/
def ofList (l : List (String × String)) : FileTree := l.foldl (fun t e => t.write e.1 e.2) {}

end FileTree

/-! ## Insert points -/

/-- One replacement in an expanded text. -/
structure InsertPoint where
  orig : Span
  new : Span
  delta : Int
  deriving DecidableEq, Repr, Inhabited

/-- What was expanded at an insert point: the names that each macro brought in. The empty name
stands for the text itself. -/
structure Expansions where
  point : InsertPoint
  graph : Table (List String) := {}
  deriving Repr, Inhabited

/-- Enters a name into an increasing list of names. -/
def insertName (name : String) : List String → List String
  | [] => [name]
  | n :: ns =>
    if name < n then name :: n :: ns
    else if n == name then n :: ns
    else n :: insertName name ns

/-! ## Source files -/

/-- The index at which a value belongs in an array, found by halving. -/
def bisect {α : Type} (a : Array α) (below : α → Bool) : Nat := go 0 a.size
where
  /-- Halves the interval in which the index lies. -/
  go (lo hi : Nat) : Nat :=
    if _h : lo < hi then
      let mid := (lo + hi) / 2
      if (a[mid]?).any below then go (mid + 1) hi else go lo mid
    else lo
  termination_by hi - lo

/-- A source file. -/
structure SourceFile where
  name : String
  moduleName : String := ""
  isPrivate : Option Bool := none
  /-- Offsets of the line breaks, once known. -/
  lineBreaks : Option (Array Int) := none
  /-- What was expanded, in the order of the text. -/
  expandList : Array Expansions := #[]
  kind : FileKind := .other
  /-- Start of each replacement in the expanded text, with the growth up to its
  end. -/
  offsetMap : Array (Int × Int) := #[]
  deriving Repr, Inhabited

namespace SourceFile

/-- The file with a given name in a workspace. -/
def ofName (w : Workspace) (name : String) : SourceFile where
  name := name
  moduleName := w.moduleOfFile name
  isPrivate := if (name.splitOn "_private").length > 1 then some true else none
  kind := FileKind.ofName name

/-- The file without a name. -/
def blank : SourceFile := { name := "" }

/-- Records the line breaks, unless they are known. -/
def fillLines (f : SourceFile) (s : List Char) : SourceFile :=
  match f.lineBreaks with
  | some _ => f
  | none =>
    { f with lineBreaks := some ((s.mapIdx fun i c => (i, c)).foldl
        (fun a (i, c) => if c = '\n' then a.push (i : Int) else a) #[]) }

/-- Records the replacements that led to the expanded text. -/
def setInserts (f : SourceFile) (inserts : List InsertPoint) : SourceFile :=
  { f with offsetMap := (inserts.foldl (fun (a, grown) p =>
      (a.push (p.new.start, grown + p.delta), grown + p.delta))
      ((#[(0, 0)] : Array (Int × Int)), (0 : Int))).1 }

/-- The offset on disk of an offset in the expanded text; up to the first entry of the map it is
moved by the whole growth. -/
def origOffset (f : SourceFile) (offset : Int) : Int :=
  let i := bisect f.offsetMap fun e => e.1 < offset
  let entry := if i = 0 then f.offsetMap.back? else f.offsetMap[i - 1]?
  offset - (entry.map Prod.snd).getD 0

/-- Line and column of an offset; both count from zero up to the first line break. -/
def linePos (f : SourceFile) (offset : Int) : Nat × Int :=
  let offset := f.origOffset offset
  let breaks := f.lineBreaks.getD #[]
  if breaks.isEmpty then (0, offset)
  else
    let line := bisect breaks (· < offset)
    (line + 1, if line = 0 then offset else offset - (breaks[line - 1]?).getD 0)

/-- Line and column with a colon between them. -/
def linePosText (f : SourceFile) (offset : Int) : String :=
  let (line, pos) := f.linePos offset
  s!"{line}:{pos}"

/-- File name, line and column. -/
def location (f : SourceFile) (offset : Int) : String := s!"{f.name}:{f.linePosText offset}:"

/-- The expansions that start inside a span. -/
def expansionsIn (f : SourceFile) (span : Span) : List Expansions :=
  let i := bisect f.expandList fun e => e.point.new.start < span.start
  (f.expandList.toList.drop i).takeWhile fun e => e.point.new.start < span.stop

end SourceFile

/-! ## Scopes -/

/-- A file and an offset in it. -/
structure Scope where
  file : SourceFile
  offset : Int
  deriving Repr, Inhabited

namespace Scope

/-- The start of the file without a name. -/
def blank : Scope := ⟨.blank, 0⟩

/-- Line and column of an offset in the scope. -/
def linePos (s : Scope) (offset : Int) : Nat × Int := s.file.linePos (s.offset + offset)

/-- Line and column with a colon between them. -/
def linePosText (s : Scope) (offset : Int) : String := s.file.linePosText (s.offset + offset)

/-- File name, line and column of an offset. -/
def location (s : Scope) (offset : Int) : String := s.file.location (s.offset + offset)

end Scope

/-- What an analysis knows: the workspace, and the scopes with the innermost first. -/
structure Context where
  workspace : Workspace := {}
  scopes : List Scope := []
  deriving Repr, Inhabited

namespace Context

/-- The innermost scope. -/
def scope (c : Context) : Scope := c.scopes.headD .blank

/-- The file of the innermost scope. -/
def file (c : Context) : SourceFile := c.scope.file

/-- The offset of the innermost scope. -/
def offset (c : Context) : Int := c.scope.offset

/-- Enters a scope. -/
def enter (c : Context) (s : Scope) : Context := { c with scopes := s :: c.scopes }

/-- Enters a file. -/
def enterFile (c : Context) (f : SourceFile) (offset : Int) : Context := c.enter ⟨f, offset⟩

/-- Enters a piece of the innermost scope. -/
def enterPiece (c : Context) (offset : Int) : Context := c.enter ⟨c.file, c.offset + offset⟩

/-- Leaves the innermost scope, if there is one. -/
def leave? (c : Context) : Option Context :=
  match c.scopes with
  | [] => none
  | _ :: ss => some { c with scopes := ss }

/-- Where an offset in the innermost scope lies; a dash is for no scope. -/
def location (c : Context) (offset : Int) : String :=
  match c.scopes with
  | [] => s!"-:0:{offset}:"
  | s :: _ => s.location offset

end Context

end CBoundary
