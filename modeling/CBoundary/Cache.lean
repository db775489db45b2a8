import CBoundary.Audit

/-!
# Kept results

A result is kept in a file below the root, under the name of the source from which
it was computed.  It is as good as a new one as long as it is not older than what
it depends on, where a second does not count.
-/

namespace CBoundary.Cache

/-- What a file holds. -/
inductive Content (α : Type) where
  /-- Nothing that was kept here. -/
  | plain
  /-- A result; it may be that there is none. -/
  | result (value : Option α)
  /-- Something that is no result. -/
  | damaged
  /-- The front of a result. -/
  | truncated
  deriving DecidableEq, Repr, Inhabited

/-- A file: when it was written, and what it holds. -/
structure File (α : Type) where
  time : Int
  content : Content α := .plain
  deriving DecidableEq, Repr, Inhabited

/-- The files of a workspace by their normal paths. -/
structure Store (α : Type) where
  root : String := ""
  /-- The present time.  Directories count as changed just now. -/
  present : Int := 0
  files : Table (File α) := {}
  deriving Repr, Inhabited

/-! ## Paths -/

/-- Where results are kept. -/
def directory (root : String) : String := Path.join root "build/.parsecache"

/-- A directory to start from.  Nothing depends on its name, only on its depth. -/
def workingDirectory : String := "/1/2/3/4/5/6/7/8/9"

/-- The path of a source from the root, or from that of all paths. -/
def sourceName (root source : String) : String :=
  if !root.isEmpty && source.startsWith root then Path.relative workingDirectory source root
  else if Path.isAbsolute source then Path.relative workingDirectory source "/"
  else source

/-- The path of a kept result, if there is a root. -/
def path? (root source suffix : String) : Option String :=
  if root.isEmpty then none
  else some (Path.join (directory root) (sourceName root source ++ suffix))

namespace Store

variable {α : Type}

/-- The file at a path. -/
def file? (s : Store α) (path : String) : Option (File α) := s.files.find? (Path.normalize path)

/-- Writes a file. -/
def write (s : Store α) (path : String) (f : File α) : Store α :=
  { s with files := s.files.insert (Path.normalize path) f }

/-- Is there a directory at a normal path: the first one, or one with a file below it? -/
def hasDirectory (s : Store α) (dir : String) : Bool :=
  dir == "." || s.files.keys.any fun path => path.startsWith (dir ++ "/")

/-- When the file or directory at a path was changed; the empty path leads nowhere. -/
def time? (s : Store α) (path : String) : Option Int :=
  if path.isEmpty then none
  else
    match s.file? path with
    | some f => some f.time
    | none => if s.hasDirectory (Path.normalize path) then some s.present else none

/-- Is something at the path, and not newer? -/
def notNewer (s : Store α) (time : Int) (path : String) : Bool :=
  (s.time? path).any fun t => t - time ≤ 1

/-- Is there a result not older than the given files, or than the source if there are none? -/
def isFresh (s : Store α) (source : String) (dependencies : List String) (suffix : String) : Bool :=
  match (path? s.root source suffix).bind s.time? with
  | none => false
  | some time => (if dependencies.isEmpty then [source] else dependencies).all (s.notNewer time)

/-- The kept result for a source, if it is as good as a new one. -/
def get (s : Store α) (source : String) (dependencies : List String) (suffix : String) :
    Except Fault (Option α) :=
  if s.isFresh source dependencies suffix then
    match ((path? s.root source suffix).bind s.file?).map File.content with
    | some (.result value) => .ok value
    | some .truncated => .error .truncatedResult
    | _ => .ok none
  else .ok none

/-- Writes the file for a result, if there is a root. -/
def set (s : Store α) (source suffix : String) (f : File α) : Store α :=
  match path? s.root source suffix with
  | some path => s.write path f
  | none => s

/-- Keeps a result. -/
def put (s : Store α) (value : Option α) (source suffix : String) (time : Int) : Store α :=
  s.set source suffix ⟨time, .result value⟩

/-- Writes something else into the file for a result, if there is a directory for it. -/
def spoil (s : Store α) (source suffix : String) (content : Content α) :
    Except Fault (Store α) :=
  match path? s.root source suffix with
  | none => .error (.missingFile "")
  | some path =>
    if s.hasDirectory (Path.dirName (Path.normalize path)) then
      .ok (s.write path ⟨s.present, content⟩)
    else .error (.missingFile path)

/-- Removes all kept results. -/
def clear (s : Store α) : Store α :=
  if s.root.isEmpty then s
  else
    let dir := Path.normalize (directory s.root) ++ "/"
    { s with files := ⟨s.files.entries.filter fun e => !e.1.startsWith dir⟩ }

/-- A kept result, or else a new one, which is then kept. -/
def fetch {β : Type} {m : Type → Type} [Monad m] [MonadExceptOf Fault m] (load : m (Store α))
    (change : (Store α → Store α) → m Unit) (enabled : Bool) (source : String)
    (dependencies : List String) (suffix : String) (read : α → Option β) (wrap : β → Option α)
    (compute : m β) : m β := do
  if !enabled then compute
  else
    match (← load).get source dependencies suffix with
    | .error f => throw f
    | .ok found =>
      match found.bind read with
      | some x => return x
      | none =>
        let x ← compute
        change fun s => s.put (wrap x) source suffix s.present
        return x

/-- The kept result if it may be used, or a new one; and whether it is new. -/
def remember (s : Store α) (enabled : Bool) (source : String) (dependencies : List String)
    (suffix : String) (compute : Unit → Option α) :
    Except Fault (Option α × Bool × Store α) := do
  if source.isEmpty then throw .noCacheName
  let program : StateT (Store α) (Except Fault) (Option α × Bool) :=
    fetch MonadState.get modify enabled source dependencies suffix
      (fun x => some (some x, false)) Prod.fst (return (compute (), true))
  let ((value, isNew), s) ← program.run s
  return (value, isNew, s)

end Store

end CBoundary.Cache
