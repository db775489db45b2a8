/-!
# Paths

Paths are strings with slashes.  They are joined, taken apart, brought to a
normal form without looking at any file, and made relative to a directory.
-/

namespace CBoundary.Path

/-- A path below a directory, unless it is absolute. -/
def join (dir path : String) : String :=
  if path.startsWith "/" then path
  else if dir.isEmpty || dir.endsWith "/" then dir ++ path
  else dir ++ "/" ++ path

/-- The parts of a path between slashes. -/
def parts (path : String) : List String := path.splitOn "/"

/-- The last part of a path. -/
def baseName (path : String) : String := ((parts path).getLast?).getD ""

/-- Drops the slashes at the end. -/
def dropTrailingSlashes (s : List Char) : List Char := (s.reverse.dropWhile (· == '/')).reverse

/-- What stands before the last part of a path. -/
def dirName (path : String) : String :=
  let cs := path.toList
  let head := cs.take (cs.length - (baseName path).length)
  if head.all (· == '/') then String.ofList head
  else String.ofList (dropTrailingSlashes head)

/-- A file name up to its last dot; dots at its front do not count. -/
def stem (name : String) : String :=
  let cs := name.toList
  let dots := (cs.takeWhile (· == '.')).length
  let rest := cs.drop dots
  match rest.reverse.findIdx? (· == '.') with
  | some i => String.ofList (cs.take (cs.length - 1 - i))
  | none => name

/-- Is the path absolute? -/
def isAbsolute (path : String) : Bool := path.startsWith "/"

/-- Removes empty parts, dots and what double dots take back; at the root these are dropped. -/
def normalParts (absolute : Bool) (ps : List String) : List String :=
  (ps.foldl (fun acc p =>
    if p == "" || p == "." then acc
    else if p == ".." then
      match acc with
      | [] => if absolute then [] else [p]
      | q :: qs => if q == ".." then p :: acc else qs
    else p :: acc) []).reverse

/-- The normal form of a path.  Exactly two slashes at the front are kept. -/
def normalize (path : String) : String :=
  let slashes := (path.toList.takeWhile (· == '/')).length
  let front := if slashes == 2 then "//" else if slashes == 0 then "" else "/"
  let out := front ++ "/".intercalate (normalParts (slashes != 0) (parts path))
  if out.isEmpty then "." else out

/-- How many leading parts two paths share. -/
def commonLength : List String → List String → Nat
  | a :: as, b :: bs => if a == b then commonLength as bs + 1 else 0
  | _, _ => 0

/-- The parts of a path from a working directory. -/
def absoluteParts (cwd : String) (path : String) : List String :=
  normalParts true (parts (join cwd path))

/-- The path from a directory to a path, both from a working directory. -/
def relative (cwd path dir : String) : String :=
  let ps := absoluteParts cwd path
  let ds := absoluteParts cwd dir
  let n := commonLength ps ds
  let out := List.replicate (ds.length - n) ".." ++ ps.drop n
  if out.isEmpty then "." else "/".intercalate out

end CBoundary.Path
