import TypeShape.Text.Basic

/-!
# Paths

A path is a list of parts with slashes between them; a leading slash makes it absolute.  Cleaning a
path drops empty parts and single dots, and lets double dots cancel the part before them.
-/

namespace TypeShape.Path

/-- The slash. -/
def slash : UInt8 := Text.byte '/'

/-- Whether a path begins at the root. -/
def isAbsolute (p : Text) : Bool :=
  p.head? == some slash

/-- Adds a part to cleaned parts, the last one first. -/
def push (absolute : Bool) (parts : List Text) (part : Text) : List Text :=
  if part = [] || part = text "." then parts
  else if part = text ".." then
    match parts with
    | [] => if absolute then [] else [part]
    | last :: front => if last = part then part :: parts else front
  else part :: parts

/-- The shortest path that leads to the same place. -/
def clean (p : Text) : Text :=
  let absolute := isAbsolute p
  let parts := ((Text.splitOn slash p).foldl (push absolute) []).reverse
  let body := Text.join [slash] parts
  if absolute then slash :: body else if body.isEmpty then text "." else body

/-- A path below a directory; no directory is the working directory. -/
def join (directory p : Text) : Text :=
  if directory.isEmpty then clean p else clean (directory ++ slash :: p)

/-- The directory that a clean path lies in; the root lies in itself. -/
def parent (p : Text) : Text :=
  clean ((p.reverse.dropWhile (· != slash)).reverse)

end TypeShape.Path
