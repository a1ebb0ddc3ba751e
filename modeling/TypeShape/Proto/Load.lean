import TypeShape.Files.Basic
import TypeShape.Proto.Source

/-!
# Loading protocol buffer sources

A file is looked for below each import path in turn, or as it is named if there are none.  The files that it imports are loaded with it,
each of them once.
-/

namespace TypeShape.Proto

variable {m : Type → Type} [Monad m]

/-- At most this many files are loaded together. -/
def maxFiles : Nat := 4096

/-- The contents of the first of some paths that is there. -/
def readFirst (fs : Files m) : List Text → m (Option Text)
  | [] => pure none
  | p :: ps => do
    match ← fs.read p with
    | .contents t => pure (some t)
    | .missing => readFirst fs ps
    -- A file that is there but cannot be read ends the search.
    | _ => pure none

/-- The contents of a file below the first import path that has it. -/
def readBelow (fs : Files m) (name : Text) (paths : List Text) : m (Option Text) :=
  readFirst fs (if paths.isEmpty then [name] else paths.map (Path.join · name))

/-- Loads the files of a work list and what they import, after those loaded so far. -/
def loadFrom (fs : Files m) (paths : List Text) :
    Nat → List Text → List Source → m (Option (List Source))
  | 0, _, _ => pure none
  | _ + 1, [], loaded => pure (some loaded)
  | fuel + 1, name :: names, loaded => do
    -- Files may import each other; each is loaded once.
    if loaded.any fun s => s.file.name == name then loadFrom fs paths fuel names loaded
    else
      match (← readBelow fs name paths).bind (parse? name) with
      | none => pure none
      | some s => loadFrom fs paths fuel (names ++ s.file.imports) (loaded ++ [s])

/-- Loads files and what they import; it fails if one is missing or not well formed. -/
def load (fs : Files m) (paths names : List Text) : m (Except Error (List ProtoFile)) := do
  match (← loadFrom fs paths maxFiles names []).bind link? with
  | none => pure (.error .protoSource)
  | some files => pure (.ok files)

end TypeShape.Proto
