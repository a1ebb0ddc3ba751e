import TypeShape.Declaration.Apply
import TypeShape.Files.Basic

/-!
# Finding and loading declaration files

A declaration file is named on the command line, or it is searched for: in the working directory
and then in the directories above it, the first of the known names that is there.
-/

namespace TypeShape.DeclarationFile

/-- The names of declaration files, the preferred one first. -/
def knownNames : List Text :=
  ["liketype.yaml", "liketype.yml", "liketype.toml"].map text

section

variable {m : Type → Type} [Monad m]

/-- The first candidate that is there. -/
def firstThere (fs : Files m) : List Text → m (Option Text)
  | [] => pure none
  | p :: ps => do
    if ← fs.isThere p then pure (some p) else firstThere fs ps

/-- Searches a directory and then the directories above it, at most `fuel` of them. -/
def findFrom (fs : Files m) : Nat → Text → m (Option Text)
  | 0, _ => pure none
  | fuel + 1, directory => do
    match ← firstThere fs (knownNames.map (Path.join directory)) with
    | some p => pure (some p)
    | none =>
      -- The parent of the root is the root.
      if Path.parent directory = directory then pure none
      else findFrom fs fuel (Path.parent directory)

/-- Searches upwards from the working directory; every step makes the path shorter. -/
def find (fs : Files m) : m (Option Text) := do
  let directory ← fs.workingDirectory
  findFrom fs (directory.length + 1) (Path.clean directory)

/-- Reads the declaration file at a path. -/
def load (fs : Files m) (path : Text) : m (Except Error DeclarationFile) := do
  match ← fs.read path with
  | .missing => pure (.error (.notFound path))
  | .directory => pure (.error (.unreadable path))
  | .notDirectory => pure (.error (.notDirectory path))
  | .contents t => pure (parse t path)

/-- The declaration file to use, if there is one: the one at a path, or the one found if the path is
empty. -/
def choose (fs : Files m) (path : Text) : m (Except Error (Option DeclarationFile)) := do
  let chosen ← if path.isEmpty then find fs else pure (some path)
  match chosen with
  | none => pure (.ok none)
  | some p => do
    let f ← load fs p
    pure (f.map some)

end

end TypeShape.DeclarationFile
