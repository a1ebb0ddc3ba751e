import TypeShape.Files.Path
import TypeShape.Table

/-!
# Files

What the library needs to know of files is a record of operations in some monad, so that the same
search and the same command line work on the files of a machine and on files given as a table.
-/

namespace TypeShape

/-- What reading a path gives. -/
inductive ReadOutcome where
  | contents (t : Text)
  | missing
  | directory
  /-- A part of the path that should be a directory is a file. -/
  | notDirectory
  deriving DecidableEq, Repr

/-- The files that can be seen. -/
structure Files (m : Type → Type) where
  /-- The absolute path of the working directory. -/
  workingDirectory : m Text
  /-- Reads the file at a path. -/
  read : Text → m ReadOutcome

namespace Files

/-- Whether there is something at a path. -/
def isThere {m : Type → Type} [Monad m] (fs : Files m) (p : Text) : m Bool := do
  let outcome ← fs.read p
  pure (match outcome with
    | .contents _ => true
    | .directory => true
    | _ => false)

/-- What is at a clean absolute path, where files are given by theirs.  Every directory of a file is
there. -/
def entry (workingDirectory : Text) (files : Table Text) (p : Text) : ReadOutcome :=
  match files.find? p with
  | some t => .contents t
  | none =>
    let inside := p ++ [Path.slash]
    if (workingDirectory :: files.names).any fun n =>
        Text.startsWith (n ++ [Path.slash]) inside then .directory
    else .missing

/-- Follows the parts of a path from a directory.  Each part but the last must be a directory, also
where a double dot leaves it again. -/
def follow (entry : Text → ReadOutcome) : Text → List Text → ReadOutcome
  | _, [] => .directory
  | directory, part :: rest =>
    if part.isEmpty || part = text "." then follow entry directory rest
    else if part = text ".." then follow entry (Path.parent directory) rest
    else
      let p := Path.join directory part
      match entry p, rest with
      | .contents t, [] => .contents t
      | .contents _, _ => .notDirectory
      | .directory, rest => follow entry p rest
      | outcome, _ => outcome

/-- Files given by their absolute paths. -/
def ofTable (workingDirectory : Text) (files : Table Text) : Files Id where
  workingDirectory := workingDirectory
  read p :=
    if p.isEmpty then .missing
    else
      let start := if Path.isAbsolute p then [Path.slash] else workingDirectory
      follow (entry workingDirectory files) start (Text.splitOn Path.slash p)

end Files

end TypeShape
