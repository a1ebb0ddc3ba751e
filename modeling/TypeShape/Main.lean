import TypeShape.Command.Run

/-!
# The program

Runs a command on the files and the environment of the machine, prints its output, and reports a
failure on the error stream.
-/

namespace TypeShape

/-- The bytes of a string. -/
def bytesOf (s : String) : Text :=
  s.toUTF8.toList

/-- A text as a string; bytes that are not well formed are replaced. -/
def stringOf (t : Text) : String :=
  match String.fromUTF8? ⟨t.toArray⟩ with
  | some s => s
  | none => String.ofList (t.map fun c => Char.ofNat c.toNat)

/-- The number that the machine gives to the failure to use a file as a directory. -/
def notDirectoryCode : UInt32 := 20

/-- The files of the machine. -/
def machineFiles : Files IO where
  workingDirectory := do
    let directory ← IO.currentDir
    pure (bytesOf directory.toString)
  read p := do
    try
      let contents ← IO.FS.readBinFile (stringOf p)
      pure (.contents contents.toList)
    catch
      | .inappropriateType _ code _ => pure (if code = notDirectoryCode then .notDirectory else .directory)
      | _ => pure .missing

/-- The surroundings of the machine.  Host packages cannot be loaded on it. -/
def machine : Surroundings IO where
  files := machineFiles
  environment name := do
    let found ← IO.getEnv (stringOf name)
    pure (found.map bytesOf)
  packages _ := pure (.error (.usage (text "loading packages: no loader of host packages")))

end TypeShape

open TypeShape in
/-- Runs the command that the arguments name. -/
def main (args : List String) : IO UInt32 := do
  match ← Command.run machine (args.map bytesOf) with
  | .ok out =>
    IO.print (stringOf out)
    pure 0
  | .error e =>
    IO.eprintln (stringOf e.message)
    pure 1
