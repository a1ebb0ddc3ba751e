import TypeShape.Command.Flags
import TypeShape.Text.Letter

/-!
# Commands

The program has a handful of commands.  Which one is meant is told by the first word among the
arguments; a word that is none is answered with the commands whose names are near it.
-/

namespace TypeShape

/-- A command of the program. -/
inductive Command where
  | subtype
  | inst
  | infer
  | unify
  | describe
  | classes
  deriving DecidableEq, Repr

namespace Command

/-- The name of the program. -/
def programName : Text := text "liketype"

/-- All commands, in the order in which they are listed. -/
def all : List Command := [subtype, inst, infer, unify, describe, classes]

/-- The name of a command. -/
def name : Command → Text
  | subtype => text "subtype"
  | inst => text "instance"
  | infer => text "infer"
  | unify => text "unify"
  | describe => text "describe"
  | classes => text "classes"

/-- The word for the command that makes completions for shells. -/
def completionWord : Text := text "completion"

/-- The words for commands that only tell about the program. -/
def helpWords : List Text := [text "help", completionWord]

/-- How many arguments a command takes. -/
def arity : Command → Nat
  | subtype => 2
  | inst => 2
  | infer => 1
  | unify => 2
  | describe => 1
  | classes => 0

/-- The flags of every command. -/
def commonFlags : List Flag :=
  [{ name := text "registry", kind := .text }, { name := text "go-package", kind := .texts },
    { name := text "proto", kind := .texts }, { name := text "proto-path", kind := .texts },
    { name := text "max-depth", kind := .number }, { name := text "max-sample", kind := .number },
    { name := text "verbose", kind := .toggle, short := some (Text.byte 'v') }]

/-- The flag that asks for help. -/
def helpFlag : Flag :=
  { name := text "help", kind := .toggle, short := some (Text.byte 'h') }

/-- The flags of a command. -/
def flags : Command → List Flag
  | classes => commonFlags ++ [helpFlag, { name := text "kind", kind := .text }]
  | _ => commonFlags ++ [helpFlag]

/-! ## Near names -/

/-- One row of the table of distances between the beginnings of two texts: from the row before it,
whose first entry is `corner`, for the byte `c`. -/
def distanceRow (c : UInt8) : Nat → Nat → List UInt8 → List Nat → List Nat
  | left, corner, d :: ds, above :: row =>
    let cost := if c = d then corner else 1 + min corner (min left above)
    cost :: distanceRow c cost above ds row
  | _, _, _, _ => []

/-- The number of bytes to insert, delete or change to make one text of another. -/
def distance (a b : Text) : Nat :=
  let start := List.range (b.length + 1)
  let last := a.foldl (fun row c =>
    match row with
    | [] => []
    | corner :: rest => (corner + 1) :: distanceRow c (corner + 1) corner b rest) start
  last.getLastD 0

/-- Whether the name of a command is near a word: it begins with it, or differs from it by at most
two bytes. -/
def isNear (word name : Text) : Bool :=
  distance (Letter.lower word) name ≤ 2 || Text.startsWith name (Letter.lower word)

/-- What is said about a word that is no command. -/
def unknown (word : Text) : Error :=
  let near := (all.map name ++ [completionWord]).filter (isNear word)
  let hint := if near.isEmpty then []
    else text "\n\nDid you mean this?\n" ++ near.flatMap fun n => text "\t" ++ n ++ text "\n"
  .usage (text "unknown command " ++ Quoted.quote word ++ text " for " ++
    Quoted.quote programName ++ hint)

/-- Checks the number of arguments of a command. -/
def checkArity (c : Command) (args : List Text) : Except Error Unit :=
  match c, args with
  | classes, [] => .ok ()
  | classes, word :: _ => .error (.usage (text "unknown command " ++ Quoted.quote word ++
      text " for " ++ Quoted.quote (programName ++ text " " ++ classes.name)))
  | c, args =>
    if args.length = c.arity then .ok ()
    else .error (.usage (text "accepts " ++ Text.ofNat c.arity ++ text " arg(s), received " ++
      Text.ofNat args.length))

/-- A command with its arguments. -/
structure Invocation where
  command : Command
  arguments : Arguments

/-- Reads the arguments of the program; `none` if they ask for help. -/
def parse (args : List Text) : Except Error (Option Invocation) :=
  match Flag.words commonFlags args with
  | [] => (Flag.readAll (commonFlags ++ [helpFlag]) args {}).map fun _ => none
  | word :: _ =>
    match all.find? (·.name == word) with
    | none => if helpWords.contains word then .ok none else .error (unknown word)
    | some c => do
      let arguments ← Flag.readAll c.flags (Flag.withoutWord commonFlags word args) {}
      if arguments.values.has helpFlag.name then pure none
      else do
        c.checkArity arguments.positional
        pure (some ⟨c, arguments⟩)

end Command

end TypeShape
