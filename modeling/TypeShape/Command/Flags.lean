import TypeShape.Error
import TypeShape.Number.Integer
import TypeShape.Table
import TypeShape.Text.Separated

/-!
# Flags

Flags may stand anywhere among the arguments of a command, until `--` ends them.  A long flag is
written `--name=value` or `--name value`, a short one `-x`, several short switches may be run
together, and a switch needs no value.
-/

namespace TypeShape

/-- What a flag takes. -/
inductive FlagKind where
  | text
  /-- Comma-separated texts; a flag given twice adds to them. -/
  | texts
  | number
  /-- Nothing, or a truth value. -/
  | toggle
  deriving DecidableEq, Repr

/-- A flag of a command. -/
structure Flag where
  name : Text
  kind : FlagKind
  short : Option UInt8 := none
  deriving DecidableEq, Repr

/-- The arguments of a command: those that are no flags, and the values of flags in the order in
which they were given. -/
structure Arguments where
  positional : List Text := []
  values : Table (List Text) := []

namespace Flag

/-- Whether a flag needs no value. -/
def isToggle (f : Flag) : Bool :=
  f.kind = .toggle

/-- The words for truth values. -/
def truthWords : List Text :=
  ["1", "t", "T", "TRUE", "true", "True", "0", "f", "F", "FALSE", "false", "False"].map text

/-- What a flag takes from a text, or why it does not. -/
def read (f : Flag) (value : Text) : Except Text (List Text) :=
  let parsing (reader : String) (why : Text) : Text :=
    text reader ++ text ": parsing " ++ Quoted.quote value ++ text ": " ++ why
  match f.kind with
  | .text => .ok [value]
  | .texts =>
    match Separated.read value with
    | .ok parts => .ok parts
    | .error fault => .error fault.message
  | .number =>
    match Integer.word value with
    | .ok _ => .ok [value]
    | .error fault => .error (parsing "strconv.ParseInt" fault.message)
  | .toggle =>
    if truthWords.contains value then .ok [value]
    else .error (parsing "strconv.ParseBool" (text "invalid syntax"))

/-- The flag as messages name it. -/
def display (f : Flag) : Text :=
  match f.short with
  | some c => text "-" ++ [c] ++ text ", --" ++ f.name
  | none => text "--" ++ f.name

/-- Gives a flag a value. -/
def assign (f : Flag) (value : Text) (args : Arguments) : Except Error Arguments :=
  match f.read value with
  | .error why => .error (.usage (text "invalid argument " ++ Quoted.quote value ++ text " for " ++
      Quoted.quote f.display ++ text " flag: " ++ why))
  | .ok parts =>
    let given := (args.values.find? f.name).getD []
    .ok { args with values := Table.put f.name (given ++ parts) args.values }

/-- The value of a switch that is given without one. -/
def switchedOn : Text := text "true"

/-- Splits a text at the first equals sign. -/
def splitEquals : Text → Text × Option Text
  | [] => ([], none)
  | c :: cs =>
    if c = Text.byte '=' then ([], some cs)
    else
      let (name, value) := splitEquals cs
      (c :: name, value)

/-- Reads a long flag, without its dashes, where `next` is the argument after it.  The flag of the
answer tells whether that argument is its value. -/
def readLong (flags : List Flag) (body : Text) (next : Option Text) (args : Arguments) :
    Except Error (Arguments × Bool) :=
  if body.head? == some (Text.byte '-') || body.head? == some (Text.byte '=') then
    .error (.usage (text "bad flag syntax: --" ++ body))
  else
    let (name, value) := splitEquals body
    match flags.find? (·.name == name) with
    | none => .error (.usage (text "unknown flag: --" ++ name))
    | some f =>
      match value, next with
      | some v, _ => (f.assign v args).map fun args => (args, false)
      | none, next =>
        if f.isToggle then (f.assign switchedOn args).map fun args => (args, false)
        else match next with
          | some v => (f.assign v args).map fun args => (args, true)
          | none => .error (.usage (text "flag needs an argument: --" ++ body))

/-- Reads short flags run together, where `next` is the argument after them. -/
def readShort (flags : List Flag) (next : Option Text) :
    Text → Arguments → Except Error (Arguments × Bool)
  | [], args => .ok (args, false)
  | c :: cs, args =>
    match flags.find? (·.short == some c) with
    | none => .error (.usage (text "unknown shorthand flag: " ++ Quoted.quoteRune c.toNat ++
        text " in -" ++ c :: cs))
    | some f =>
      match cs with
      -- The value is what follows an equals sign; else, for a flag that is no toggle, the rest of
      -- the argument or the next one.
      | 61 :: d :: ds => (f.assign (d :: ds) args).map fun args => (args, false)
      | cs =>
        if f.isToggle then do
          let args ← f.assign switchedOn args
          readShort flags next cs args
        else if !cs.isEmpty then (f.assign cs args).map fun args => (args, false)
        else match next with
          | some v => (f.assign v args).map fun args => (args, true)
          | none => .error (.usage (text "flag needs an argument: " ++ Quoted.quoteRune c.toNat ++
              text " in -" ++ [c]))

/-- Reads the arguments of a command. -/
def readAll (flags : List Flag) : List Text → Arguments → Except Error Arguments
  | [], args => .ok args
  | s :: rest, args =>
    match s with
    -- After two dashes, nothing is a flag.
    | 45 :: 45 :: [] => .ok { args with positional := args.positional ++ rest }
    | 45 :: 45 :: body =>
      match readLong flags body rest.head? args with
      | .error e => .error e
      | .ok (args, consumed) =>
        match consumed, rest with
        | true, _ :: rest => readAll flags rest args
        | _, rest => readAll flags rest args
    -- A dash alone is no flag.
    | 45 :: c :: cs =>
      match readShort flags rest.head? (c :: cs) args with
      | .error e => .error e
      | .ok (args, consumed) =>
        match consumed, rest with
        | true, _ :: rest => readAll flags rest args
        | _, rest => readAll flags rest args
    | s => readAll flags rest { args with positional := args.positional ++ [s] }

/-- Whether an argument is a flag whose value is the next argument. -/
def takesNext (flags : List Flag) (s : Text) : Bool :=
  match s with
  | 45 :: 45 :: name =>
    !s.elem (Text.byte '=') && !flags.any fun f => f.name == name && f.isToggle
  | [45, c] => c != Text.byte '=' && !flags.any fun f => f.short == some c && f.isToggle
  | _ => false

/-- The arguments that are neither flags nor values of flags, as far as this can be told without
reading them. -/
def words (flags : List Flag) : List Text → List Text
  | [] => []
  | s :: rest =>
    if s = text "--" then []
    else if takesNext flags s then
      match rest with
      | _ :: next :: more => words flags (next :: more)
      | _ => []
    else if s.isEmpty || Text.startsWith s (text "-") then words flags rest
    else s :: words flags rest

/-- The arguments without the first one that is the word `w`. -/
def withoutWord (flags : List Flag) (w : Text) : List Text → List Text
  | [] => []
  | s :: rest =>
    if s = text "--" then s :: rest
    else if takesNext flags s then
      match rest with
      | v :: more => s :: v :: withoutWord flags w more
      | [] => [s]
    else if s = w && !Text.startsWith s (text "-") then rest
    else s :: withoutWord flags w rest

end Flag

end TypeShape
