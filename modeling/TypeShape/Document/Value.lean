import TypeShape.Document.Yaml
import TypeShape.Number.Integer
import TypeShape.Value.Basic

/-!
# Values written as documents

A value on the command line is a document.  A bare word may stand for nothing, a truth value, a
point in time or a number; every other scalar is a string.  Sequences become lists of anything; a mapping becomes a map
from strings if all its keys are strings, and a map from anything otherwise.
-/

namespace TypeShape.Document

/-- The number that a bare word stands for.  Underscores between digits do not count. -/
def numberOf? (word : Text) : Option Value :=
  match word with
  | [] => none
  | c :: _ =>
    if c = Text.byte '.' then (Binary.parse? .double word).map (.float .double)
    else if Text.isDigit c || Text.isOneOf "+-" c then
      let plain := word.filter (· != Text.byte '_')
      match Integer.parse? plain with
      | some n =>
        if Integer.isInt64 n then some (.int .int n)
        else if Text.isDigit c && n < 0x10000000000000000 then some (.int .uint64 n)
        else (Binary.parse? .double plain).map (.float .double)
      | none => (Binary.parse? .double plain).map (.float .double)
    else none

/-- Words for numbers that are not finite. -/
def extremes : List (Text × Binary) :=
  let spellings (word : String) : List Text :=
    match word.toList with
    | [a, b, c] => [[a, b, c], [a.toUpper, b, c], [a.toUpper, b.toUpper, c.toUpper]].map fun cs =>
      text (String.ofList cs)
    | _ => []
  ((spellings "inf").flatMap fun t =>
    [(text "." ++ t, .infinite false), (text "+." ++ t, .infinite false),
      (text "-." ++ t, .infinite true)]) ++
    [".nan", ".NaN", ".NAN"].map fun w => (text w, .nan)

/-- The value of a bare word. -/
def wordValue (word : Text) : Value :=
  if nullWords.contains word then .nil
  else if ["true", "True", "TRUE"].any fun w => text w == word then .bool true
  else if ["false", "False", "FALSE"].any fun w => text w == word then .bool false
  else match extremes.lookup word with
    | some x => .float .double x
    | none =>
      match Moment.parse? word with
      | some m => .moment m
      | none => (numberOf? word).getD (.string word)

/-- The value of a scalar. -/
def scalarValue (quoted : Bool) (content : Text) : Value :=
  if quoted then .string content else wordValue content

/-- Whether a value is a string. -/
def isString : Value → Bool
  | .string _ => true
  | _ => false

/-- Whether a value may be a key of a map. -/
def isKey : Value → Bool
  | .slice _ _ _ => false
  | .map _ _ _ => false
  | _ => true

/-- Whether two values are the same key.  What is not a number is the same key as nothing else, and
neither is a point in time of another zone. -/
def sameKey : Value → Value → Bool
  | .nil, .nil => true
  | .bool a, .bool b => a == b
  | .int w a, .int x b => w == x && a == b
  | .float _ (.finite _ 0 _), .float _ (.finite _ 0 _) => true
  | .float _ .nan, _ => false
  | .float w a, .float x b => w == x && a == b
  | .string a, .string b => a == b
  | .moment a, .moment b => a.ahead == 0 && a.render == b.render
  | _, _ => false

/-- Puts an entry into a map; an entry with the same key only changes its value. -/
def putEntry (entries : List (Value × Value)) (entry : Value × Value) : List (Value × Value) :=
  if entries.any fun (k, _) => sameKey k entry.1 then
    entries.map fun (k, v) => if sameKey k entry.1 then (k, entry.2) else (k, v)
  else entries ++ [entry]

/-- A computation that puts cells into a heap and may fail. -/
abbrev Allocating := OptionT (StateM Host)

/-- Puts a cell into the heap. -/
def allocate (c : Cell) : Allocating Nat := do
  let h ← get
  let (address, h) := h.alloc c
  set h
  pure address

mutual

/-- The value of a document; it fails on a mapping with a key twice, or with a collection as key. -/
def value : Document → Allocating Value
  | scalar quoted content => pure (scalarValue quoted content)
  | seq items => do
    let vs ← values items
    let address ← allocate (.items vs)
    pure (.slice .any address vs.length)
  | map es =>
    if hasRepeatedKey es then failure
    else do
      let vs ← entryValues es
      if vs.all fun (k, _) => isKey k then
        let key := if vs.all fun (k, _) => isString k then HostType.string else .any
        let address ← allocate (.entries (vs.foldl putEntry []))
        pure (.map key .any address)
      else failure

/-- The values of a list of documents. -/
def values : List Document → Allocating (List Value)
  | [] => pure []
  | d :: ds => do
    let v ← value d
    let vs ← values ds
    pure (v :: vs)

/-- The keys and values of the entries of a mapping. -/
def entryValues : List (Document × Document) → Allocating (List (Value × Value))
  | [] => pure []
  | (k, d) :: es => do
    let key ← value k
    let v ← value d
    let vs ← entryValues es
    pure ((key, v) :: vs)

end

/-- The value that a source spells, in a heap of its own. -/
def readValue (source : Text) : Except Error (Value × Host) :=
  match Yaml.parse? source with
  | none => .error (.value source)
  | some d =>
    match StateT.run (OptionT.run (value d)) {} with
    | (some v, h) => .ok (v, h)
    | (none, _) => .error (.value source)

end TypeShape.Document
