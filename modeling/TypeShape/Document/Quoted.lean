import TypeShape.Document.Basic

/-!
# Scalars of YAML documents

The body of a scalar may run over several lines: the white space around a line break is dropped,
one break is read as a space, and of several breaks in a row the first is dropped.  Between single
quotes, a quote is written twice; between double quotes, a backslash begins an escape.
-/

namespace TypeShape.Yaml

/-- A space or a tab. -/
def isBlank (c : UInt8) : Bool :=
  c = 32 || c = 9

/-- The line feed. -/
def lineFeed : UInt8 := 10

/-- Puts lines after a first line; `breaks` breaks have been passed since the last text. -/
def foldRest : Nat → List Text → Text
  | _, [] => []
  | breaks, line :: lines =>
    let body := Text.trim isBlank line
    if body.isEmpty && !lines.isEmpty then foldRest (breaks + 1) lines
    else (if breaks = 0 then text " " else List.replicate breaks lineFeed) ++ body ++ foldRest 0 lines

/-- Reads line breaks and the white space around them the way scalars do. -/
def foldLines (t : Text) : Text :=
  match Text.splitOn lineFeed t with
  | [] => []
  | [line] => line
  | line :: lines => (line.reverse.dropWhile isBlank).reverse ++ foldRest 0 lines

/-- The text before the closing single quote, quotes written once, and what follows it. -/
def singleBody : Text → Option (Text × Text)
  | [] => none
  | c :: cs =>
    if c = Quoted.singleQuote then
      match cs with
      | d :: ds =>
        if d = Quoted.singleQuote then (singleBody ds).map fun (t, rest) => (c :: t, rest)
        else some ([], cs)
      | [] => some ([], [])
    else (singleBody cs).map fun (t, rest) => (c :: t, rest)

/-- The text before the closing double quote, escapes as written, and what follows it. -/
def doubleBody : Text → Option (Text × Text)
  | [] => none
  | c :: cs =>
    if c = Quoted.doubleQuote then some ([], cs)
    else if c = Text.byte '\\' then
      match cs with
      | [] => none
      | d :: ds => (doubleBody ds).map fun (t, rest) => (c :: d :: t, rest)
    else (doubleBody cs).map fun (t, rest) => (c :: t, rest)

/-- The code point of an escape of one letter. -/
def letterEscape? (c : UInt8) : Option Nat :=
  [('0', 0), ('a', 7), ('b', 8), ('t', 9), ('\t', 9), ('n', 10), ('v', 11), ('f', 12), ('r', 13),
    ('e', 27), (' ', 32), ('"', 34), ('/', 47), ('\\', 92), ('N', 0x85), ('_', 0xA0), ('L', 0x2028),
    ('P', 0x2029)].findSome? fun (l, r) => if c = Text.byte l then some r else none

/-- The number of digits of an escape in base sixteen. -/
def hexEscape? (c : UInt8) : Option Nat :=
  [('x', 2), ('u', 4), ('U', 8)].findSome? fun (l, n) => if c = Text.byte l then some n else none

/-- The bytes that the escape `c :: cs` stands for, and how many bytes of `cs` belong to it. -/
def escape? (c : UInt8) (cs : Text) : Option (Text × Nat) :=
  match letterEscape? c with
  | some r => some (Utf8.encode r, 0)
  | none => do
    let digits ← hexEscape? c
    let (r, _) ← Quoted.takeHex digits 0 cs
    if Utf8.isScalar r then pure (Utf8.encode r, digits) else none

/-- Replaces escapes by what they stand for; `skip` bytes at the front belong to an escape. -/
def unescapeFrom : Nat → Text → Option Text
  | _, [] => some []
  | skip + 1, _ :: cs => unescapeFrom skip cs
  | 0, c :: cs =>
    if c = Text.byte '\\' then
      match cs with
      | [] => none
      | d :: ds => do
        let (t, n) ← escape? d ds
        let rest ← unescapeFrom (n + 1) cs
        pure (t ++ rest)
    else (unescapeFrom 0 cs).map (c :: ·)

/-- The quoted scalar that follows the quote `c`, and what follows it. -/
def quotedScalar (c : UInt8) (cs : Text) : Option (Document × Text) :=
  if c = Quoted.singleQuote then
    (singleBody cs).map fun (t, rest) => (.scalar true (foldLines t), rest)
  else do
    let (body, rest) ← doubleBody cs
    let t ← unescapeFrom 0 (foldLines body)
    pure (.scalar true t, rest)

/-- Whether a byte opens a quoted scalar. -/
def isQuote (c : UInt8) : Bool :=
  c = Quoted.singleQuote || c = Quoted.doubleQuote

/-- Whether a text may begin a plain scalar.  A dash, question mark or colon needs something after
it. -/
def startsPlain : Text → Bool
  | [] => false
  | c :: cs =>
    if Text.isOneOf "-?:" c then
      match cs with
      | [] => false
      | d :: _ => !isBlank d && d != lineFeed
    else !isBlank c && !Text.isOneOf "\n,[]\x7b\x7d#&*!|>'\"%@\x60" c

/-- Whether a colon before this text ends a key. -/
def endsKey : Text → Bool
  | [] => true
  | c :: _ => isBlank c || c = lineFeed

end TypeShape.Yaml
