import TypeShape.Document.Quoted
import TypeShape.Table

/-!
# TOML documents

A source is a list of statements: a header opens a table or a new element of an array of tables,
an assignment enters a value under a key of the open table.  Statements are read one after the
other and carried out on a tree that remembers which tables were opened by a header, because
nothing may be defined twice.
-/

namespace TypeShape.Toml

/-- A part of the tree under construction. -/
inductive Node where
  | value (d : Document)
  /-- A table; `opened` by a header of its own, or only passed through. -/
  | table (opened : Bool) (entries : List (Text × Node))
  /-- An array of tables; the last one is open. -/
  | tables (elements : List (List (Text × Node)))

/-- The entries of a table by key. -/
abbrev Entries := Table Node

/-- A step of a source. -/
inductive Statement where
  | openTable (path : List Text)
  | openElement (path : List Text)
  | assign (path : List Text) (value : Document)

/-! ## Reading -/

/-- A space or a tab. -/
def isBlank (c : UInt8) : Bool :=
  c = 32 || c = 9

/-- A line break. -/
def isBreak (c : UInt8) : Bool :=
  c = 10 || c = 13

/-- Drops blanks in front. -/
def dropBlanks (t : Text) : Text :=
  t.dropWhile isBlank

/-- Drops white space, line breaks and comments in front, through at most `fuel` comments. -/
def dropGapsFuel : Nat → Text → Text
  | 0, t => t
  | fuel + 1, t =>
    match t.dropWhile (fun c => isBlank c || isBreak c) with
    | [] => []
    | c :: cs =>
      if c = Text.byte '#' then dropGapsFuel fuel (cs.dropWhile fun c => !isBreak c) else c :: cs

/-- Drops white space, line breaks and comments in front. -/
def dropGaps (t : Text) : Text :=
  dropGapsFuel (t.length + 1) t

/-- What follows the rest of a line that holds nothing but perhaps a comment. -/
def endLine? (t : Text) : Option Text :=
  match dropBlanks t with
  | [] => some []
  | c :: cs =>
    if isBreak c then some cs
    else if c = Text.byte '#' then some (cs.dropWhile fun c => !isBreak c)
    else none

/-- The code point of an escape of one letter. -/
def letterEscape? (c : UInt8) : Option Nat :=
  [('b', 8), ('t', 9), ('n', 10), ('f', 12), ('r', 13), ('e', 27), ('"', 34), ('\\', 92)].findSome?
    fun (l, r) => if c = Text.byte l then some r else none

/-- The bytes that the escape `c :: cs` stands for, and how many bytes of `cs` belong to it. -/
def escape? (c : UInt8) (cs : Text) : Option (Text × Nat) :=
  match letterEscape? c with
  | some r => some (Utf8.encode r, 0)
  | none => do
    let digits ← if c = Text.byte 'u' then some 4 else if c = Text.byte 'U' then some 8 else none
    let (r, _) ← Quoted.takeHex digits 0 cs
    if Utf8.isScalar r then pure (Utf8.encode r, digits) else none

/-- Replaces escapes by what they stand for; `skip` bytes at the front belong to an escape. -/
def unescapeFrom : Nat → Text → Option Text
  | _, [] => some []
  | skip + 1, _ :: cs => unescapeFrom skip cs
  | 0, c :: cs =>
    if c = Text.byte '\\' then
      match cs with
      | [] => none
      | d :: ds => do
        let (t, n) ← escape? d ds
        let rest ← unescapeFrom (n + 1) cs
        pure (t ++ rest)
    else (unescapeFrom 0 cs).map (c :: ·)

/-- Whether a text may stand between quotes on one line. -/
def isOneLine (t : Text) : Bool :=
  t.all fun c => (32 ≤ c && c ≠ 127) || c = 9

/-- The text before a mark, and what follows the mark; `none` if it does not occur. -/
def upTo (mark : Text) : Text → Option (Text × Text)
  | [] => none
  | c :: cs =>
    match Text.afterLead? mark (c :: cs) with
    | some rest => some ([], rest)
    | none => (upTo mark cs).map fun (t, rest) => (c :: t, rest)

/-- Drops the line break at the front of a text of several lines. -/
def dropFirstBreak (t : Text) : Text :=
  match t with
  | 13 :: 10 :: rest => rest
  | 10 :: rest => rest
  | t => t

/-- The string that follows the quote `c`, and what follows it.  Three quotes enclose a text of
several lines. -/
def stringBody (c : UInt8) (cs : Text) : Option (Text × Text) :=
  match Text.afterLead? [c, c] cs with
  | some rest => do
    let (body, rest) ← upTo [c, c, c] rest
    let body := dropFirstBreak body
    let t ← if c = Quoted.doubleQuote then unescapeFrom 0 body else pure body
    pure (t, rest)
  | none =>
    if c = Quoted.doubleQuote then do
      let (body, rest) ← Yaml.doubleBody cs
      let t ← unescapeFrom 0 body
      if isOneLine body then pure (t, rest) else none
    else do
      let (body, rest) ← upTo [c] cs
      if isOneLine body then pure (body, rest) else none

/-- Whether a byte may occur in a bare key. -/
def isKeyByte (c : UInt8) : Bool :=
  Text.isDigit c || (65 ≤ c && c ≤ 90) || (97 ≤ c && c ≤ 122) || Text.isOneOf "-_" c

/-- One part of a key. -/
def keyPart : Text → Option (Text × Text)
  | [] => none
  | c :: cs =>
    if Yaml.isQuote c then stringBody c cs
    else
      let name := (c :: cs).takeWhile isKeyByte
      if name.isEmpty then none else some (name, (c :: cs).dropWhile isKeyByte)

/-- A key with its parts separated by dots. -/
def keyPath : Nat → Text → Option (List Text × Text)
  | 0, _ => none
  | fuel + 1, t => do
    let (part, rest) ← keyPart (dropBlanks t)
    match dropBlanks rest with
    | c :: cs =>
      if c = Text.byte '.' then (keyPath fuel cs).map fun (parts, rest) => (part :: parts, rest)
      else pure ([part], c :: cs)
    | [] => pure ([part], [])

/-- Whether a text is decimal digits with single underscores between them. -/
def isDigits (t : Text) : Bool :=
  (Text.splitOn (Text.byte '_') t).all fun part => !part.isEmpty && part.all Text.isDigit

/-- Whether a text is a whole number without superfluous zeros in front. -/
def isWhole (t : Text) : Bool :=
  isDigits t && (t.length = 1 || t.head? != some (Text.byte '0'))

/-- Drops a sign in front. -/
def unsigned : Text → Text
  | [] => []
  | c :: cs => if Text.isOneOf "+-" c then cs else c :: cs

/-- Whether a text is a number in base two, eight or sixteen. -/
def isBased (t : Text) : Bool :=
  [(text "0x", "0123456789abcdefABCDEF_"), (text "0o", "01234567_"), (text "0b", "01_")].any
    fun (lead, digits) =>
      match Text.afterLead? lead t with
      | some (c :: cs) => (c :: cs).all (Text.isOneOf digits)
      | _ => false

/-- Whether a text is a decimal number, perhaps with a fraction and an exponent. -/
def isDecimal (t : Text) : Bool :=
  let number (t : Text) : Bool :=
    match Text.splitOn (Text.byte '.') t with
    | [whole] => isWhole whole
    | [whole, fraction] => isWhole whole && isDigits fraction
    | _ => false
  match Text.splitOn (Text.byte 'e') (Text.lower t) with
  | [mantissa] => number mantissa
  | [mantissa, exponent] => number mantissa && isDigits (unsigned exponent)
  | _ => false

/-- Whether a text looks like a date or a time. -/
def isTemporal (t : Text) : Bool :=
  (t.take 2).all Text.isDigit && t.any (Text.isOneOf "-:") &&
    t.all fun c => Text.isDigit c || Text.isOneOf "-:.+TtZz" c

/-- Whether a word without quotes is a value. -/
def isBareValue (t : Text) : Bool :=
  t = text "true" || t = text "false" || unsigned t = text "inf" || unsigned t = text "nan" ||
    isDecimal (unsigned t) || isBased t || isTemporal t

mutual

/-- The value at the front of a text. -/
def valueAt : Nat → Text → Option (Document × Text)
  | 0, _ => none
  | _ + 1, [] => none
  | fuel + 1, c :: cs =>
    if Yaml.isQuote c then (stringBody c cs).map fun (t, rest) => (.scalar true t, rest)
    else if c = Text.byte '[' then (arrayItems fuel cs).map fun (ds, rest) => (.seq ds, rest)
    else if c = Text.byte '\x7b' then
      match dropBlanks cs with
      | d :: ds =>
        if d = Text.byte '\x7d' then some (.map [], ds)
        else (inlineEntries fuel (d :: ds)).map fun (es, rest) => (.map es, rest)
      | [] => none
    else
      let isInside (c : UInt8) : Bool := !isBlank c && !isBreak c && !Text.isOneOf ",]\x7d#" c
      let word := (c :: cs).takeWhile isInside
      if isBareValue word then some (.scalar false word, (c :: cs).dropWhile isInside) else none

/-- The items of an array up to its closing bracket. -/
def arrayItems : Nat → Text → Option (List Document × Text)
  | 0, _ => none
  | fuel + 1, t =>
    match dropGaps t with
    | [] => none
    | c :: cs =>
      if c = Text.byte ']' then some ([], cs)
      else do
        let (item, rest) ← valueAt fuel (c :: cs)
        match dropGaps rest with
        | [] => none
        | d :: ds =>
          if d = Text.byte ',' then (arrayItems fuel ds).map fun (is, rest) => (item :: is, rest)
          else if d = Text.byte ']' then some ([item], ds)
          else none

/-- The entries of an inline table up to its closing brace, at least one. -/
def inlineEntries : Nat → Text → Option (List (Document × Document) × Text)
  | 0, _ => none
  | fuel + 1, t => do
    let (key, rest) ← keyPart (dropBlanks t)
    match dropBlanks rest with
    | [] => none
    | c :: cs =>
      if c = Text.byte '=' then do
        let (value, rest) ← valueAt fuel (dropBlanks cs)
        match dropBlanks rest with
        | [] => none
        | d :: ds =>
          if d = Text.byte ',' then
            (inlineEntries fuel ds).map fun (es, rest) => ((.scalar true key, value) :: es, rest)
          else if d = Text.byte '\x7d' then some ([(.scalar true key, value)], ds)
          else none
      else none

end

/-- The statement at the front of a text, and what follows its line. -/
def statement? (t : Text) : Option (Statement × Text) :=
  let fuel := t.length + 1
  -- Two brackets are tried before one.
  match Text.afterLead? (text "[[") t with
  | some rest => do
    let (path, rest) ← keyPath fuel rest
    let rest ← Text.afterLead? (text "]]") rest
    let rest ← endLine? rest
    pure (.openElement path, rest)
  | none =>
    match Text.afterLead? (text "[") t with
    | some rest => do
      let (path, rest) ← keyPath fuel rest
      let rest ← Text.afterLead? (text "]") rest
      let rest ← endLine? rest
      pure (.openTable path, rest)
    | none => do
      let (path, rest) ← keyPath fuel t
      let rest ← Text.afterLead? (text "=") rest
      let (value, rest) ← valueAt fuel (dropBlanks rest)
      let rest ← endLine? rest
      pure (.assign path value, rest)

/-- The statements of a source. -/
def statements : Nat → Text → Option (List Statement)
  | 0, _ => none
  | fuel + 1, t =>
    match dropGaps t with
    | [] => some []
    | c :: cs => do
      let (s, rest) ← statement? (c :: cs)
      let more ← statements fuel rest
      pure (s :: more)

/-! ## Building -/

/-- Changes the table that a path leads to by `f`; tables on the way are made where they are
missing, and of an array of tables the last one is entered. -/
def within (f : Entries → Option Entries) : List Text → Entries → Option Entries
  | [], es => f es
  | k :: ks, es =>
    match es.find? k with
    | none => do
      let sub ← within f ks []
      pure (Table.put k (.table false sub) es)
    | some (.table opened sub) => do
      let sub ← within f ks sub
      pure (Table.put k (.table opened sub) es)
    | some (.tables elements) =>
      match elements.reverse with
      | [] => none
      | last :: front => do
        let last ← within f ks last
        pure (Table.put k (.tables (front.reverse ++ [last])) es)
    | some (.value _) => none

/-- Opens the table `k`, unless it has been opened or is something else. -/
def openTable (k : Text) (es : Entries) : Option Entries :=
  match es.find? k with
  | none => some (Table.put k (.table true []) es)
  | some (.table false sub) => some (Table.put k (.table true sub) es)
  | _ => none

/-- Adds an element to the array of tables `k`, unless it is something else. -/
def openElement (k : Text) (es : Entries) : Option Entries :=
  match es.find? k with
  | none => some (Table.put k (.tables [[]]) es)
  | some (.tables elements) => some (Table.put k (.tables (elements ++ [[]])) es)
  | _ => none

/-- Enters a value under the key `k`, unless there is one. -/
def assign (k : Text) (d : Document) (es : Entries) : Option Entries :=
  if es.has k then none else some (Table.put k (.value d) es)

/-- Carries out statements; `current` is the path of the open table. -/
def build : List Text → List Statement → Entries → Option Entries
  | _, [], es => some es
  | current, s :: ss, es =>
    let at? (path : List Text) (f : Text → Entries → Option Entries) : Option Entries :=
      match path.getLast? with
      | none => none
      | some k => within (f k) path.dropLast es
    match s with
    | .openTable path => do
      let es ← at? path openTable
      build path ss es
    | .openElement path => do
      let es ← at? path openElement
      build path ss es
    | .assign path d => do
      let es ← at? (current ++ path) fun k => assign k d
      build current ss es

mutual

/-- The document of a part of the tree. -/
def Node.document : Node → Document
  | .value d => d
  | .table _ entries => .map (documents entries)
  | .tables elements => .seq (elementDocuments elements)

/-- The entries of a table as documents. -/
def documents : List (Text × Node) → List (Document × Document)
  | [] => []
  | (k, n) :: rest => (.scalar true k, n.document) :: documents rest

/-- The elements of an array of tables as documents. -/
def elementDocuments : List (List (Text × Node)) → List Document
  | [] => []
  | es :: rest => .map (documents es) :: elementDocuments rest

end

/-- The document that a source holds; `none` if the source is not well formed. -/
def parse? (source : Text) : Option Document := do
  let ss ← statements (source.length + 1) source
  let es ← build [] ss []
  pure (.map (documents es))

end TypeShape.Toml
