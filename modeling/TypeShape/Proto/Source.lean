import TypeShape.Number.Integer
import TypeShape.Proto.Basic

/-!
# Reading protocol buffer sources

A source is cut into words, numbers, strings and marks, and read declaration by declaration.  Options,
services, extensions and reserved ranges are skipped.  The types of fields are read as the names
written; once all files are read, each name is resolved from the innermost scope outwards to a message
or an enum.
-/

namespace TypeShape.Proto

/-! ## Tokens -/

/-- A token of a source. -/
inductive Token where
  | word (t : Text)
  | number (t : Text)
  | string (t : Text)
  | mark (c : UInt8)
  deriving DecidableEq, Repr

/-- Whether a byte may begin a word. -/
def isWordStart (c : UInt8) : Bool :=
  (65 ≤ c && c ≤ 90) || (97 ≤ c && c ≤ 122) || c = Text.byte '_'

/-- Whether a byte may occur in a word. -/
def isWordPart (c : UInt8) : Bool :=
  isWordStart c || Text.isDigit c

/-- White space. -/
def isSpace (c : UInt8) : Bool :=
  c = 32 || (9 ≤ c && c ≤ 13)

/-- What follows the end of a block comment. -/
def afterBlockComment : Text → Option Text
  | [] => none
  | c :: cs =>
    if c = Text.byte '*' && cs.head? == some (Text.byte '/') then some cs.tail
    else afterBlockComment cs

/-- The string up to the closing quote, escapes as written, and what follows it. -/
def stringBody (quote : UInt8) : Text → Option (Text × Text)
  | [] => none
  | c :: cs =>
    if c = quote then some ([], cs)
    else if c = 10 then none
    else if c = Text.byte '\\' then
      match cs with
      | [] => none
      | d :: ds => (stringBody quote ds).map fun (t, rest) => (c :: d :: t, rest)
    else (stringBody quote cs).map fun (t, rest) => (c :: t, rest)

/-- Cuts a source into tokens; `fuel` bounds their number. -/
def tokens : Nat → Text → Option (List Token)
  | 0, _ => none
  | _ + 1, [] => some []
  | fuel + 1, c :: cs =>
    if isSpace c then tokens fuel cs
    -- Comments count as space.
    else if Text.startsWith (c :: cs) (text "//") then tokens fuel (cs.dropWhile (· != 10))
    else if Text.startsWith (c :: cs) (text "/*") then
      (afterBlockComment cs.tail).bind (tokens fuel)
    else if isWordStart c then
      (tokens fuel (cs.dropWhile isWordPart)).map (.word (c :: cs.takeWhile isWordPart) :: ·)
    else if Text.isDigit c then
      -- Numerals are kept as they are written and only read where a number is meant.
      let isPart (c : UInt8) : Bool := isWordPart c || c = Text.byte '.'
      (tokens fuel (cs.dropWhile isPart)).map (.number (c :: cs.takeWhile isPart) :: ·)
    else if c = Quoted.doubleQuote || c = Quoted.singleQuote then do
      let (t, rest) ← stringBody c cs
      let ts ← tokens fuel rest
      pure (.string t :: ts)
    else if Text.isOneOf ";=\x7b\x7d[]()<>,.-+:/" c then (tokens fuel cs).map (.mark c :: ·)
    else none

/-! ## Declarations -/

/-- What a source declares, before the names in it are resolved. -/
structure Source where
  file : ProtoFile
  /-- The full names of the enums. -/
  enums : List Text := []

/-- What the body of a message declares. -/
structure Body where
  fields : List ProtoField := []
  messages : List ProtoMessage := []
  /-- The names of the enums, from the message on. -/
  enums : List Text := []
  /-- The numbers of the fields. -/
  numbers : List Nat := []

/-- Puts two bodies together. -/
def Body.append (a b : Body) : Body :=
  ⟨a.fields ++ b.fields, a.messages ++ b.messages, a.enums ++ b.enums, a.numbers ++ b.numbers⟩

/-- Takes a mark off the front. -/
def mark? (c : Char) : List Token → Option (List Token)
  | .mark d :: ts => if d = Text.byte c then some ts else none
  | _ => none

/-- Skips to the end of a statement: a semicolon, or a block that closes; `depth` blocks are open. -/
def skipStatement : Nat → List Token → Option (List Token)
  | _, [] => none
  | depth, .mark c :: ts =>
    if c = Text.byte '\x7b' then skipStatement (depth + 1) ts
    else if c = Text.byte '\x7d' then
      match depth with
      | 0 => none
      | 1 =>
        match mark? ';' ts with
        | some rest => some rest
        | none => some ts
      | depth + 1 => skipStatement depth ts
    else if c = Text.byte ';' && depth = 0 then some ts
    else skipStatement depth ts
  | depth, _ :: ts => skipStatement depth ts

/-- Skips options in brackets, if there are any. -/
def skipOptions (ts : List Token) : Option (List Token) :=
  match mark? '[' ts with
  | none => some ts
  | some rest =>
    match rest.dropWhile (· != .mark (Text.byte ']')) with
    | _ :: rest => some rest
    | [] => none

/-- The rest of a name with dots. -/
def nameTail : List Token → Text × List Token
  | .mark c :: .word w :: ts =>
    if c = Text.byte '.' then
      let (more, rest) := nameTail ts
      (text "." ++ w ++ more, rest)
    else ([], .mark c :: .word w :: ts)
  | ts => ([], ts)

/-- A name with dots, perhaps with a dot in front. -/
def dottedName? : List Token → Option (Text × List Token)
  | .word w :: ts =>
    let (more, rest) := nameTail ts
    some (w ++ more, rest)
  | .mark c :: .word w :: ts =>
    if c = Text.byte '.' then
      let (more, rest) := nameTail ts
      some (text "." ++ w ++ more, rest)
    else none
  | _ => none

/-- The type that a name written in a field stands for, not yet resolved. -/
def typeOfName (name : Text) : ProtoType :=
  if (scalarClasses.lookup name).isSome then .scalar name else .message name

/-- Whether a number may number a field. -/
def isFieldNumber (n : Nat) : Bool :=
  1 ≤ n && n < 0x20000000 && !(19000 ≤ n && n ≤ 19999)

/-- The name and the number of a field, and what follows its options. -/
def nameAndNumber? : List Token → Option (Text × Nat × List Token)
  | .word name :: ts => do
    let ts ← mark? '=' ts
    match ts with
    | .number digits :: ts => do
      let n ← Integer.natural? digits
      let ts ← skipOptions ts
      if isFieldNumber n then pure (name, n, ts) else none
    | _ => none
  | _ => none

/-- A field after its label. -/
def field? (cardinality : Cardinality) (ts : List Token) : Option (Body × List Token) := do
  let (typeName, ts) ← dottedName? ts
  let (name, number, ts) ← nameAndNumber? ts
  let ts ← mark? ';' ts
  pure ({ fields := [⟨name, .single cardinality (typeOfName typeName)⟩], numbers := [number] }, ts)

/-- A map field after its keyword. -/
def mapField? (ts : List Token) : Option (Body × List Token) := do
  let ts ← mark? '<' ts
  let (key, ts) ← dottedName? ts
  let ts ← mark? ',' ts
  let (value, ts) ← dottedName? ts
  let ts ← mark? '>' ts
  let (name, number, ts) ← nameAndNumber? ts
  let ts ← mark? ';' ts
  let keys := [text "float", text "double", text "bytes"]
  match typeOfName key with
  | .scalar k =>
    if keys.contains k then none
    else pure ({ fields := [⟨name, .map (.scalar k) (typeOfName value)⟩], numbers := [number] }, ts)
  | _ => none

/-- Whether a list has an element twice. -/
def hasRepeats {α : Type} [BEq α] : List α → Bool
  | [] => false
  | a :: as => as.contains a || hasRepeats as

/-- The name of a message. -/
def messageName : ProtoMessage → Text
  | .mk name _ _ _ => name

/-- Whether the names and numbers of a body do not clash. -/
def Body.isConsistent (b : Body) : Bool :=
  !hasRepeats b.numbers && !hasRepeats ((b.fields.map (·.name)) ++ b.messages.map messageName)

/-- The message of a name with a body, and the enums declared in it. -/
def message? (name : Text) (b : Body) : Option Body :=
  if b.isConsistent then
    some { messages := [.of name b.fields b.messages], enums := b.enums.map (qualify name) }
  else none

/-- The word for a statement that is skipped, whether in a file or in a message. -/
def isSkipped (w : Text) : Bool :=
  ["option", "extend", "extensions", "reserved", "service"].any fun k => text k == w

mutual

/-- The body of a message, or of a choice between fields, up to its closing brace.  `modern` sources
have no required fields, and no label is needed. -/
def body (modern oneof : Bool) : Nat → List Token → Option (Body × List Token)
  | 0, _ => none
  | fuel + 1, ts =>
    match mark? '\x7d' ts with
    | some rest => some ({}, rest)
    | none => do
      let (first, ts) ← bodyItem modern oneof fuel ts
      let (more, ts) ← body modern oneof fuel ts
      pure (first.append more, ts)

/-- One declaration in the body of a message. -/
def bodyItem (modern oneof : Bool) : Nat → List Token → Option (Body × List Token)
  | 0, _ => none
  | fuel + 1, ts =>
    match ts with
    | .mark c :: rest => if c = Text.byte ';' then some ({}, rest) else field? .plain ts
    | .word w :: rest =>
      -- What is nested; a `oneof` only groups fields, and its fields join those of the message.
      if w = text "message" then nestedMessage modern fuel rest
      else if w = text "enum" then
        match rest with
        | .word name :: rest => do
          let rest ← skipStatement 0 rest
          pure ({ enums := [name] }, rest)
        | _ => none
      else if w = text "oneof" then
        match rest with
        | .word _ :: rest => do
          let rest ← mark? '\x7b' rest
          body modern true fuel rest
        | _ => none
      -- Options, extensions and reserved names declare nothing that counts here.
      else if isSkipped w then (skipStatement 0 rest).map fun ts => ({}, ts)
      -- Fields, by their labels.  Without one, they stand in the modern dialect or in a `oneof`.
      else if w = text "map" && (mark? '<' rest).isSome then mapField? rest
      else if w = text "repeated" then labelled modern .repeated fuel rest
      else if w = text "optional" then
        labelled modern (if modern then .optional else .plain) fuel rest
      else if w = text "required" then
        if modern then none else labelled modern .plain fuel rest
      else if modern || oneof then field? .plain ts
      else none
    | _ => none

/-- A field after its label, or a group. -/
def labelled (modern : Bool) (cardinality : Cardinality) :
    Nat → List Token → Option (Body × List Token)
  | 0, _ => none
  | fuel + 1, ts =>
    match ts with
    | .word g :: .word name :: rest =>
      -- A group is at once a message and a field that holds it.
      if g = text "group" && !modern then do
        let (_, number, rest) ← nameAndNumber? (.word name :: rest)
        let rest ← mark? '\x7b' rest
        let (inner, rest) ← body modern false fuel rest
        let m ← message? name inner
        let field : ProtoField := ⟨Text.lower name, .single cardinality (.message name)⟩
        pure ({ m with fields := [field], numbers := [number] }, rest)
      else field? cardinality ts
    | _ => field? cardinality ts

/-- A message after its keyword. -/
def nestedMessage (modern : Bool) : Nat → List Token → Option (Body × List Token)
  | 0, _ => none
  | fuel + 1, ts =>
    match ts with
    | .word name :: rest => do
      let rest ← mark? '\x7b' rest
      let (inner, rest) ← body modern false fuel rest
      let m ← message? name inner
      pure (m, rest)
    | _ => none

end

/-- The declarations of a file, put after those read so far. -/
def declarations (modern : Bool) : Nat → List Token → Source → Option Source
  | 0, _, _ => none
  | _ + 1, [], s => some s
  | fuel + 1, ts, s =>
    match ts with
    | .mark c :: rest => if c = Text.byte ';' then declarations modern fuel rest s else none
    | .word w :: rest =>
      if w = text "package" then do
        let (name, rest) ← dottedName? rest
        let rest ← mark? ';' rest
        declarations modern fuel rest { s with file := { s.file with package := name } }
      else if w = text "import" then
        -- A word such as `public` may stand before the path.
        let rest := match rest with
          | .word _ :: rest => rest
          | rest => rest
        match rest with
        | .string name :: rest => do
          let rest ← mark? ';' rest
          declarations modern fuel rest
            { s with file := { s.file with imports := s.file.imports ++ [name] } }
        | _ => none
      else if w = text "message" then do
        let (b, rest) ← nestedMessage modern fuel rest
        declarations modern fuel rest
          { file := { s.file with messages := s.file.messages ++ b.messages },
            enums := s.enums ++ b.enums }
      else if w = text "enum" then
        match rest with
        | .word name :: rest => do
          let rest ← skipStatement 0 rest
          declarations modern fuel rest { s with enums := s.enums ++ [name] }
        | _ => none
      -- Options and services declare no type.
      else if isSkipped w then do
        let rest ← skipStatement 0 rest
        declarations modern fuel rest s
      else none
    | _ => none

/-- The dialect that the first statement of a source announces, and the rest. -/
def dialect : List Token → Option (Bool × List Token)
  | .word w :: .mark c :: .string v :: .mark d :: ts =>
    if w = text "syntax" && c = Text.byte '=' && d = Text.byte ';' then
      if v = text "proto3" then some (true, ts)
      else if v = text "proto2" then some (false, ts)
      else none
    -- Without a statement about it, a source is in the old dialect.
    else some (false, .word w :: .mark c :: .string v :: .mark d :: ts)
  | ts => some (false, ts)

/-- Reads the source of a file; the names of types are as written. -/
def parse? (name source : Text) : Option Source := do
  let ts ← tokens (source.length + 1) source
  let (modern, ts) ← dialect ts
  let s ← declarations modern (2 * ts.length + 2) ts { file := { name } }
  if hasRepeats (s.file.messages.map messageName) then none
  else pure { s with enums := s.enums.map (qualify s.file.package) }

/-! ## Names -/

/-- The messages and enums that can be referred to, by full name. -/
structure Symbols where
  messages : List Text
  enums : List Text

mutual

/-- The full names of a message and of the messages in it. -/
def messageNames (outer : Text) : ProtoMessage → List Text
  | .mk name _ _ nested => qualify outer name :: messageNamesAll (qualify outer name) nested

/-- The full names of a list of messages and of the messages in them. -/
def messageNamesAll (outer : Text) : List ProtoMessage → List Text
  | [] => []
  | m :: ms => messageNames outer m ++ messageNamesAll outer ms

end

/-- The scopes that a scope lies in, the innermost first; the last one is the outermost. -/
def enclosing (scope : Text) : List Text :=
  let parts := Text.splitOn (Text.byte '.') scope
  (List.range parts.length).map (fun n => Text.join (text ".") (parts.take (parts.length - n))) ++ [[]]

/-- What a type in a field of the message `scope` stands for. -/
def ProtoType.resolve? (symbols : Symbols) (scope : Text) : ProtoType → Option ProtoType
  | .message name =>
    let candidates := match Text.afterLead? (text ".") name with
      | some full => [full]
      | none => (enclosing scope).map fun s => qualify s name
    candidates.findSome? fun n =>
      if symbols.messages.contains n then some (.message n)
      else if symbols.enums.contains n then some .enum
      else none
  | t => some t

/-- A field with its type resolved. -/
def resolveField? (symbols : Symbols) (scope : Text) (f : ProtoField) : Option ProtoField := do
  let shape ← match f.shape with
    | .single c t => (ProtoType.resolve? symbols scope t).map (.single c)
    | .map k t => (ProtoType.resolve? symbols scope t).map (.map k)
  pure { f with shape }

mutual

/-- A message with the types of its fields resolved. -/
def resolveMessage? (symbols : Symbols) (outer : Text) : ProtoMessage → Option ProtoMessage
  | .mk name isMapEntry fields nested => do
    let scope := qualify outer name
    let fields ← fields.mapM (resolveField? symbols scope)
    let nested ← resolveMessages? symbols scope nested
    pure (.mk name isMapEntry fields nested)

/-- Messages with the types of their fields resolved. -/
def resolveMessages? (symbols : Symbols) (outer : Text) :
    List ProtoMessage → Option (List ProtoMessage)
  | [] => some []
  | m :: ms => do
    let m ← resolveMessage? symbols outer m
    let ms ← resolveMessages? symbols outer ms
    pure (m :: ms)

end

/-- Resolves the names in sources that are read together. -/
def link? (sources : List Source) : Option (List ProtoFile) :=
  let symbols : Symbols :=
    { messages := sources.flatMap fun s => messageNamesAll s.file.package s.file.messages
      enums := sources.flatMap (·.enums) }
  if hasRepeats (symbols.messages ++ symbols.enums) then none
  else sources.mapM fun s => do
    let messages ← resolveMessages? symbols s.file.package s.file.messages
    pure { s.file with messages }

end TypeShape.Proto
