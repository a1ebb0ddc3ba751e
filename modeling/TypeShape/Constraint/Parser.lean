import TypeShape.Constraint.Settled

/-!
# Reading constraints

The notation of constraints: `_`, the names of kinds, literals, comparisons in front of an operand,
`=~` and `!~` in front of a pattern, `[...c]`, `[c, d]`, `{...}`, `{[string]: c}`,
`close({"name": c})`, parentheses, `&` and, binding weaker, `|`.  A text with nothing in it stands
for all structures.  A name that means nothing makes the whole text unreadable.
-/

namespace TypeShape.Constraint

/-- A token of the notation. -/
inductive Lexeme where
  | name (t : Text)
  | number (t : Text)
  /-- A string; `none` if it is not well formed. -/
  | string (value : Option Text)
  | mark (t : Text)
  deriving DecidableEq, Repr

/-- The marks of the notation, longer ones first. -/
def marks : List Text :=
  ["...", "<=", ">=", "!=", "=~", "!~", "<", ">", "(", ")", "[", "]", "\x7b", "\x7d", ",", ":", "|",
    "&", "-", "+"].map text

/-- Whether a byte may stand in a name. -/
def isNameByte (c : UInt8) : Bool :=
  Text.isLetter c || 128 ≤ c || c = 95 || c = 35 || c = 36

/-- The number of bytes that the rest of a string takes, its closing quote included. -/
def stringTail? : Text → Option Nat
  | [] => none
  | c :: cs =>
    if c = Quoted.doubleQuote then some 1
    else if c = 10 then none
    else if c = 0x5C then
      match cs with
      | [] => none
      | _ :: ds => (stringTail? ds).map (· + 2)
    else (stringTail? cs).map (· + 1)

/-- The text that a string denotes; escapes by byte number are not part of the notation. -/
def unquoteString? (t : Text) : Option Text :=
  if hasByteEscape t then none else Quoted.unquote? t
where
  /-- Whether a backslash stands before an `x` or a digit. -/
  hasByteEscape : Text → Bool
    | 0x5C :: c :: cs => c = 120 || Text.isDigit c || hasByteEscape cs
    | _ :: cs => hasByteEscape cs
    | [] => false

/-- The number of bytes of a number that begins with a digit: digits, a fraction, an exponent. -/
def numberLength (t : Text) : Nat :=
  let whole := (t.takeWhile Text.isDigit).length
  let rest := t.drop whole
  -- A point belongs to the number only if a digit comes after it.
  let fraction := match rest with
    | 46 :: c :: cs => if Text.isDigit c then ((c :: cs).takeWhile Text.isDigit).length + 1 else 0
    | _ => 0
  let rest := rest.drop fraction
  -- So does the letter of an exponent, whose digits may have a sign before them.
  let exponent := match rest with
    | e :: cs =>
      if e = 101 || e = 69 then
        let (sign, cs) := match cs with
          | 43 :: ds => (1, ds)
          | 45 :: ds => (1, ds)
          | ds => (0, ds)
        let digits := (cs.takeWhile Text.isDigit).length
        if digits = 0 then 0 else 1 + sign + digits
      else 0
    | [] => 0
  whole + fraction + exponent

/-- The token that begins with `c`, and how many of the bytes `cs` after it belong to it. -/
def lexeme? (c : UInt8) (cs : Text) : Option (Lexeme × Nat) :=
  -- The text of a string that is spelled wrongly is missing, which fails where the string is read.
  if c = Quoted.doubleQuote then
    (stringTail? cs).map fun n => (.string (unquoteString? (c :: cs.take n)), n)
  else if Text.isDigit c then
    let n := numberLength (c :: cs)
    some (.number ((c :: cs).take n), n - 1)
  else if isNameByte c then
    let n := (cs.takeWhile fun c => isNameByte c || Text.isDigit c).length
    some (.name (c :: cs.take n), n)
  else
    -- Longer marks come first, so that `<=` is not read as `<`.
    (marks.find? fun m => Text.startsWith (c :: cs) m).map fun m => (.mark m, m.length - 1)

/-- The tokens of a text; its first `skip` bytes belong to the token before. -/
def scanFrom : Nat → Text → Option (List Lexeme)
  | _, [] => some []
  | skip + 1, _ :: cs => scanFrom skip cs
  | 0, c :: cs =>
    if c = 32 || c = 9 then scanFrom 0 cs
    else do
      let (t, n) ← lexeme? c cs
      let ts ← scanFrom n cs
      pure (t :: ts)

/-- The constraint of a name. -/
def ofName? (t : Text) : Option Constraint :=
  if t = text "_" then some .top
  else if t = text "int" then some (.kind .int)
  else if t = text "float" then some (.kind .float)
  else if t = text "number" then some (.kind .number)
  else if t = text "string" then some (.kind .string)
  else if t = text "bool" then some (.kind .bool)
  else if t = text "bytes" then some (.kind .bytes)
  else if t = text "null" then some (.literal .null)
  else if t = text "true" then some (.literal (.bool true))
  else if t = text "false" then some (.literal (.bool false))
  else none

/-- The datum of a number: with a fraction or an exponent it is a floating-point number. -/
def numberDatum? (t : Text) : Option Datum :=
  if t.all Text.isDigit then (Text.toNat? t).map fun n => .int n
  else (Binary.Decimal.parse? t).map fun d => .float (.finite d)

/-- The comparison that a mark spells. -/
def comparison? (m : Text) : Option Comparison :=
  if m = text "<" then some .lt
  else if m = text "<=" then some .le
  else if m = text ">" then some .gt
  else if m = text ">=" then some .ge
  else if m = text "!=" then some .ne
  else none

/-- The opposite of a number. -/
def negated? : Datum → Option Datum
  | .int n => some (.int (-n))
  | .float (.finite d) => some (.float (.finite d.negate))
  | _ => none

/-- A literal operand, perhaps with a sign or in parentheses. -/
def operand? : Nat → List Lexeme → Option (Datum × List Lexeme)
  | 0, _ => none
  | fuel + 1, ts =>
    match ts with
    | .number t :: rest => (numberDatum? t).map (·, rest)
    | .string (some s) :: rest => some (.string s, rest)
    | .name t :: rest =>
      match ofName? t with
      | some (.literal d) => some (d, rest)
      | _ => none
    -- A minus and a plus may only stand before numbers.
    | .mark m :: rest =>
      if m = text "-" then do
        let (d, rest) ← operand? fuel rest
        let d ← negated? d
        pure (d, rest)
      else if m = text "+" then do
        let (d, rest) ← operand? fuel rest
        if (number? d).isSome then pure (d, rest) else none
      else if m = text "(" then do
        let (d, rest) ← operand? fuel rest
        match rest with
        | .mark n :: rest => if n = text ")" then pure (d, rest) else none
        | _ => none
      else none
    | _ => none

/-- Takes a mark. -/
def expectMark? (m : String) : List Lexeme → Option (List Lexeme)
  | .mark n :: rest => if n = text m then some rest else none
  | _ => none

mutual

/-- Conjunctions with `|` between them. -/
def parseEither? : Nat → List Lexeme → Option (Constraint × List Lexeme)
  | 0, _ => none
  | fuel + 1, ts => do
    let (first, ts) ← parseBoth? fuel ts
    match expectMark? "|" ts with
    | none => pure (first, ts)
    | some ts =>
      let (second, ts) ← parseEither? fuel ts
      pure (.either first second, ts)

/-- Terms with `&` between them. -/
def parseBoth? : Nat → List Lexeme → Option (Constraint × List Lexeme)
  | 0, _ => none
  | fuel + 1, ts => do
    let (first, ts) ← parseTerm? fuel ts
    match expectMark? "&" ts with
    | none => pure (first, ts)
    | some ts =>
      let (second, ts) ← parseBoth? fuel ts
      pure (.both first second, ts)

/-- A term. -/
def parseTerm? : Nat → List Lexeme → Option (Constraint × List Lexeme)
  | 0, _ => none
  | fuel + 1, ts =>
    match ts with
    | .name t :: rest =>
      -- Only `close` is called like a function, and only on named fields.
      if t = text "close" then do
        let rest ← expectMark? "(" rest
        let rest ← expectMark? "\x7b" rest
        let (fields, rest) ← parseFields? fuel rest
        let rest ← expectMark? ")" rest
        pure (.closed fields, rest)
      else (ofName? t).map (·, rest)
    | .number t :: rest => (numberDatum? t).map fun d => (.literal d, rest)
    | .string (some s) :: rest => some (.literal (.string s), rest)
    -- A bound and a pattern are told by their marks; the sign of a number is read with the operand.
    | .mark m :: rest =>
      match comparison? m with
      | some op => do
        let (d, rest) ← operand? fuel rest
        pure (.bound op d, rest)
      | none =>
        if m = text "-" || m = text "+" then do
          let (d, rest) ← operand? fuel ts
          pure (.literal d, rest)
        else if m = text "=~" || m = text "!~" then do
          let (d, rest) ← operand? fuel rest
          match d with
          | .string s =>
            let regex ← Regex.parse? s
            pure (.pattern (m = text "!~") regex, rest)
          | _ => none
        else if m = text "(" then do
          let (c, rest) ← parseEither? fuel rest
          let rest ← expectMark? ")" rest
          pure (c, rest)
        else if m = text "[" then
          -- An ellipsis at the front makes the list open.
          match expectMark? "..." rest with
          | some rest => do
            let (c, rest) ← parseEither? fuel rest
            let rest ← expectMark? "]" rest
            pure (.listOf c, rest)
          | none => do
            let (cs, rest) ← parseElements? fuel rest
            pure (.tuple cs, rest)
        else if m = text "\x7b" then parseStruct? fuel rest
        else none
    | _ => none

/-- Constraints with commas between or after them, up to a closing bracket. -/
def parseElements? : Nat → List Lexeme → Option (List Constraint × List Lexeme)
  | 0, _ => none
  | fuel + 1, ts =>
    match expectMark? "]" ts with
    | some rest => some ([], rest)
    | none => do
      let (c, ts) ← parseEither? fuel ts
      -- A comma may also stand before the closing bracket.
      match expectMark? "," ts with
      | some ts =>
        let (cs, ts) ← parseElements? fuel ts
        pure (c :: cs, ts)
      | none =>
        let ts ← expectMark? "]" ts
        pure ([c], ts)

/-- The inside of an open structure, up to its closing brace. -/
def parseStruct? : Nat → List Lexeme → Option (Constraint × List Lexeme)
  | 0, _ => none
  | fuel + 1, ts =>
    -- The structure of whatever fields, the empty one, or one with a constraint on all fields.
    match expectMark? "..." ts with
    | some ts => do
      let ts ← expectMark? "\x7d" ts
      pure (.openStruct, ts)
    | none =>
      match expectMark? "\x7d" ts with
      | some ts => some (.fieldsOf .top, ts)
      | none => do
        let ts ← expectMark? "[" ts
        match ts with
        | .name t :: ts =>
          if t = text "string" then
            let ts ← expectMark? "]" ts
            let ts ← expectMark? ":" ts
            let (c, ts) ← parseEither? fuel ts
            let ts ← expectMark? "\x7d" ts
            pure (.fieldsOf c, ts)
          else none
        | _ => none

/-- Named fields with commas between or after them, up to a closing brace. -/
def parseFields? : Nat → List Lexeme → Option (List (Text × Constraint) × List Lexeme)
  | 0, _ => none
  | fuel + 1, ts =>
    match expectMark? "\x7d" ts with
    | some rest => some ([], rest)
    | none =>
      match ts with
      | .string (some n) :: ts => do
        let ts ← expectMark? ":" ts
        let (c, ts) ← parseEither? fuel ts
        match expectMark? "," ts with
        | some ts =>
          let (fs, ts) ← parseFields? fuel ts
          pure ((n, c) :: fs, ts)
        | none =>
          let ts ← expectMark? "\x7d" ts
          pure ([(n, c)], ts)
      | _ => none

end

/-- The constraint that a text spells; `none` if it is not readable, or visibly admits nothing. -/
def parse? (t : Text) : Option Constraint := do
  let ts ← scanFrom 0 t
  -- A text without tokens spells an open structure.
  if ts.isEmpty then some (.fieldsOf .top)
  else
    -- A token is reached through at most four levels of the grammar, each of which spends fuel.
    let (c, rest) ← parseEither? (4 * ts.length + 4) ts
    if rest.isEmpty && !c.isVoid then some c else none

end TypeShape.Constraint
