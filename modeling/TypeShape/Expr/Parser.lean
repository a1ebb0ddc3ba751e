import TypeShape.Expr.Basic
import TypeShape.Expr.Token

/-!
# Reading type expressions

The grammar, with one token of look-ahead:

* union: terms with `|` between them;
* term: `Any`, `None` or `Nil`; `Optional`, `Union` or `Type` with arguments; `Callable` and
  `Type` alone; `Callable[parameters, result]`; `Annotated[union, strings]`; `Literal[values]`; any
  other name, with arguments if it stands for a class;
* arguments: unions with commas between them, in brackets;
* parameters: `...`, or unions with commas between or after them, in brackets.

Every reader takes the tokens in front of it and gives back what it read and the tokens left.
The readers that call each other share a fuel that `parse` makes large enough for the source.
-/

namespace TypeShape

/-- What a name in a type expression stands for. -/
abbrev Scope := Text → Option TypeExpr

namespace TypeExpr

/-- The token in front. -/
def peek : List Token → Token
  | [] => ⟨.eof, [], 0⟩
  | t :: _ => t

/-- Fails at the token in front. -/
def failAt {α : Type} (source : Text) (ts : List Token) (fault : ParseFault) : Except Error α :=
  .error (.parse source (peek ts).position fault)

/-- Takes a token of the given kind; a token that is a fault by itself fails as such. -/
def expect (source : Text) (kind : TokenKind) (what : Text) (ts : List Token) :
    Except Error (List Token) :=
  match (peek ts).fault? with
  | some fault => failAt source ts fault
  | none =>
    if (peek ts).kind = kind then .ok ts.tail
    else failAt source ts (.expected what (peek ts).text)

/-- The text that a string token denotes.  A single-quoted string loses its quotes, and its double
quotes are escaped before it is read like a double-quoted one. -/
def unquoteToken? (t : Text) : Option Text :=
  match t with
  | [] => none
  | c :: _ =>
    if c = Quoted.singleQuote then
      -- All quotes at both ends go, not only the pair that encloses the text.
      let body := Text.trim (· = Quoted.singleQuote) t
      let escaped := body.flatMap fun b =>
        if b = Quoted.doubleQuote then [0x5C, Quoted.doubleQuote] else [b]
      Quoted.unquote? ([Quoted.doubleQuote] ++ escaped ++ [Quoted.doubleQuote])
    else Quoted.unquote? t

/-- A signed decimal numeral of 64 bits. -/
def parseInt64? (t : Text) : Option Int := do
  let (negative, digits) := match t with
    | 45 :: ds => (true, ds)
    | ds => (false, ds)
  let n ← Text.toNat? digits
  -- There is one more number below zero than above.
  if negative then if n ≤ 0x8000000000000000 then some (-(n : Int)) else none
  else if n < 0x8000000000000000 then some n else none

/-- The number that a number token denotes: with a point it is a floating-point number. -/
def parseNumber? (t : Text) : Option Literal :=
  -- Without a point it is a whole number, and an exponent is no part of a numeral.
  if t.elem (Text.byte '.') then (Binary.parse? .double t).map (.float .double)
  else (parseInt64? t).map .int

/-- The literal that a name denotes. -/
def parseLiteralName? (t : Text) : Option Literal :=
  if t = text "true" || t = text "True" then some (.bool true)
  else if t = text "false" || t = text "False" then some (.bool false)
  else if t = Name.none || t = Name.nil then some .nil
  else none

/-- The literal that one token denotes. -/
def parseLiteral (source : Text) (t : Token) : Except Error Literal :=
  let fail (fault : ParseFault) : Except Error Literal := .error (.parse source t.position fault)
  match t.kind with
  | .strange byte => fail (.strange byte)
  | .unterminated => fail .unterminated
  | .string =>
    match unquoteToken? t.text with
    | some s => .ok (.string s)
    | none => fail (.badString t.text)
  | .number =>
    match parseNumber? t.text with
    | some v => .ok v
    | none => fail (.badNumber t.text)
  | .name =>
    match parseLiteralName? t.text with
    | some v => .ok v
    | none => fail (.badLiteral t.text)
  | _ => fail (.expected (text "literal") t.text)

/-- Literals with commas between them, at least one. -/
def parseLiterals (source : Text) : List Token → Except Error (List Literal × List Token)
  | [] => failAt source [] (.expected (text "literal") [])
  | t :: ts => do
    let v ← parseLiteral source t
    match ts with
    | ⟨.comma, _, _⟩ :: us => do
      let (vs, rest) ← parseLiterals source us
      pure (v :: vs, rest)
    | us => pure ([v], us)

/-- Strings, each after a comma. -/
def parseMetadata (source : Text) : List Token → Except Error (List Text × List Token)
  | ⟨.comma, _, _⟩ :: t :: ts =>
    let fail (fault : ParseFault) : Except Error (List Text × List Token) :=
      .error (.parse source t.position fault)
    match t.kind with
    | .string =>
      match unquoteToken? t.text with
      | none => fail (.badString t.text)
      | some s => do
        let (more, rest) ← parseMetadata source ts
        pure (s :: more, rest)
    | .unterminated =>
      -- A token that the end of the source cuts off may still be a string that can be read.
      if (unquoteToken? t.text).isSome then fail .unterminated else fail (.badString t.text)
    | _ => fail (.metadata t.text)
  | ts => .ok ([], ts)

mutual

/-- Terms with `|` between them; a single term stands for itself. -/
def parseUnion (source : Text) (scope : Scope) :
    Nat → List Token → Except Error (TypeExpr × List Token)
  | 0, ts => failAt source ts (.unexpected (peek ts).text)
  | fuel + 1, ts => do
    let (first, ts) ← parseTerm source scope fuel ts
    let (others, ts) ← parseAlternatives source scope fuel ts
    -- A term that stands alone is no union.
    pure (if others.isEmpty then first else .union (first :: others) false, ts)

/-- Terms, each after a `|`. -/
def parseAlternatives (source : Text) (scope : Scope) :
    Nat → List Token → Except Error (List TypeExpr × List Token)
  | 0, ts => failAt source ts (.unexpected (peek ts).text)
  | fuel + 1, ts =>
    if (peek ts).kind = .pipe then do
      let (t, ts) ← parseTerm source scope fuel ts.tail
      let (others, ts) ← parseAlternatives source scope fuel ts
      pure (t :: others, ts)
    else .ok ([], ts)

/-- A term. -/
def parseTerm (source : Text) (scope : Scope) :
    Nat → List Token → Except Error (TypeExpr × List Token)
  | 0, ts => failAt source ts (.unexpected (peek ts).text)
  | fuel + 1, ts => do
    let name := (peek ts).text
    let ts ← expect source .name (text "type name") ts
    if name = Name.any then pure (any, ts)
    else if name = Name.none || name = Name.nil then pure (nil, ts)
    else if name = Name.optional then
      let (args, ts) ← parseArguments source scope fuel name ts
      match args with
      | [t] => pure (optionalOf t, ts)
      | _ => failAt source ts (.notOneArgument name)
    else if name = Name.union then
      let (args, ts) ← parseArguments source scope fuel name ts
      -- A union of one is that one.
      match args with
      | [t] => pure (t, ts)
      | _ => pure (.union args false, ts)
    else if name = Name.callable then
      if (peek ts).kind = .opening then parseCallable source scope fuel ts
      else pure (.con Name.callable, ts)
    else if name = Name.typeOf then
      if (peek ts).kind = .opening then
        let (args, ts) ← parseArguments source scope fuel name ts
        match args with
        | [t] => pure (.typeOf t, ts)
        | _ => failAt source ts (.notOneArgument name)
      else pure (.typeOf .omitted, ts)
    else if name = Name.annotated then
      let ts ← expect source .opening (text "'[' after Annotated") ts
      let (inner, ts) ← parseUnion source scope fuel ts
      let (metadata, ts) ← parseMetadata source ts
      let ts ← expect source .closing (text "']'") ts
      pure (.annotated inner metadata, ts)
    else if name = Name.literal then
      let ts ← expect source .opening (text "'[' after Literal") ts
      let (values, ts) ← parseLiterals source ts
      let ts ← expect source .closing (text "']'") ts
      pure (.literal values, ts)
    else match scope name with
      | none => .error (.unknownType name)
      -- Only a bare class takes arguments, under whatever name it was found.
      | some resolved =>
        if (peek ts).kind = .opening then
          match resolved with
          | .con head => do
            let (args, ts) ← parseArguments source scope fuel name ts
            pure (.app head args, ts)
          | _ => failAt source ts (.noArguments name)
        else pure (resolved, ts)

/-- Arguments in brackets, at least one. -/
def parseArguments (source : Text) (scope : Scope) :
    Nat → Text → List Token → Except Error (List TypeExpr × List Token)
  | 0, _, ts => failAt source ts (.unexpected (peek ts).text)
  | fuel + 1, name, ts => do
    let ts ← expect source .opening (text "'[' after " ++ name) ts
    let (args, ts) ← parseSequence source scope fuel ts
    let ts ← expect source .closing (text "']'") ts
    pure (args, ts)

/-- Unions with commas between them, at least one. -/
def parseSequence (source : Text) (scope : Scope) :
    Nat → List Token → Except Error (List TypeExpr × List Token)
  | 0, ts => failAt source ts (.unexpected (peek ts).text)
  | fuel + 1, ts => do
    let (t, ts) ← parseUnion source scope fuel ts
    if (peek ts).kind = .comma then
      let (others, ts) ← parseSequence source scope fuel ts.tail
      pure (t :: others, ts)
    else pure ([t], ts)

/-- Unions up to a closing bracket, with commas between them and perhaps after the last. -/
def parseParameters (source : Text) (scope : Scope) :
    Nat → List Token → Except Error (List TypeExpr × List Token)
  | 0, ts => failAt source ts (.unexpected (peek ts).text)
  | fuel + 1, ts =>
    -- A comma may be followed by the closing bracket.
    if (peek ts).kind = .closing then .ok ([], ts)
    else do
      let (t, ts) ← parseUnion source scope fuel ts
      if (peek ts).kind = .comma then
        let (others, ts) ← parseParameters source scope fuel ts.tail
        pure (t :: others, ts)
      else pure ([t], ts)

/-- The parameters and the result of a callable, in brackets. -/
def parseCallable (source : Text) (scope : Scope) :
    Nat → List Token → Except Error (TypeExpr × List Token)
  | 0, ts => failAt source ts (.unexpected (peek ts).text)
  | fuel + 1, ts => do
    let ts ← expect source .opening (text "'['") ts
    let (params, ellipsis, ts) ←
      if (peek ts).kind = .ellipsis then pure ([], true, ts.tail)
      else if (peek ts).kind = .opening then do
        let (params, ts) ← parseParameters source scope fuel ts.tail
        let ts ← expect source .closing (text "']' after parameters") ts
        pure (params, false, ts)
      else failAt source ts (.expected (text "parameter list") (peek ts).text)
    let ts ← expect source .comma (text "','") ts
    let (result, ts) ← parseUnion source scope fuel ts
    let ts ← expect source .closing (text "']'") ts
    pure (.callable params result ellipsis, ts)

end

/-- Enough fuel for the readers on `n` tokens: between two tokens taken, a reader passes through
at most four others. -/
def parseFuel (n : Nat) : Nat :=
  4 * n + 4

/-- The type expression that a source text spells, its names resolved by `scope`. -/
def parse (scope : Scope) (source : Text) : Except Error TypeExpr := do
  let tokens := Token.scan source
  let (t, ts) ← parseUnion source scope (parseFuel tokens.length) tokens
  -- A token that is a fault by itself is reported before what is left over.
  match (peek ts).fault? with
  | some fault => failAt source ts fault
  | none =>
    if (peek ts).kind = .eof then pure t
    else failAt source ts (.unexpected (peek ts).text)

end TypeExpr

end TypeShape
