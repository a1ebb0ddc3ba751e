import TypeShape.Error
import TypeShape.Text.Utf8

/-!
# Tokens of type expressions

A source text is cut into names, strings, numbers, the marks `[`, `]`, `,`, `|`, `...`, and an end
mark; white space separates tokens.  Bytes that begin no token and strings without closing quote
are tokens too, so that cutting never fails: the reader decides when they matter.
-/

namespace TypeShape

/-- What a token is. -/
inductive TokenKind where
  | eof
  | name
  | string
  | number
  | opening
  | closing
  | comma
  | pipe
  | ellipsis
  /-- A byte that begins no token. -/
  | strange (byte : UInt8)
  /-- A string that runs to the end of the source without closing quote. -/
  | unterminated
  deriving DecidableEq, Repr

/-- A token, with its text and the position of its first byte. -/
structure Token where
  kind : TokenKind
  text : Text
  position : Nat
  deriving DecidableEq, Repr

namespace Token

/-- How many bytes of `t` the rest of a string takes, its closing quote included.  A backslash
takes the byte after it along. -/
def stringTail? (quote : UInt8) : Text → Option Nat
  | [] => none
  | c :: cs =>
    if c = quote then some 1
    else if c = 0x5C then
      -- A backslash at the end leaves the string open.
      match cs with
      | [] => none
      | _ :: ds => (stringTail? quote ds).map (· + 2)
    else (stringTail? quote cs).map (· + 1)

/-- Whether a byte may follow the first one of a name. -/
def isNamePart (c : UInt8) : Bool :=
  c = Text.byte '_' || c = Text.byte '.' || Text.isLetter c || Text.isDigit c

/-- Whether a byte may follow the first one of a number. -/
def isNumberPart (c : UInt8) : Bool :=
  c = Text.byte '.' || Text.isDigit c

/-- The token that begins with `c`, and how many of the bytes `cs` after it belong to it. -/
def lexeme (c : UInt8) (cs : Text) : TokenKind × Nat :=
  if c = Text.byte '[' then (.opening, 0)
  else if c = Text.byte ']' then (.closing, 0)
  else if c = Text.byte ',' then (.comma, 0)
  else if c = Text.byte '|' then (.pipe, 0)
  -- Three dots are one token; a dot alone begins none.
  else if Text.startsWith (c :: cs) (TypeShape.text "...") then (.ellipsis, 2)
  else if c = Quoted.doubleQuote || c = Quoted.singleQuote then
    match stringTail? c cs with
    | some n => (.string, n)
    | none => (.unterminated, cs.length)
  else if c = Text.byte '-' || Text.isDigit c then
    (.number, (cs.takeWhile isNumberPart).length)
  else if c = Text.byte '_' || Text.isLetter c then (.name, (cs.takeWhile isNamePart).length)
  else (.strange c, 0)

/-- The text of a token; a strange byte stands for the code point of its number. -/
def lexemeText (kind : TokenKind) (c : UInt8) (cs : Text) (extra : Nat) : Text :=
  match kind with
  | .strange _ => Utf8.encode c.toNat
  | _ => c :: cs.take extra

/-- The tokens of a text that begins at `position`; its first `skip` bytes belong to the token
before. -/
def scanFrom : (skip position : Nat) → Text → List Token
  | _, position, [] => [⟨.eof, [], position⟩]
  | skip + 1, position, _ :: cs => scanFrom skip (position + 1) cs
  | 0, position, c :: cs =>
    -- White space between tokens is passed over.
    if Text.isSpace c then scanFrom 0 (position + 1) cs
    else
      let (kind, extra) := lexeme c cs
      ⟨kind, lexemeText kind c cs extra, position⟩ :: scanFrom extra (position + 1) cs

/-- The tokens of a source text; the last one is the end mark. -/
def scan (source : Text) : List Token :=
  scanFrom 0 0 source

/-- The fault that a token is by itself. -/
def fault? (t : Token) : Option ParseFault :=
  match t.kind with
  | .strange byte => some (.strange byte)
  | .unterminated => some .unterminated
  | _ => none

end Token

end TypeShape
