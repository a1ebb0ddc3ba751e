import TypeShape.Text.Printable
import TypeShape.Text.Utf8

/-!
# Quoted text

A quoted text stands between two equal quotes.  Inside, the quote and the backslash are escaped by
a backslash, control characters have their letter escapes, other code points that do not print
are written by number, and a byte that belongs to no code point is written `\xNN`; everything
printable stands for itself.  `unquote?` reads double-quoted text back, with octal escapes besides.
-/

namespace TypeShape.Quoted

/-- The letter that escapes a control character. -/
def letterEscape? (r : Nat) : Option Char :=
  match r with
  | 7 => some 'a'
  | 8 => some 'b'
  | 9 => some 't'
  | 10 => some 'n'
  | 11 => some 'v'
  | 12 => some 'f'
  | 13 => some 'r'
  | _ => none

/-- One code point as it stands between two `quote`s. -/
def escape (quote : UInt8) (r : Nat) : Text :=
  if r = quote.toNat || r = 0x5C then text "\\" ++ Utf8.encode r
  else if Printable.isPrintable r then Utf8.encode r
  else match letterEscape? r with
    | some c => text "\\" ++ [Text.byte c]
    | none =>
      if r < 0x20 || r = 0x7F then text "\\x" ++ Text.hex 2 r
      else if r < 0x10000 then text "\\u" ++ Text.hex 4 r
      else text "\\U" ++ Text.hex 8 r

/-- One piece of text as it stands between two `quote`s. -/
def escapePiece (quote : UInt8) : Utf8.Piece → Text
  | .rune r => escape quote r
  | .stray c => text "\\x" ++ Text.hex 2 c.toNat

/-- The double quote. -/
def doubleQuote : UInt8 := 0x22

/-- The single quote. -/
def singleQuote : UInt8 := 0x27

/-- The text between double quotes. -/
def quote (t : Text) : Text :=
  [doubleQuote] ++ (Utf8.pieces t).flatMap (escapePiece doubleQuote) ++ [doubleQuote]

/-- A single code point between single quotes. -/
def quoteRune (r : Nat) : Text :=
  [singleQuote] ++ escape singleQuote r ++ [singleQuote]

/-! ## Reading -/

/-- The number that the first `n` bytes spell in base sixteen, and what follows them. -/
def takeHex : Nat → Nat → Text → Option (Nat × Text)
  | 0, acc, t => some (acc, t)
  | _ + 1, _, [] => none
  | n + 1, acc, c :: cs => do
    let d ← Text.hexDigit? c
    takeHex n (16 * acc + d) cs

/-- The value of an octal digit. -/
def octalDigit? (c : UInt8) : Option Nat :=
  if 48 ≤ c && c ≤ 55 then some (c.toNat - 48) else none

/-- The bytes that an escape stands for, and how many bytes after its backslash it takes.  `c` is
the byte after the backslash. -/
def unescape? (c : UInt8) (cs : Text) : Option (Text × Nat) :=
  match Char.ofNat c.toNat with
  | 'a' => some ([7], 1)
  | 'b' => some ([8], 1)
  | 'f' => some ([12], 1)
  | 'n' => some ([10], 1)
  | 'r' => some ([13], 1)
  | 't' => some ([9], 1)
  | 'v' => some ([11], 1)
  | '\\' => some ([0x5C], 1)
  | '"' => some ([doubleQuote], 1)
  -- A byte by its number, and code points by theirs.
  | 'x' => do
    let (n, _) ← takeHex 2 0 cs
    pure ([n.toUInt8], 3)
  | 'u' => do
    let (n, _) ← takeHex 4 0 cs
    if Utf8.isScalar n then pure (Utf8.encode n, 5) else none
  | 'U' => do
    let (n, _) ← takeHex 8 0 cs
    if Utf8.isScalar n then pure (Utf8.encode n, 9) else none
  -- Three octal digits remain.
  | _ => do
    let d₀ ← octalDigit? c
    match cs with
    | c₁ :: c₂ :: _ =>
      let d₁ ← octalDigit? c₁
      let d₂ ← octalDigit? c₂
      let n := d₀ * 64 + d₁ * 8 + d₂
      if n ≤ 255 then pure ([n.toUInt8], 3) else none
    | _ => none

/-- Reads the body of a double-quoted text up to its closing quote, which must be the last byte.
`skip` bytes at the front belong to what was read before. -/
def bodyFrom : Nat → Text → Option Text
  | _, [] => none
  | skip + 1, _ :: cs => bodyFrom skip cs
  | 0, c :: cs =>
    -- The quote must be the last byte, and no line may end inside.
    if c = doubleQuote then if cs.isEmpty then some [] else none
    else if c = 10 then none
    else if c = 0x5C then
      match cs with
      | [] => none
      | e :: es => do
        let (bytes, used) ← unescape? e es
        let rest ← bodyFrom used cs
        pure (bytes ++ rest)
    -- Bytes that are not well formed are replaced one by one.
    else match Utf8.sequence? c cs with
      | some (r, n) => do
        let rest ← bodyFrom n cs
        pure (Utf8.encode r ++ rest)
      | none => do
        let rest ← bodyFrom 0 cs
        pure (Utf8.encode Utf8.replacement ++ rest)

/-- The text that a double-quoted text denotes. -/
def unquote? : Text → Option Text
  | [] => none
  | c :: cs => if c = doubleQuote then bodyFrom 0 cs else none

end TypeShape.Quoted
