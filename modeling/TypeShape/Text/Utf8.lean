import TypeShape.Text.Basic

/-!
# UTF-8

One step of decoding takes a code point off the front of a text, or tells that the first byte does
not start a well-formed sequence.  Surrogates, overlong forms and code points above `0x10FFFF` are
not well formed.
-/

namespace TypeShape.Utf8

/-- The code point that stands for what cannot be encoded. -/
def replacement : Nat := 0xFFFD

/-- Whether `r` is a code point that UTF-8 can encode. -/
def isScalar (r : Nat) : Bool :=
  r < 0xD800 || (0xE000 ≤ r && r ≤ 0x10FFFF)

/-- The bytes of a code point; what is no code point is encoded as the replacement character. -/
def encode (r : Nat) : Text :=
  let r := if isScalar r then r else replacement
  if r < 0x80 then [r.toUInt8]
  else if r < 0x800 then [(0xC0 + r / 0x40).toUInt8, (0x80 + r % 0x40).toUInt8]
  else if r < 0x10000 then
    [(0xE0 + r / 0x1000).toUInt8, (0x80 + r / 0x40 % 0x40).toUInt8, (0x80 + r % 0x40).toUInt8]
  else
    [(0xF0 + r / 0x40000).toUInt8, (0x80 + r / 0x1000 % 0x40).toUInt8,
      (0x80 + r / 0x40 % 0x40).toUInt8, (0x80 + r % 0x40).toUInt8]

/-- The payload of a continuation byte. -/
def continuation? (c : UInt8) : Option Nat :=
  if 0x80 ≤ c && c ≤ 0xBF then some (c.toNat - 0x80) else none

/-- The code point at the front of `c :: cs` and the number of bytes of `cs` it takes, if they are
well formed. -/
def sequence? (c : UInt8) (cs : Text) : Option (Nat × Nat) :=
  if c < 0x80 then some (c.toNat, 0)
  -- No sequence begins with a continuation byte, or with one that only spells ASCII.
  else if c < 0xC2 then none
  else if c < 0xE0 then
    match cs with
    | c₁ :: _ => do
      let b₁ ← continuation? c₁
      pure ((c.toNat - 0xC0) * 0x40 + b₁, 1)
    | _ => none
  -- Longer sequences must not spell what a shorter one spells.
  else if c < 0xF0 then
    match cs with
    | c₁ :: c₂ :: _ => do
      let b₁ ← continuation? c₁
      let b₂ ← continuation? c₂
      let r := (c.toNat - 0xE0) * 0x1000 + b₁ * 0x40 + b₂
      if 0x800 ≤ r && isScalar r then pure (r, 2) else none
    | _ => none
  else if c < 0xF5 then
    match cs with
    | c₁ :: c₂ :: c₃ :: _ => do
      let b₁ ← continuation? c₁
      let b₂ ← continuation? c₂
      let b₃ ← continuation? c₃
      let r := (c.toNat - 0xF0) * 0x40000 + b₁ * 0x1000 + b₂ * 0x40 + b₃
      if 0x10000 ≤ r && isScalar r then pure (r, 3) else none
    | _ => none
  else none

/-- The pieces of a text: a code point where the bytes are well formed, a single byte elsewhere. -/
inductive Piece where
  | rune (r : Nat)
  | stray (c : UInt8)
  deriving DecidableEq, Repr

/-- Cuts a text into its pieces; `skip` bytes at the front belong to the piece before. -/
def piecesFrom : Nat → Text → List Piece
  | _, [] => []
  | skip + 1, _ :: cs => piecesFrom skip cs
  | 0, c :: cs =>
    match sequence? c cs with
    | some (r, n) => .rune r :: piecesFrom n cs
    | none => .stray c :: piecesFrom 0 cs

/-- The pieces of a text, in order. -/
def pieces (t : Text) : List Piece :=
  piecesFrom 0 t

end TypeShape.Utf8
