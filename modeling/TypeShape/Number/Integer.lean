import TypeShape.Text.Basic

/-!
# Whole numbers in several bases

A numeral may begin with a mark for its base: `0x` for sixteen, `0o` or a bare `0` for eight, `0b`
for two; without one its base is ten.  Underscores may group the digits of a numeral, one at a time,
between two digits or after the mark.
-/

namespace TypeShape.Integer

/-- The number that digits of a base spell; `none` for no digits, or for a byte that is no digit of
the base. -/
def digits? (base : Nat) (t : Text) : Option Nat :=
  if t.isEmpty then none
  else t.foldl (fun acc c => do
    let n ← acc
    let d ← Text.hexDigit? c
    if d < base then some (base * n + d) else none) (some 0)

/-- The base of a numeral and its digits. -/
def splitBase (t : Text) : Nat × Text :=
  match t with
  | [] => (10, [])
  | [c] => (10, [c])
  | c :: d :: ds =>
    if c = Text.byte '0' then
      if Text.isOneOf "xX" d then (16, ds)
      else if Text.isOneOf "oO" d then (8, ds)
      else if Text.isOneOf "bB" d then (2, ds)
      else (8, d :: ds)
    else (10, c :: d :: ds)

/-- The number that a numeral without sign spells. -/
def natural? (t : Text) : Option Nat :=
  let (base, digits) := splitBase t
  digits? base digits

/-- The sign of a numeral, and what follows it. -/
def splitSign : Text → Bool × Text
  | [] => (false, [])
  | c :: cs =>
    if c = Text.byte '-' then (true, cs)
    else if c = Text.byte '+' then (false, cs)
    else (false, c :: cs)

/-- A number with a sign. -/
def signed (negative : Bool) (n : Nat) : Int :=
  if negative then -(n : Int) else n

/-- The number that a numeral with an optional sign spells. -/
def parse? (t : Text) : Option Int :=
  let (negative, body) := splitSign t
  (natural? body).map (signed negative)

/-- Whether a number fits into a signed word of 64 bits. -/
def isInt64 (n : Int) : Bool :=
  -0x8000000000000000 ≤ n && n < 0x8000000000000000

/-! ## Words -/

/-- Why a text is no numeral of a word. -/
inductive Fault where
  | malformed
  | outOfRange
  deriving DecidableEq, Repr

/-- The wording of a fault. -/
def Fault.message : Fault → Text
  | malformed => text "invalid syntax"
  | outOfRange => text "value out of range"

/-- Reads digits after the number `n`, underscores left out.  The first digit that makes the number
too large for 64 bits ends the reading. -/
def magnitude (base n : Nat) : Text → Except Fault Nat
  | [] => .ok n
  | c :: cs =>
    if c = Text.byte '_' then magnitude base n cs
    else match Text.hexDigit? c with
      | none => .error .malformed
      | some d =>
        if base ≤ d then .error .malformed
        else if 0x10000000000000000 ≤ base * n + d then .error .outOfRange
        else magnitude base (base * n + d) cs

/-- Whether every underscore stands alone between two digits; `digit` tells whether a digit, or the
mark of the base, stands in front. -/
def isGrouped (digit : Bool) : Text → Bool
  | [] => true
  | c :: cs =>
    if c = Text.byte '_' then
      digit && (match cs with
        | d :: _ => (Text.hexDigit? d).isSome
        | [] => false) && isGrouped false cs
    else isGrouped true cs

/-- The signed word of 64 bits that a numeral spells, its digits perhaps grouped. -/
def word (t : Text) : Except Fault Int := do
  let (negative, body) := splitSign t
  let (base, digits) := splitBase body
  if digits.isEmpty then throw .malformed
  let n ← magnitude base 0 digits
  if !isGrouped (digits.length < body.length) digits then throw .malformed
  let value := signed negative n
  if isInt64 value then pure value else throw .outOfRange

/-- A numeral without its decimals: digits with a sign perhaps, a point and digits perhaps, of which
what stands before the point is left.  Every other text stays. -/
def withoutDecimals (t : Text) : Text :=
  let sign := if Text.isOneOf "+-" (t.headD 0) then t.take 1 else []
  let body := t.drop sign.length
  let whole := body.takeWhile Text.isDigit
  match body.drop whole.length with
  | point :: fraction =>
    if point = Text.byte '.' && fraction.all Text.isDigit then
      sign ++ if whole.isEmpty then text "0" else whole
    else t
  | [] => t

end TypeShape.Integer
