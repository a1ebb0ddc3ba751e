import TypeShape.Text.Basic

/-!
# Binary floating-point numbers

A number of one of the two binary widths is held by its exact value: a whole significand times a
power of two, in the canonical form in which the significand fills the width's precision unless
the exponent is the least one.  A decimal is rounded to a width by exact integer arithmetic, to
nearest with ties to the even significand.
-/

namespace TypeShape

/-- The two widths of binary floating-point numbers. -/
inductive Width where
  | single
  | double
  deriving DecidableEq, Repr

namespace Width

/-- The number of bits of a full significand. -/
def precision : Width → Nat
  | single => 24
  | double => 53

/-- The least exponent of a significand's last bit. -/
def minExponent : Width → Int
  | single => -149
  | double => -1074

/-- The greatest exponent of a significand's last bit. -/
def maxExponent : Width → Int
  | single => 104
  | double => 971

end Width

/-- A binary floating-point number. -/
inductive Binary where
  | nan
  | infinite (negative : Bool)
  /-- The number `± significand · 2 ^ exponent`. -/
  | finite (negative : Bool) (significand : Nat) (exponent : Int)
  deriving DecidableEq, Repr

namespace Binary

/-- The quotient `num / den` rounded to a whole number, a tie going to the even one. -/
def roundDiv (num den : Nat) : Nat :=
  let q := num / den
  let r := num % den
  if 2 * r < den then q
  else if den < 2 * r then q + 1
  else if q % 2 = 0 then q else q + 1

/-- `num / den` over `2 ^ e`, as a fraction of whole numbers. -/
def scaled (num den : Nat) (e : Int) : Nat × Nat :=
  match e with
  | .ofNat k => (num, den * Nat.pow 2 k)
  | .negSucc k => (num * Nat.pow 2 (k + 1), den)

/-- The number of width `w` nearest to the positive fraction `num / den`. -/
def ofFraction (w : Width) (negative : Bool) (num den : Nat) : Binary :=
  if num = 0 then .finite negative 0 w.minExponent
  else
    let p := w.precision
    let guess : Int := (num.log2 : Int) - den.log2 - p + 1
    let (n₁, d₁) := scaled num den guess
    let e₁ := if n₁ / d₁ < Nat.pow 2 (p - 1) then guess - 1 else guess
    let e := max e₁ w.minExponent
    let (n, d) := scaled num den e
    let s := roundDiv n d
    let (s, e) := if s = Nat.pow 2 p then (Nat.pow 2 (p - 1), e + 1) else (s, e)
    if w.maxExponent < e then .infinite negative else .finite negative s e

/-- The number of width `w` nearest to `± digits · 10 ^ exponent`. -/
def ofDecimal (w : Width) (negative : Bool) (digits : Nat) (exponent : Int) : Binary :=
  match exponent with
  | .ofNat k => ofFraction w negative (digits * Nat.pow 10 k) 1
  | .negSucc k => ofFraction w negative digits (Nat.pow 10 (k + 1))

/-! ## Reading decimals -/

/-- The decimal `± digits · 10 ^ exponent`. -/
structure Decimal where
  negative : Bool
  digits : Nat
  exponent : Int
  deriving DecidableEq, Repr

/-- The number a run of digits spells; no digits spell zero. -/
def digitsValue (t : Text) : Nat :=
  t.foldl (fun n c => 10 * n + (c.toNat - 48)) 0

/-- Takes a sign off the front; `true` is minus. -/
def takeSign : Text → Bool × Text
  | 45 :: t => (true, t)
  | 43 :: t => (false, t)
  | t => (false, t)

/-- Reads a decimal with at least one digit, an optional point and an optional exponent. -/
def Decimal.parse? (t : Text) : Option Decimal :=
  let (negative, t) := takeSign t
  let whole := t.takeWhile Text.isDigit
  let t := t.dropWhile Text.isDigit
  let (fraction, t) := match t with
    | 46 :: t => (t.takeWhile Text.isDigit, t.dropWhile Text.isDigit)
    | t => ([], t)
  -- Digits may be missing before or after the point, but not on both sides.
  if whole.isEmpty && fraction.isEmpty then none
  else
    -- The digits without the point make a whole number; the exponent keeps the place of the point.
    let digits := digitsValue (whole ++ fraction)
    let shift : Int := -(fraction.length : Int)
    match t with
    | [] => some ⟨negative, digits, shift⟩
    | c :: t =>
      if c = 101 || c = 69 then
        let (down, t) := takeSign t
        (Text.toNat? t).map fun n =>
          ⟨negative, digits, shift + if down then -(n : Int) else n⟩
      else none

/-- The number of width `w` nearest to a decimal.  What is not below `10 ^ 400` is infinite at every
width and what is below `10 ^ -400` is zero, so no large power of ten is worked out for them. -/
def Decimal.nearest (w : Width) (d : Decimal) : Binary :=
  let magnitude : Int := d.exponent + (Nat.toDigits 10 d.digits).length
  if d.digits = 0 || magnitude < -400 then .finite d.negative 0 w.minExponent
  else if 400 < magnitude then .infinite d.negative
  else ofDecimal w d.negative d.digits d.exponent

/-- Reads a decimal numeral at width `w`; `none` for text that is none, and for numbers too large
for the width. -/
def parse? (w : Width) (t : Text) : Option Binary := do
  let d ← Decimal.parse? t
  match d.nearest w with
  | .infinite _ => none
  | b => some b

end Binary

end TypeShape
