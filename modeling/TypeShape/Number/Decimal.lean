import TypeShape.Number.Shortest

/-!
# Decimals

Exact decimals, for numbers that are written out and compared.  A binary number counts as the
shortest decimal that stands for it at double width.  What a floating-point number may be besides a
decimal has its place in the order too: the infinities at its ends, and what is not a number just
below one.
-/

namespace TypeShape

/-- The decimal `± digits · 10 ^ exponent`. -/
abbrev Decimal := Binary.Decimal

namespace Binary

namespace Decimal

/-- A whole number as a decimal. -/
def ofInt (n : Int) : Decimal :=
  ⟨n < 0, n.natAbs, 0⟩

/-- The opposite number. -/
def negate (d : Decimal) : Decimal :=
  ⟨!d.negative, d.digits, d.exponent⟩

/-- The whole number `d · 10 ^ -e`, for an exponent `e` not above that of `d`. -/
def scaledTo (e : Int) (d : Decimal) : Int :=
  let magnitude : Int := (d.digits * Nat.pow 10 (d.exponent - e).toNat : Nat)
  if d.negative then -magnitude else magnitude

/-- The order of two decimals by value. -/
def compare (a b : Decimal) : Ordering :=
  let e := min a.exponent b.exponent
  Ord.compare (a.scaledTo e) (b.scaledTo e)

/-- Whether a decimal is at least one. -/
def reachesOne (d : Decimal) : Bool :=
  d.compare (ofInt 1) != .lt

end Decimal

/-- A decimal, or what a floating-point number may be instead. -/
inductive Extended where
  | finite (value : Decimal)
  | infinite (negative : Bool)
  | notNumber
  deriving DecidableEq, Repr

namespace Extended

/-- The order of extended decimals. -/
def compare : Extended → Extended → Ordering
  | .finite a, .finite b => a.compare b
  | .finite a, .notNumber => if a.reachesOne then .gt else .lt
  | .notNumber, .finite b => if b.reachesOne then .lt else .gt
  | .notNumber, .notNumber => .eq
  | .infinite a, .infinite b => if a = b then .eq else if a then .lt else .gt
  | .infinite a, _ => if a then .lt else .gt
  | _, .infinite b => if b then .gt else .lt

end Extended

/-- The same number in the canonical form of double width. -/
def widen : Binary → Binary
  | .finite negative s e =>
    if s = 0 then .finite negative 0 Width.double.minExponent
    else
      let shift := Width.double.precision - (s.log2 + 1)
      .finite negative (s * Nat.pow 2 shift) (e - shift)
  | b => b

/-- The shortest decimal that stands for a finite number at double width, and what else a number
may be. -/
def toExtended (w : Width) (b : Binary) : Extended :=
  let b := match w with
    | .single => b.widen
    | .double => b
  match b with
  | .finite negative s e =>
    if s = 0 then .finite ⟨negative, 0, 0⟩
    else
      let d := shortest .double s e
      .finite ⟨negative, d.value, d.exponent - ((Text.ofNat d.value).length - 1 : Nat)⟩
  | .infinite negative => .infinite negative
  | .nan => .notNumber

end Binary

end TypeShape
