import TypeShape.Number.Binary

/-!
# The shortest decimal of a binary number

A finite binary number is written with the fewest decimal digits that round back to it, and with
the digits nearest to it among those.  The layout is positional for decimal exponents from `-4` to
`5` and scientific outside, with a signed exponent of at least two digits.
-/

namespace TypeShape.Binary

/-- Decimal digits `d₁d₂…dₙ` read as `d₁.d₂…dₙ · 10 ^ exponent`. -/
structure Digits where
  /-- The digits as a whole number, without trailing zeros. -/
  value : Nat
  exponent : Int
  deriving DecidableEq, Repr

/-- `x · 2 ^ e` as a fraction of whole numbers. -/
def dyadic (x : Nat) (e : Int) : Nat × Nat :=
  match e with
  | .ofNat k => (x * Nat.pow 2 k, 1)
  | .negSucc k => (x, Nat.pow 2 (k + 1))

/-- The decimal exponent of `num / den`: the `k` with `10 ^ k ≤ num / den < 10 ^ (k + 1)`. -/
def decimalExponent (num den : Nat) : Int :=
  let guess : Int := ((Nat.toDigits 10 num).length : Int) - (Nat.toDigits 10 den).length
  let below : Bool := match guess with
    | .ofNat k => num < den * Nat.pow 10 k
    | .negSucc k => num * Nat.pow 10 (k + 1) < den
  if below then guess - 1 else guess

/-- `num / den` over `10 ^ k`, as a fraction of whole numbers. -/
def overTen (num den : Nat) (k : Int) : Nat × Nat :=
  match k with
  | .ofNat k => (num, den * Nat.pow 10 k)
  | .negSucc k => (num * Nat.pow 10 (k + 1), den)

/-- Drops the trailing zeros of `n`, at most `fuel` of them. -/
def dropZeros : Nat → Nat → Nat
  | 0, n => n
  | fuel + 1, n => if n % 10 = 0 && 0 < n then dropZeros fuel (n / 10) else n

/-- The neighbour of the number on the grid of `n` digits that lies in the interval of numbers
that round to it, if there is one.  Of two, the nearer wins, and a tie goes to the even one.  The
number is `v / den` and the interval runs from `lo / den` to `hi / den`. -/
def onGrid? (lo v hi den : Nat) (closed : Bool) (k : Int) (n : Nat) : Option Nat :=
  let step : Int := k - (n : Int) + 1
  let (vn, d) := overTen v den step
  let (ln, _) := overTen lo den step
  let (hn, _) := overTen hi den step
  let t := vn / d
  let fits (c : Nat) : Bool :=
    if closed then ln ≤ c * d && c * d ≤ hn else ln < c * d && c * d < hn
  match fits t && 0 < t, fits (t + 1) with
  | true, true =>
    let r := vn % d
    some (if 2 * r < d then t else if d < 2 * r then t + 1 else if t % 2 = 0 then t else t + 1)
  | true, false => some t
  | false, true => some (t + 1)
  | false, false => none

/-- The first grid, from `n` digits on, with a neighbour in the interval. -/
def firstOnGrid (lo v hi den : Nat) (closed : Bool) (k : Int) : Nat → Nat → Nat × Nat
  | 0, n => (v / den, n)
  | fuel + 1, n =>
    match onGrid? lo v hi den closed k n with
    | some c => (c, n)
    | none => firstOnGrid lo v hi den closed k fuel (n + 1)

/-- The shortest digits that round to `s · 2 ^ e` at width `w`, for a positive significand. -/
def shortest (w : Width) (s : Nat) (e : Int) : Digits :=
  let narrow := s = Nat.pow 2 (w.precision - 1) && w.minExponent < e
  let (v, den) := dyadic (4 * s) (e - 2)
  let (lo, _) := dyadic (4 * s - if narrow then 1 else 2) (e - 2)
  let (hi, _) := dyadic (4 * s + 2) (e - 2)
  let k := decimalExponent v den
  let (c, n) := firstOnGrid lo v hi den (s % 2 = 0) k 20 1
  if c = Nat.pow 10 n then ⟨1, k + 1⟩ else ⟨dropZeros n c, k⟩

/-! ## Layout -/

/-- Decimal exponents from the first of these up to, and without, the second are written
positionally. -/
def positional : Int × Int := (-4, 6)

/-- A decimal exponent with its sign and at least two digits. -/
def renderExponent (e : Int) : Text :=
  let digits := Text.ofNat e.natAbs
  text (if e < 0 then "e-" else "e+") ++
    (if digits.length < 2 then text "0" ++ digits else digits)

/-- Digits in scientific or positional layout. -/
def Digits.render (d : Digits) : Text :=
  let ds := Text.ofNat d.value
  if d.exponent < positional.1 || positional.2 ≤ d.exponent then
    match ds with
    | [] => []
    | [c] => c :: renderExponent d.exponent
    | c :: cs => c :: text "." ++ cs ++ renderExponent d.exponent
  else if d.exponent < 0 then
    text "0." ++ List.replicate (d.exponent.natAbs - 1) (Text.byte '0') ++ ds
  else
    let whole := d.exponent.toNat + 1
    if ds.length ≤ whole then ds ++ List.replicate (whole - ds.length) (Text.byte '0')
    else ds.take whole ++ text "." ++ ds.drop whole

/-- The shortest text of a number at width `w`. -/
def render (w : Width) : Binary → Text
  | .nan => text "NaN"
  | .infinite negative => text (if negative then "-Inf" else "+Inf")
  | .finite negative s e =>
    text (if negative then "-" else "") ++
      if s = 0 then text "0" else (shortest w s e).render

end TypeShape.Binary
