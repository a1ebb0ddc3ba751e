import TypeShape.Constraint.Basic
import TypeShape.Number.Integer

/-!
# Bounds that meet

A lower and an upper bound on numbers may leave no number between them, or exactly one.  Between
whole numbers this is told from the bounds rounded inward; between other numbers only if the
distance of the bounds is whole.
-/

namespace TypeShape.Constraint

/-- A bound on one side. -/
structure Limit where
  strict : Bool
  value : Decimal
  deriving DecidableEq, Repr

/-- What a lower and an upper bound leave. -/
inductive Gap where
  /-- Nothing. -/
  | nothing
  /-- One number. -/
  | one (value : Decimal)
  /-- More, as far as it can be told. -/
  | more
  deriving DecidableEq, Repr

/-- The operand of a bound as a decimal. -/
def decimal? (d : Datum) : Option Decimal :=
  match number? d with
  | some (.finite x) => some x
  | _ => none

/-- The lower bound that an atom sets. -/
def lower? : Constraint → Option Limit
  | .bound .gt d => (decimal? d).map (⟨true, ·⟩)
  | .bound .ge d => (decimal? d).map (⟨false, ·⟩)
  | _ => none

/-- The upper bound that an atom sets. -/
def upper? : Constraint → Option Limit
  | .bound .lt d => (decimal? d).map (⟨true, ·⟩)
  | .bound .le d => (decimal? d).map (⟨false, ·⟩)
  | _ => none

/-- The tighter of two bounds on the same side, which is `.gt` for the greater of lower bounds and
`.lt` for the lesser of upper bounds. -/
def Limit.tighter (side : Ordering) (a b : Limit) : Limit :=
  match a.value.compare b.value with
  | .eq => if a.strict then a else b
  | o => if o == side then a else b

/-- The tightest of the bounds on a side. -/
def tightest? (side : Ordering) : List Limit → Option Limit
  | [] => none
  | l :: ls => some (ls.foldl (Limit.tighter side) l)

/-- The greatest whole number that is not above a decimal. -/
def floor (d : Decimal) : Int :=
  let e := min d.exponent 0
  d.scaledTo e / ((Nat.pow 10 (-e).toNat : Nat) : Int)

/-- The least whole number that is not below a decimal. -/
def ceiling (d : Decimal) : Int :=
  -floor d.negate

/-- The distance from one decimal to another, if it is a whole number that fits into a word. -/
def distance? (a b : Decimal) : Option Int :=
  let e := min (min a.exponent b.exponent) 0
  let unit : Int := ((Nat.pow 10 (-e).toNat : Nat) : Int)
  let difference := b.scaledTo e - a.scaledTo e
  if difference % unit = 0 && Integer.isInt64 (difference / unit) then some (difference / unit)
  else none

/-- What a lower and an upper bound leave; `whole` if only whole numbers count. -/
def gap (whole : Bool) (lower upper : Limit) : Gap :=
  -- Rounding the bounds to whole numbers changes nothing for the whole numbers between them.
  let lo : Decimal :=
    if whole then .ofInt (if lower.strict then floor lower.value else ceiling lower.value)
    else lower.value
  let hi : Decimal :=
    if whole then .ofInt (if upper.strict then ceiling upper.value else floor upper.value)
    else upper.value
  -- With one number in between it is pinned down, with none the bounds contradict each other.
  match distance? lo hi with
  | none => .more
  | some d =>
    if d < 0 then .nothing
    else if d = 0 then if lower.strict || upper.strict then .nothing else .one lo
    else if whole && d = 1 then
      match lower.strict, upper.strict with
      | true, true => .nothing
      | true, false => .one hi
      | false, true => .one lo
      | false, false => .more
    else if whole && d = 2 && lower.strict && upper.strict then .one (.ofInt (floor lo + 1))
    else .more

/-- What the bounds among atoms leave. -/
def boundsGap (whole : Bool) (atoms : List Constraint) : Gap :=
  match tightest? .gt (atoms.filterMap lower?), tightest? .lt (atoms.filterMap upper?) with
  | some lower, some upper => gap whole lower upper
  | _, _ => .more

end TypeShape.Constraint
