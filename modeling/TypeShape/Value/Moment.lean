import TypeShape.Text.Basic

/-!
# Points in time

A word may be a date, or a date and a time of day.  Months, days, hours, minutes
and seconds have one or two digits, and a second may have a fraction.  A time of day that follows a
`T` names its zone; one that follows spaces does not.  In full a moment is written with two digits
for each part and at most nine for the fraction.
-/

namespace TypeShape

/-- A day of the calendar and a time of day. -/
structure Moment where
  year : Nat
  month : Nat
  day : Nat
  hour : Nat := 0
  minute : Nat := 0
  second : Nat := 0
  /-- The digits of the fraction of a second. -/
  fraction : Text := []
  /-- How many minutes the clock is ahead of universal time. -/
  ahead : Int := 0
  deriving DecidableEq, Repr

namespace Moment

/-- Whether a year has a twenty-ninth of February. -/
def isLeap (year : Nat) : Bool :=
  year % 4 = 0 && (year % 100 ≠ 0 || year % 400 = 0)

/-- The number of days of a month. -/
def daysIn (year month : Nat) : Nat :=
  if month = 2 then if isLeap year then 29 else 28
  else if [4, 6, 9, 11].contains month then 30
  else 31

/-- One or two digits in front. -/
def number? : Text → Option (Nat × Text)
  | c :: d :: rest =>
    if Text.isDigit c && Text.isDigit d then (Text.toNat? [c, d]).map (·, rest)
    else (Text.toNat? [c]).map (·, d :: rest)
  | [c] => (Text.toNat? [c]).map (·, [])
  | [] => none

/-- One or two digits after a mark. -/
def numberAfter? (mark : UInt8) : Text → Option (Nat × Text)
  | c :: rest => if c = mark then number? rest else none
  | [] => none

/-- The digits of a fraction, and what follows it. -/
def splitFraction : Text → Text × Text
  | c :: d :: rest =>
    if Text.isOneOf ".," c && Text.isDigit d then
      ((d :: rest).takeWhile Text.isDigit, (d :: rest).dropWhile Text.isDigit)
    else ([], c :: d :: rest)
  | t => ([], t)

/-- The minutes that a zone is ahead. -/
def zone? : Text → Option Int
  | [c] => if c = Text.byte 'Z' then some 0 else none
  | [sign, a, b, colon, c, d] => do
    let hours ← Text.toNat? [a, b]
    let minutes ← Text.toNat? [c, d]
    if colon = Text.byte ':' && hours ≤ 24 && minutes ≤ 60 then
      let ahead : Int := (60 * hours + minutes : Nat)
      if sign = Text.byte '+' then some ahead
      else if sign = Text.byte '-' then some (-ahead)
      else none
    else none
  | _ => none

/-- Puts a time of day to a moment, and gives what follows it. -/
def clock? (m : Moment) (t : Text) : Option (Moment × Text) := do
  let (hour, t) ← number? t
  let (minute, t) ← numberAfter? (Text.byte ':') t
  let (second, t) ← numberAfter? (Text.byte ':') t
  let (fraction, t) := splitFraction t
  if hour < 24 && minute < 60 && second < 60 then
    pure ({ m with hour, minute, second, fraction }, t)
  else none

/-- The moment that a word spells. -/
def parse? (t : Text) : Option Moment := do
  let year ← Text.toNat? (t.take 4)
  if (t.take 4).length ≠ 4 then none
  let (month, t) ← numberAfter? (Text.byte '-') (t.drop 4)
  let (day, t) ← numberAfter? (Text.byte '-') t
  if month < 1 || 12 < month || day < 1 || daysIn year month < day then none
  let m : Moment := { year, month, day }
  match t with
  | [] => pure m
  | c :: rest =>
    -- A zone may only follow a clock after a `T`.
    if Text.isOneOf "Tt" c then
      let (m, rest) ← m.clock? rest
      let ahead ← zone? rest
      pure { m with ahead }
    else if c = 32 then
      let (m, rest) ← m.clock? (rest.dropWhile (· = 32))
      if rest.isEmpty then pure m else none
    else none

/-- A number with zeros in front. -/
def padded (width n : Nat) : Text :=
  let digits := Text.ofNat n
  List.replicate (width - digits.length) (Text.byte '0') ++ digits

/-- A moment in full. -/
def render (m : Moment) : Text :=
  let fraction := ((m.fraction.take 9).reverse.dropWhile (· = Text.byte '0')).reverse
  let zone :=
    if m.ahead = 0 then text "Z"
    else
      let minutes := m.ahead.natAbs
      text (if m.ahead < 0 then "-" else "+") ++ padded 2 (minutes / 60) ++ text ":" ++
        padded 2 (minutes % 60)
  padded 4 m.year ++ text "-" ++ padded 2 m.month ++ text "-" ++ padded 2 m.day ++ text "T" ++
    padded 2 m.hour ++ text ":" ++ padded 2 m.minute ++ text ":" ++ padded 2 m.second ++
    (if fraction.isEmpty then [] else text "." ++ fraction) ++ zone

end Moment

end TypeShape
