import TypeShape.Constraint.Label
import TypeShape.Constraint.Limits

/-!
# Settled data

Constraints that hold together at a place, and the datum at that place if there is one, settle what
the datum is, leave it undecided, or contradict each other.  A place without a datum takes the datum
that its constraints determine: a literal, a number that bounds leave alone, an empty list, a
structure of settled fields.

Of several alternatives those that contradict the rest are dropped.  The others must all settle the
same datum.  A list that may still grow is not the same as one that may not, and a structure that
admits other fields is not the same as a closed one.
-/

namespace TypeShape

/-- A datum that is settled, as far as two of them are told apart. -/
inductive Settled where
  /-- A datum without parts. -/
  | scalar (value : Datum)
  /-- A number of no particular kind. -/
  | number (value : Decimal)
  | list (growing : Bool) (items : List Settled)
  | struct (closed : Bool) (fields : List (Text × Settled))
  deriving Repr, Inhabited

namespace Settled

mutual

/-- Whether two settled data are the same; the order of fields does not matter. -/
def same : Settled → Settled → Bool
  | scalar a, scalar b => Constraint.sameScalar a b
  | number a, number b => a.compare b == .eq
  | list g xs, list h ys => g == h && sameAll xs ys
  | struct c xs, struct d ys => c == d && xs.length == ys.length && sameFields xs ys
  | _, _ => false

/-- Whether two lists agree place by place. -/
def sameAll : List Settled → List Settled → Bool
  | [], [] => true
  | x :: xs, y :: ys => same x y && sameAll xs ys
  | _, _ => false

/-- Whether all fields of a list are the same in another. -/
def sameFields : List (Text × Settled) → List (Text × Settled) → Bool
  | [], _ => true
  | (n, x) :: xs, ys =>
    (match ys.lookup n with
      | some y => same x y
      | none => false) && sameFields xs ys

end

mutual

/-- A datum that nothing constrains. -/
def ofDatum : Datum → Settled
  | .list items => list false (ofData items)
  | .struct fields => struct false (ofFields fields)
  | d => scalar d

/-- Data that nothing constrains. -/
def ofData : List Datum → List Settled
  | [] => []
  | d :: ds => ofDatum d :: ofData ds

/-- Fields that nothing constrains. -/
def ofFields : List (Text × Datum) → List (Text × Settled)
  | [] => []
  | (n, d) :: fs => (n, ofDatum d) :: ofFields fs

end

end Settled

/-- What constraints make of a place. -/
inductive Outcome where
  /-- They contradict each other, or the datum, at the place that a path leads to. -/
  | conflict (path : List Text)
  /-- No single datum is left, at the place that a path leads to. -/
  | undecided (path : List Text)
  | settled (value : Settled)
  deriving Repr, Inhabited

namespace Outcome

/-- Whether constraints contradict each other. -/
def isConflict : Outcome → Bool
  | conflict _ => true
  | _ => false

/-- The settled datum. -/
def settled? : Outcome → Option Settled
  | settled v => some v
  | _ => none

/-- The outcome of several alternatives. -/
def ofAlternatives (outcomes : List Outcome) : Outcome :=
  match outcomes with
  | [o] => o
  -- Contradictions drop out; what is left must agree on the datum.
  | outcomes =>
    match outcomes.filter (!·.isConflict) with
    | [] => conflict []
    | [o] => o
    | survivors =>
      match survivors.filterMap settled? with
      | [] => undecided []
      | v :: vs =>
        if vs.length + 1 = survivors.length && vs.all v.same then settled v else undecided []

/-- The outcome of a place from those of its parts: the first contradiction, else the first part
that is undecided, else what `build` makes of the parts. -/
def ofParts (parts : List (Text × Outcome)) (label : Text → Text)
    (build : List (Text × Settled) → Settled) : Outcome :=
  let contradiction := parts.findSome? fun
    | (n, .conflict path) => some (conflict (label n :: path))
    | _ => none
  let open? := parts.findSome? fun
    | (n, .undecided path) => some (undecided (label n :: path))
    | _ => none
  match contradiction, open? with
  | some o, _ => o
  | none, some o => o
  | none, none => settled (build (parts.filterMap fun (n, o) => o.settled?.map (n, ·)))

end Outcome

namespace Constraint

/-- Settles the parts of a place: constraints that hold together, and the datum if there is one. -/
abbrev Settling := List Constraint → Option Datum → Outcome

/-- Settles a place that holds a datum without parts. -/
def settleScalar (kinds : Kinds) (atoms : List Constraint) (datum : Option Datum) : Outcome :=
  let literal := atoms.findSome? fun
    | .literal v => some v
    | _ => none
  let admitted (d : Datum) (v : Settled) : Outcome :=
    if atoms.all (atomAdmits d) then .settled v else .conflict []
  -- Given data and literals are checked against all atoms.  Else bounds may leave a single number.
  match datum <|> literal with
  | some d => admitted d (.scalar d)
  | none =>
    match boundsGap (kinds == Kinds.wholeNumbers) atoms with
    | .nothing => .conflict []
    | .more => .undecided []
    | .one x =>
      if kinds == Kinds.wholeNumbers then admitted (.int (floor x)) (.scalar (.int (floor x)))
      else
        let d : Datum := .float (.finite x)
        admitted d (if kinds == Kinds.floats then .scalar d else .number x)

/-- Settles a place that holds a list.  Without a datum and without a constraint that fixes its
length the list is empty. -/
def settleList (deeper : Settling) (atoms : List Constraint) (datum : Option Datum) : Outcome :=
  -- A fixed list constrains place by place, an open one every place alike.
  let tuples : List (List Constraint) := atoms.filterMap fun
    | .tuple elems => some elems
    | _ => none
  let everywhere : List Constraint := atoms.filterMap fun
    | .listOf elem => some elem
    | _ => none
  let items : Option (List (Option Datum)) := match datum with
    | some (.list ds) => some (ds.map some)
    | _ => tuples.head?.map fun elems => elems.map fun _ => none
  -- The length comes from the datum, else from the first fixed list.
  match items with
  | none => .settled (.list true [])
  | some items =>
    if tuples.any (·.length != items.length) then .conflict []
    else
      let parts := items.zipIdx.map fun (d, i) =>
        (Label.ofIndex i, deeper (tuples.filterMap (·[i]?) ++ everywhere) d)
      Outcome.ofParts parts id fun parts => .list false (parts.map (·.2))

/-- Settles a place that holds a structure.  A closed structure forbids all fields but its own; if
it may be `opened`, it does not beside a structure of whatever fields. -/
def settleStruct (deeper : Settling) (opened : Bool) (atoms : List Constraint)
    (datum : Option Datum) : Outcome :=
  let closures : List (List (Text × Constraint)) := atoms.filterMap fun
    | .closed fields => some fields
    | _ => none
  let everywhere : List Constraint := atoms.filterMap fun
    | .fieldsOf elem => some elem
    | _ => none
  let given := match datum with
    | some (.struct fields) => fields
    | _ => []
  -- Fields that are wanted but not given take what their constraints determine.
  let wanted := (closures.flatMap fun fields => fields.map (·.1)).eraseDups
  let missing := wanted.filter fun n => (given.lookup n).isNone
  let entries := (given.map fun (n, d) => (n, some d)) ++ missing.map fun n => (n, none)
  -- A field is forbidden if one of the closed structures does not name it.
  let forbidden := entries.find? fun (n, _) =>
    closures.any fun fields => (fields.lookup n).isNone
  match if opened && atoms.any isOpenStruct then none else forbidden with
  | some (n, _) => .conflict [Label.ofField n]
  | none =>
    let parts := entries.map fun (n, d) =>
      let own := closures.flatMap fun fields => (fields.filter (·.1 == n)).map (·.2)
      (n, deeper (own ++ everywhere) d)
    Outcome.ofParts parts Label.ofField (.struct (!closures.isEmpty))

/-- Settles a place at which a conjunction of atoms holds. -/
def settleAtoms (deeper : Settling) (opened : Bool) (atoms : List Constraint)
    (datum : Option Datum) : Outcome :=
  let atoms := atoms.filter (!·.isTop)
  if atoms.isEmpty then
    match datum with
    | some d => .settled (.ofDatum d)
    | none => .undecided []
  else
    let start := match datum with
      | some d => Kinds.ofDatum d
      | none => Kinds.all
    let kinds := (atoms.map Kinds.ofAtom).foldl Kinds.common start
    if kinds.isVoid then .conflict []
    else if kinds == Kinds.lists then settleList deeper atoms datum
    else if kinds == Kinds.structures then settleStruct deeper opened atoms datum
    else settleScalar kinds atoms datum

/-- Settles a place through a number of levels, which must not be fewer than the constraints
have. -/
def settleWithin : Nat → Bool → Settling
  | 0, _, _, _ => .undecided []
  | levels + 1, opened, constraints, datum =>
    Outcome.ofAlternatives ((allAlternatives constraints).map fun atoms =>
      settleAtoms (settleWithin levels false) opened atoms datum)

/-- What a constraint makes of a datum, or by itself.  Only in a constraint that is a conjunction as
a whole, and only at its outermost level, closed structures may be opened. -/
def settle (c : Constraint) (datum : Option Datum) : Outcome :=
  settleWithin (c.depth + 1) c.isConjunction [c] datum

/-- Whether a constraint contradicts itself. -/
def isVoid (c : Constraint) : Bool :=
  (c.settle none).isConflict

/-- The path to a place of a datum that a constraint does not accept; `none` if it accepts the
datum. -/
def failure? (c : Constraint) (d : Datum) : Option (List Text) :=
  match c.settle (some d) with
  | .conflict path => some path
  | .undecided path => some path
  | .settled _ => none

/-- Whether a datum is accepted. -/
def accepts (c : Constraint) (d : Datum) : Bool :=
  (c.failure? d).isNone

end Constraint

end TypeShape
