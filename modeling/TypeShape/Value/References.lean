import TypeShape.Value.Basic

/-!
# Self-referential values

The references of a value are its non-nil pointers and its non-empty slices and maps, found
through arrays and structures.  A value refers to itself when following references from it leads
from some reference back to that reference.  Two slices of one cell are the same reference only if
they have the same length.
-/

namespace TypeShape

/-- Something that a value refers to. -/
inductive Ref where
  | pointer (address : Nat)
  | slice (address length : Nat)
  | map (address : Nat)
  deriving DecidableEq, Repr

namespace Value

mutual

/-- The references of a value. -/
def refs (h : Host) : Value → List Ref
  | .pointer _ (some a) => [.pointer a]
  -- An empty slice refers to nothing, so it cannot lead back to itself.
  | .slice _ a n => if (h.itemsAt a n).isEmpty then [] else [.slice a n]
  | .tuple a n => if (h.itemsAt a n).isEmpty then [] else [.slice a n]
  | .map _ _ a => if (h.entriesAt a).isEmpty then [] else [.map a]
  | .array _ items => refsAll h items
  | .struct _ fields => refsFields h fields
  | .message _ _ descriptor => [.pointer descriptor]
  | _ => []

/-- The references of a list of values. -/
def refsAll (h : Host) : List Value → List Ref
  | [] => []
  | v :: vs => refs h v ++ refsAll h vs

/-- The references of the fields of a structure. -/
def refsFields (h : Host) : List (Text × Value) → List Ref
  | [] => []
  | (_, v) :: fs => refs h v ++ refsFields h fs

end

end Value

namespace Host

/-- The values that a reference leads to. -/
def targets (h : Host) : Ref → List Value
  | .pointer a => [h.valueAt a]
  | .slice a n => h.itemsAt a n
  -- Keys are not followed.
  | .map a => (h.entriesAt a).map (·.2)

/-- The references that a reference leads to. -/
def next (h : Host) (r : Ref) : List Ref :=
  (h.targets r).flatMap (Value.refs h)

/-- Every reference that occurs in the heap. -/
def allRefs (h : Host) : List Ref :=
  h.cells.toList.flatMap fun
    | .value v => v.refs h
    | .items vs => vs.flatMap (Value.refs h)
    | .entries es => es.flatMap fun (_, v) => v.refs h

/-- Whether following a list of references, `fuel` steps at most, meets a reference that is already
on the path to it. -/
def meetsPath (h : Host) : Nat → List Ref → List Ref → Bool
  | 0, _, _ => false
  | fuel + 1, path, refs =>
    refs.any fun r => path.contains r || meetsPath h fuel (r :: path) (h.next r)

/-- The number of steps after which a path must have met itself. -/
def pathBound (h : Host) : Nat :=
  h.allRefs.length + 2

end Host

/-- Whether a value reaches itself through pointers, slices or maps. -/
def Value.isSelfReferential (h : Host) (v : Value) : Bool :=
  h.meetsPath (h.pathBound + (v.refs h).length) [] (v.refs h)

end TypeShape
