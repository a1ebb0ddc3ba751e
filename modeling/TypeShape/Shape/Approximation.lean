import TypeShape.Shape.Basic

/-!
# Approximations

A shape is made shallower by removing all its nodes at the deepest level; a node that loses all
its arguments becomes bare.  The approximations of a shape are the shape itself and what is left
of it level by level, down to its bare origin.
-/

namespace TypeShape.Shape

/-- Whether a list of trimmed slots still holds a shape, or a single slot. -/
def keepsSlots (slots : List Slot) : Bool :=
  slots.any fun
    | .single _ => true
    | .group ss => !ss.isEmpty

mutual

/-- Removes what lies `room` levels below the root and deeper. -/
def trim (room : Nat) : Shape → Shape
  | bare origin => bare origin
  | applied origin slots =>
    let kept := trimSlots room slots
    -- A shape with nothing left in its slots is bare.
    if keepsSlots kept then applied origin kept else bare origin

/-- Removes what lies too deep from a list of slots; single slots go, groups are emptied. -/
@[simp] def trimSlots (room : Nat) : List Slot → List Slot
  | [] => []
  | .single s :: rest =>
    -- A single slot takes its place with it, so the slots behind it move up.
    if room ≤ 1 then trimSlots room rest else .single (trim (room - 1) s) :: trimSlots room rest
  | .group ss :: rest =>
    .group (if room ≤ 1 then [] else trimAll (room - 1) ss) :: trimSlots room rest

/-- Removes what lies too deep from every shape in a list. -/
def trimAll (room : Nat) : List Shape → List Shape
  | [] => []
  | s :: rest => trim room s :: trimAll room rest

end

/-- The shape without its deepest level; `none` for a shape of one level. -/
def shallower? (s : Shape) : Option Shape :=
  if s.depth ≤ 1 then none else some (trim (s.depth - 1) s)

/-- The shape followed by what is left of it level by level, at most `fuel` times. -/
def approximationsFrom : Nat → Shape → List Shape
  | 0, s => [s]
  | fuel + 1, s =>
    match s.shallower? with
    | none => [s]
    | some t => s :: approximationsFrom fuel t

/-- The shape and its successively shallower versions; each has fewer levels, so there are no more
of them than levels. -/
def approximations (s : Shape) : List Shape :=
  approximationsFrom s.depth s

end TypeShape.Shape
