import TypeShape.Matching.Reducing
import TypeShape.Value.Basic

/-!
# Inferring types from values

The inferred shape of a value is the narrowest one that the engine can name.  Containers are
entered as long as there is depth left, and only a sample of their elements may be looked at;
pointers are followed without spending depth, until one is met that is already being followed.
The shapes seen in a container are merged into one, or into a union in the order of their texts.
-/

namespace TypeShape

/-- The first shapes of each kind, in order. -/
def distinctShapes : List Shape → List Shape → List Shape
  | kept, [] => kept
  | kept, s :: rest =>
    if kept.any (fun k => s.same k) then distinctShapes kept rest
    else distinctShapes (kept ++ [s]) rest

/-- One shape for all: a single distinct shape stands for itself, several make a union in the order
of their texts. -/
def mergeShapes (shapes : List Shape) : Shape :=
  match distinctShapes [] shapes with
  | [s] => s
  | distinct => .unionOf (distinct.mergeSort fun a b => Text.le a.render b.render)

/-- At most `maxSample` of the indices below `n`, at an even stride; all of them if `maxSample` is
not positive. -/
def sampleIndices (n : Nat) (maxSample : Int) : List Nat :=
  let count := if 0 < maxSample && maxSample < n then maxSample.toNat else n
  (List.range count).map fun i => i * n / count

/-- Drops the arguments of a shape when there is no depth left. -/
def coarsen (depth : Nat) (s : Shape) : Shape :=
  if depth = 0 then .bare s.origin else s

namespace Registry

/-- The shape of a host type that is no pointer, one layer of it; `inner` gives the shapes of its
parts if there is depth left for them. -/
def hostLayer (r : Registry) (definitions : Table HostType) (inner : Option (HostType → Shape))
    (t : HostType) : Shape :=
  match r.hostClass? t with
  | some name => .leaf name
  | none =>
    -- Bytes are told by the type itself, everything else by its form.
    if t.same .bytes then .leaf Name.bytes
    else match t.form definitions with
      | .tuple => .leaf Name.tuple
      | .bool => .leaf Name.bool
      | .int _ => .leaf Name.int
      | .float _ => .leaf Name.float
      | .string => .leaf Name.string
      | .any => .any
      | .slice elem | .array _ elem =>
        match inner with
        | none => .leaf Name.list
        | some f => .ofClass Name.list [f elem]
      | .map key value =>
        match inner with
        | none => .leaf Name.map
        | some f => .ofClass Name.map [f key, f value]
      | .func params results _ =>
        match inner with
        | none => .anyCallable
        | some f =>
          let result := match results with
            | [] => .leaf Name.nil
            | [t] => f t
            | ts => .ofClass Name.tuple (ts.map f)
          .callableOf (params.map f) result
      -- Anything else is taken for a class of the name of the type.
      | _ => .leaf t.render

/-- The shape of a host type, one layer of it.  A pointer type has the shape of what its chain of
pointers ends at. -/
def hostShapeStep (r : Registry) (definitions : Table HostType)
    (inner : Option (HostType → Shape)) (t : HostType) : Shape :=
  match t.target? definitions with
  | none => r.hostLayer definitions inner t
  | some _ =>
    match r.hostClass? t with
    | some name => .leaf name
    | none =>
      -- A pointer type that leads back to itself ends nowhere and is named by its own text.
      match t.pointee definitions with
      | none => .leaf t.render
      | some target => r.hostLayer definitions inner target

/-- The shape of a host type, to the given depth. -/
def hostShape (r : Registry) (definitions : Table HostType) : Nat → HostType → Shape
  | 0 => r.hostShapeStep definitions none
  | depth + 1 => r.hostShapeStep definitions (some (hostShape r definitions depth))

/-- Where following pointers ends: at a value that is no pointer to follow, or at a pointer of some
type that is being followed already. -/
inductive Landing where
  | value (v : Value)
  | repeated (type : HostType)

/-- Follows pointers from a value, at most `fuel` of them.  `visiting` are the addresses on the way
so far. -/
def land (r : Registry) (h : Host) : Nat → List Nat → Value → List Nat × Landing
  | fuel + 1, visiting, .pointer type (some a) =>
    -- A pointer whose type is bound to a class is not followed.
    if (r.hostClass? type).isSome then (visiting, .value (.pointer type (some a)))
    else if visiting.contains a then (visiting, .repeated type)
    else land r h fuel (a :: visiting) (h.valueAt a)
  | _, visiting, v => (visiting, .value v)

/-- What there is to enter in a value. -/
inductive Contents where
  | none
  /-- Elements that are typed one by one. -/
  | positions (items : List Value)
  /-- Elements that are typed together. -/
  | elements (items : List Value)
  | entries (entries : List (Value × Value))

/-- The contents of a value; a container that is empty, or whose host type is bound to a class, is
not entered. -/
def contents (r : Registry) (h : Host) (v : Value) : Contents :=
  match v with
  -- A tuple is entered whatever its host type is bound to.
  | .tuple a n =>
    match h.itemsAt a n with
    | [] => .none
    | items => .positions items
  | v =>
    if (r.hostClass? v.hostType).isSome then .none
    else match v with
      | .slice _ a n =>
        match h.itemsAt a n with
        | [] => .none
        | items => .elements items
      | .array _ items => if items.isEmpty then .none else .elements items
      | .map _ _ a =>
        match h.entriesAt a with
        | [] => .none
        | entries => .entries entries
      | _ => .none

/-- The shape of a container that is not entered: the class its host type is bound to, or else the
class of all such containers. -/
def containerShape (r : Registry) (type : HostType) (name : Text) : Shape :=
  .leaf ((r.hostClass? type).getD name)

section

variable {m : Type → Type} [Monad m] [Reducing m]

/-- The shape of a value that is no container, or is not entered. -/
def inferPlain (r : Registry) (h : Host) (depth : Nat) (v : Value) : m Shape :=
  match v with
  | .nil => pure (.leaf Name.nil)
  | .typeObject t =>
    if depth = 0 then pure .anyType
    else do
      let s ← r.shapeM t
      pure (.typeOf s)
  | .typed t => do
    let s ← r.shapeM t
    pure (coarsen depth s)
  | .bytes _ => pure (.leaf Name.bytes)
  | .tuple _ _ => pure (.leaf Name.tuple)
  | .hooked hostType t =>
    -- Without the hook, the value is told by its host type like any other.
    if r.typers.contains .custom then do
      let s ← r.shapeM t
      pure (coarsen depth s)
    else pure (r.hostShape h.definitions 0 hostType)
  | .message hostType name _ =>
    if r.typers.contains .messages then do
      let s ← r.shapeM (.con name)
      pure (coarsen depth s)
    else pure (r.hostShape h.definitions 0 (.pointer hostType))
  | .pointer type none =>
    match r.hostClass? type with
    | some name => pure (.leaf name)
    | none => pure (.leaf Name.nil)
  | .func type => pure (r.hostShape h.definitions depth type)
  | .slice elem _ _ => pure (r.containerShape (.slice elem) Name.list)
  | .array elem items => pure (r.containerShape (.array items.length elem) Name.list)
  | .map key value _ => pure (r.containerShape (.map key value) Name.map)
  | v => pure (r.hostShape h.definitions 0 v.hostType)

/-- The shape of a value.  `depth` levels of containers may still be entered, and `visiting` are
the addresses of the pointers being followed. -/
def inferAt (r : Registry) (h : Host) (maxSample : Int) : Nat → List Nat → Value → m Shape
  | 0, visiting, v =>
    -- No pointer is followed twice, so the cells bound the length of the way.
    match r.land h (h.cells.size + 1) visiting v with
    | (_, .repeated type) => pure (r.hostShape h.definitions 0 type)
    | (_, .value v) => r.inferPlain h 0 v
  | depth + 1, visiting, v =>
    match r.land h (h.cells.size + 1) visiting v with
    | (_, .repeated type) => pure (r.hostShape h.definitions 0 type)
    | (visiting, .value v) =>
      let element := inferAt r h maxSample depth visiting
      match r.contents h v with
      | .none => r.inferPlain h (depth + 1) v
      | .positions items => do
        let shapes ← items.mapM element
        pure (.ofClass Name.tuple shapes)
      | .elements items => do
        -- Only lists are sampled; the entries of a map are all looked at.
        let sample := (sampleIndices items.length maxSample).filterMap fun i => items[i]?
        let shapes ← sample.mapM element
        pure (.ofClass Name.list [mergeShapes shapes])
      | .entries entries => do
        let shapes ← entries.mapM fun (k, x) => do
          let key ← element k
          let value ← element x
          pure (key, value)
        pure (.ofClass Name.map [mergeShapes (shapes.map (·.1)), mergeShapes (shapes.map (·.2))])

/-- The narrowest shape that can be named for a value, to a depth of at most `maxRecursion`. -/
def inferM (r : Registry) (h : Host) (v : Value) (maxDepth maxSample : Int) : m Shape :=
  r.inferAt h maxSample (min maxDepth.toNat maxRecursion) [] v

end

end Registry

end TypeShape
