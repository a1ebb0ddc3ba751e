import TypeShape.Number.Binary
import TypeShape.Table

/-!
# Host types

The values that are checked against type expressions live in a host program with a type system of
its own: fixed-width numbers, slices, arrays, maps, pointers, functions, channels, and types with
a name.  A named type stands for its definition, which may lead back to it.
-/

namespace TypeShape

/-- The fixed-width whole numbers of the host. -/
inductive IntKind where
  | int | int8 | int16 | int32 | int64
  | uint | uint8 | uint16 | uint32 | uint64 | address
  deriving DecidableEq, Repr

/-- The host's word for a kind of whole number. -/
def IntKind.name : IntKind → Text
  | int => text "int"
  | int8 => text "int8"
  | int16 => text "int16"
  | int32 => text "int32"
  | int64 => text "int64"
  | uint => text "uint"
  | uint8 => text "uint8"
  | uint16 => text "uint16"
  | uint32 => text "uint32"
  | uint64 => text "uint64"
  | address => text "uintptr"

/-- A type of the host. -/
inductive HostType where
  | bool
  | int (kind : IntKind)
  | float (width : Width)
  | complex
  | string
  /-- The interface that every value satisfies. -/
  | any
  /-- An interface with methods, by its name. -/
  | interface (name : Text)
  | slice (elem : HostType)
  | array (length : Nat) (elem : HostType)
  | map (key value : HostType)
  | pointer (target : HostType)
  | channel (elem : HostType)
  | func (params results : List HostType) (variadic : Bool)
  /-- The type of tuples: a slice of anything, with a name of its own. -/
  | tuple
  /-- A structure without a name. -/
  | struct
  /-- A type by its name. -/
  | named (name : Text)
  deriving Repr, Inhabited

namespace HostType

/-- The type of byte strings. -/
def bytes : HostType := slice (int .uint8)

mutual

/-- Whether two host types are identical. -/
def same : HostType → HostType → Bool
  | bool, bool => true
  | int a, int b => a == b
  | float a, float b => a == b
  | complex, complex => true
  | string, string => true
  | any, any => true
  | interface a, interface b => a == b
  | slice a, slice b => same a b
  | array m a, array n b => m == n && same a b
  | map a₁ a₂, map b₁ b₂ => same a₁ b₁ && same a₂ b₂
  | pointer a, pointer b => same a b
  | channel a, channel b => same a b
  | func a₁ a₂ a₃, func b₁ b₂ b₃ => sameAll a₁ b₁ && sameAll a₂ b₂ && a₃ == b₃
  | tuple, tuple => true
  | struct, struct => true
  | named a, named b => a == b
  | _, _ => false

/-- Whether two lists of host types are identical. -/
@[simp] def sameAll : List HostType → List HostType → Bool
  | [], [] => true
  | a :: as, b :: bs => same a b && sameAll as bs
  | _, _ => false

end

/-- The texts of parameters; the last one of a variadic function loses its slice brackets and
gains dots. -/
def markVariadic (variadic : Bool) (params : List Text) : List Text :=
  if variadic then
    match params.reverse with
    | [] => []
    | last :: front => ((text "..." ++ last.drop 2) :: front).reverse
  else params

mutual

/-- The host's spelling of a type. -/
def render : HostType → Text
  | bool => text "bool"
  | int kind => kind.name
  | float .single => text "float32"
  | float .double => text "float64"
  | complex => text "complex128"
  | string => text "string"
  | any => text "interface \x7b\x7d"
  | interface name => name
  | slice elem => text "[]" ++ elem.render
  | array length elem => Text.bracketed (Text.ofNat length) ++ elem.render
  | map key value => text "map" ++ Text.bracketed key.render ++ value.render
  | pointer target => text "*" ++ target.render
  | channel elem => text "chan " ++ elem.render
  | func params results variadic =>
    let ins := Text.parenthesized (Text.commas (markVariadic variadic (renderAll params)))
    text "func" ++ ins ++
      match renderAll results with
      | [] => []
      | [r] => text " " ++ r
      | rs => text " " ++ Text.parenthesized (Text.commas rs)
  | tuple => text "compat.Tuple"
  | struct => text "struct \x7b\x7d"
  | named name => name

/-- The host's spelling of every member of a list of types. -/
def renderAll : List HostType → List Text
  | [] => []
  | t :: ts => t.render :: renderAll ts

end

/-- How many pointer steps a type spells out. -/
def pointerSteps : HostType → Nat
  | pointer target => pointerSteps target + 1
  | _ => 0

/-- What a type is made of: a named type stands for its definition, and a name without definition
is a structure. -/
def form (definitions : Table HostType) : HostType → HostType
  | named name => (definitions.find? name).getD struct
  | t => t

/-- What a pointer type points to. -/
def target? (definitions : Table HostType) (t : HostType) : Option HostType :=
  match t.form definitions with
  | pointer target => some target
  | _ => none

/-- Follows pointer types to the first type that is none; `none` when that leads to a type in
`seen`, or for longer than `fuel`. -/
def pointeeFrom (definitions : Table HostType) : Nat → List HostType → HostType → Option HostType
  | 0, _, _ => none
  | fuel + 1, seen, t =>
    match t.target? definitions with
    | none => some t
    | some next =>
      if seen.any (same next) then none
      else pointeeFrom definitions fuel (next :: seen) next

/-- The type at the end of a chain of pointer types; `none` for one that never ends.  No chain
visits more types than are spelled out in `t` and in the definitions. -/
def pointee (definitions : Table HostType) (t : HostType) : Option HostType :=
  let steps := definitions.foldr (fun (_, d) n => d.pointerSteps + 1 + n) t.pointerSteps
  pointeeFrom definitions (steps + 2) [t] t

end HostType

end TypeShape
