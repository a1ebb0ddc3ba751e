import TypeShape.Expr.Basic
import TypeShape.Value.HostType
import TypeShape.Value.Moment

/-!
# Values of the host

A value of the host is a tree of arrays and structures whose pointers, slices and maps lead into
a heap by address, so that values may share parts and may contain themselves.  The heap is a list
of cells; an address is an index into it.
-/

namespace TypeShape

/-- A value of the host. -/
inductive Value where
  /-- No value at all. -/
  | nil
  | bool (value : Bool)
  | int (kind : IntKind) (value : Int)
  | float (width : Width) (value : Binary)
  | complex
  | string (value : Text)
  | bytes (value : Text)
  /-- The first `length` items of the cell at `address`. -/
  | slice (elem : HostType) (address length : Nat)
  /-- A tuple of the first `length` items of the cell at `address`. -/
  | tuple (address length : Nat)
  | array (elem : HostType) (items : List Value)
  /-- A map with the entries of the cell at `address`. -/
  | map (key value : HostType) (address : Nat)
  /-- A pointer of some pointer type, to the value of a cell or to nothing. -/
  | pointer (type : HostType) (address : Option Nat)
  | func (type : HostType)
  | channel (type : HostType)
  /-- A structure with its fields by name. -/
  | struct (type : HostType) (fields : List (Text × Value))
  /-- A point in time. -/
  | moment (value : Moment)
  /-- A type used as a value. -/
  | typeObject (type : TypeExpr)
  /-- A value that declares its own type. -/
  | typed (type : TypeExpr)
  /-- A structure that a custom hook types. -/
  | hooked (hostType : HostType) (type : TypeExpr)
  /-- A protobuf message: its host type, the name of its message type, and the address of the
  descriptor that it refers to. -/
  | message (hostType : HostType) (name : Text) (descriptor : Nat)
  deriving Repr, Inhabited

/-- What an address of the heap holds. -/
inductive Cell where
  | value (v : Value)
  | items (vs : List Value)
  | entries (es : List (Value × Value))
  deriving Repr, Inhabited

/-- The world that values live in: the definitions of named types, and the heap. -/
structure Host where
  definitions : Table HostType := []
  cells : Array Cell := #[]
  deriving Inhabited

namespace Host

/-- Puts a cell into the heap and gives its address. -/
def alloc (h : Host) (c : Cell) : Nat × Host :=
  (h.cells.size, { h with cells := h.cells.push c })

/-- Changes the cell at an address. -/
def store (h : Host) (address : Nat) (c : Cell) : Host :=
  { h with cells := h.cells.setIfInBounds address c }

/-- The value that an address holds. -/
def valueAt (h : Host) (address : Nat) : Value :=
  match h.cells[address]? with
  | some (.value v) => v
  | _ => .nil

/-- The first `length` items that an address holds. -/
def itemsAt (h : Host) (address length : Nat) : List Value :=
  match h.cells[address]? with
  | some (.items vs) => vs.take length
  | _ => []

/-- The entries that an address holds. -/
def entriesAt (h : Host) (address : Nat) : List (Value × Value) :=
  match h.cells[address]? with
  | some (.entries es) => es
  | _ => []

end Host

/-- The host type of a value; a value that is none, and types used as values, have the type of
every value. -/
def Value.hostType : Value → HostType
  | .nil => .any
  | .bool _ => .bool
  | .int kind _ => .int kind
  | .float width _ => .float width
  | .complex => .complex
  | .string _ => .string
  | .bytes _ => .bytes
  | .slice elem _ _ => .slice elem
  | .tuple _ _ => .tuple
  | .array elem items => .array items.length elem
  | .map key value _ => .map key value
  | .pointer type _ => type
  | .func type => type
  | .channel type => type
  | .struct type _ => type
  | .moment _ => .named (text "time.Time")
  | .typeObject _ => .any
  | .typed _ => .any
  | .hooked hostType _ => hostType
  | .message hostType _ _ => .pointer hostType

end TypeShape
