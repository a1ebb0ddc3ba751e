import TypeShape.Number.Decimal
import TypeShape.Text.Letter
import TypeShape.Value.References

/-!
# Data

A datum is what a value says once its pointers are followed: null, a truth value, a number, a
string, bytes, a list or a structure of named data.  A point in time is a string.  Functions, channels, complex numbers and maps
whose keys are neither strings nor whole numbers are no data.  Of a structure of the host, the
fields whose names begin with a capital letter count.
-/

namespace TypeShape

/-- Plain data. -/
inductive Datum where
  | null
  | bool (value : Bool)
  | int (value : Int)
  | float (value : Binary.Extended)
  | string (value : Text)
  | bytes (value : Text)
  | list (items : List Datum)
  | struct (fields : List (Text × Datum))
  deriving Repr, Inhabited

namespace Datum

/-- A literal value as a datum. -/
def ofLiteral : Literal → Datum
  | .nil => null
  | .bool b => bool b
  | .string s => string s
  | .int n => int n
  | .address n => int n
  | .float w x => float (x.toExtended w)
  | .other => struct []

mutual

/-- A type expression as a datum: its parts under their names. -/
def ofTypeExpr : TypeExpr → Datum
  | .omitted => null
  | .con name => named name
  | .app head args =>
    struct [(text "Constructor", named head), (text "Args", list (ofTypeExprs args))]
  | .var name bound constraints =>
    struct [(text "Name", string name), (text "Bound", ofTypeExpr bound),
      (text "Constraints", list (ofTypeExprs constraints))]
  | .union members optional =>
    struct [(text "Types", list (ofTypeExprs members)), (text "Optional", bool optional)]
  | .callable params result ellipsis =>
    struct [(text "Params", list (ofTypeExprs params)), (text "Return", ofTypeExpr result),
      (text "Ellipsis", bool ellipsis)]
  | .typeOf operand => struct [(text "Type", ofTypeExpr operand)]
  | .annotated inner metadata =>
    struct [(text "Type", ofTypeExpr inner), (text "Metadata", list (metadata.map string))]
  | .literal values => struct [(text "Values", list (values.map ofLiteral))]
where
  /-- A structure with a name only. -/
  named (name : Text) : Datum := struct [(text "Name", string name)]

/-- A list of type expressions as data. -/
def ofTypeExprs : List TypeExpr → List Datum
  | [] => []
  | t :: ts => ofTypeExpr t :: ofTypeExprs ts

end

/-- The field name that a key of a map makes. -/
def keyName? : Value → Option Text
  | .string s => some s
  | .int _ n => some (Text.ofInt n)
  | _ => none

/-- Whether the keys of a type of map make field names. -/
def isKeyType (definitions : Table HostType) (t : HostType) : Bool :=
  match t.form definitions with
  | .string => true
  | .int _ => true
  | _ => false

mutual

/-- The datum of a value; `follow` gives the data of what it refers to. -/
def ofValueWith (h : Host) (follow : Value → Option Datum) : Value → Option Datum
  | .nil => some null
  | .bool b => some (bool b)
  | .int _ n => some (int n)
  | .float w x => some (float (x.toExtended w))
  -- Complex numbers, functions and channels have no datum.
  | .complex => none
  | .string s => some (string s)
  | .bytes b => some (bytes b)
  | .slice _ a n => ((h.itemsAt a n).mapM follow).map list
  | .tuple a n => ((h.itemsAt a n).mapM follow).map list
  | .array _ items => (ofValuesWith h follow items).map list
  | .map key _ a =>
    -- The keys of a structure are texts, so only keys that have one can be names.
    if isKeyType h.definitions key then
      ((h.entriesAt a).mapM fun (k, v) => do
        let name ← keyName? k
        let d ← follow v
        pure (name, d)).map struct
    else none
  -- A pointer counts as what it points to, and as null if that is nothing.
  | .pointer _ none => some null
  | .pointer _ (some a) => follow (h.valueAt a)
  | .func _ => none
  | .channel _ => none
  | .struct _ fields => (ofFieldsWith h follow fields).map struct
  | .moment m => some (string m.render)
  | .typeObject t => some (ofTypeExpr t)
  | .typed _ => some (struct [])
  | .hooked _ _ => some (struct [])
  | .message _ _ _ => some (struct [])

/-- The data of a list of values. -/
def ofValuesWith (h : Host) (follow : Value → Option Datum) : List Value → Option (List Datum)
  | [] => some []
  | v :: vs => do
    let d ← ofValueWith h follow v
    let ds ← ofValuesWith h follow vs
    pure (d :: ds)

/-- The data of the fields of a structure whose names are capitalized. -/
def ofFieldsWith (h : Host) (follow : Value → Option Datum) :
    List (Text × Value) → Option (List (Text × Datum))
  | [] => some []
  | (name, v) :: fs =>
    if Letter.isCapitalized name then do
      let d ← ofValueWith h follow v
      let ds ← ofFieldsWith h follow fs
      pure ((name, d) :: ds)
    else ofFieldsWith h follow fs

end

/-- The datum of a value, through at most `fuel` references on each path. -/
def ofValueFuel (h : Host) : Nat → Value → Option Datum
  | 0, _ => none
  | fuel + 1, v => ofValueWith h (ofValueFuel h fuel) v

/-- The datum of a value that does not refer to itself; `none` if some part of it is no data. -/
def ofValue? (h : Host) (v : Value) : Option Datum :=
  ofValueFuel h (h.pathBound + (v.refs h).length) v

end Datum

end TypeShape
