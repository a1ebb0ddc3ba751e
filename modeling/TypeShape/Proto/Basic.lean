import TypeShape.Registry.Declare

/-!
# Protocol buffer files

A file declares messages; a message has fields and may declare messages of its own.  A map field
goes with a message for its entries, which is marked as such.  Every message but those becomes a
record class named by its full name, with a member for each field.
-/

namespace TypeShape

/-- The type of a field. -/
inductive ProtoType where
  /-- A scalar by its keyword. -/
  | scalar (keyword : Text)
  | enum
  /-- A message, or a group, by its full name. -/
  | message (name : Text)
  deriving DecidableEq, Repr

/-- How often a field occurs. -/
inductive Cardinality where
  | plain
  /-- At most once, and it can be told whether it occurs. -/
  | optional
  | repeated
  deriving DecidableEq, Repr

/-- What a field holds. -/
inductive FieldShape where
  | single (cardinality : Cardinality) (type : ProtoType)
  | map (key value : ProtoType)
  deriving DecidableEq, Repr

/-- A field of a message. -/
structure ProtoField where
  name : Text
  shape : FieldShape
  deriving DecidableEq, Repr

/-- A message: its name, whether it stands for the entries of a map field, its fields and the
messages declared in it. -/
inductive ProtoMessage where
  | mk (name : Text) (isMapEntry : Bool) (fields : List ProtoField) (nested : List ProtoMessage)
  deriving Repr, Inhabited

/-- A file, with the names of the files that it imports. -/
structure ProtoFile where
  name : Text
  package : Text := []
  imports : List Text := []
  messages : List ProtoMessage := []
  deriving Repr, Inhabited

/-- `outer.inner`, and the inner name alone when there is no outer one. -/
def qualify (outer inner : Text) : Text :=
  if outer.isEmpty then inner else outer ++ text "." ++ inner

/-- Writes a name in parts separated by underscores without them, each part capitalized. -/
def camelCase (name : Text) : Text :=
  (Text.splitOn (Text.byte '_') name).flatMap fun
    | [] => []
    | c :: cs => (if 97 ≤ c && c ≤ 122 then c - 32 else c) :: cs

namespace ProtoMessage

/-- The message of the entries of a map field. -/
def entryOf? (f : ProtoField) : Option ProtoMessage :=
  match f.shape with
  | .map key value =>
    some (.mk (camelCase f.name ++ text "Entry") true
      [⟨text "key", .single .plain key⟩, ⟨text "value", .single .plain value⟩] [])
  | .single _ _ => none

/-- A message with the entry messages that its map fields need. -/
def of (name : Text) (fields : List ProtoField) (nested : List ProtoMessage) : ProtoMessage :=
  .mk name false fields (nested ++ fields.filterMap entryOf?)

end ProtoMessage

/-! ## Import -/

/-- The keywords of scalars with the builtin classes of their values. -/
def scalarClasses : List (Text × Text) :=
  (["int32", "sint32", "sfixed32", "int64", "sint64", "sfixed64", "uint32", "fixed32", "uint64",
    "fixed64"].map fun k => (text k, Name.int)) ++
    [(text "float", Name.float), (text "double", Name.float), (text "bool", Name.bool),
      (text "string", Name.string), (text "bytes", Name.bytes)]

/-- The type expression of a single value of a field. -/
def ProtoType.expr : ProtoType → TypeExpr
  | scalar keyword => ((scalarClasses.lookup keyword).map TypeExpr.con).getD .any
  | enum => .con Name.int
  | message name => .con name

/-- The type expression of a field as it is seen on a message: what may be unset is `Optional`. -/
def FieldShape.expr : FieldShape → TypeExpr
  | map key value => .generic Name.map [key.expr, value.expr]
  | single .repeated t => .generic Name.list [t.expr]
  | single .optional t => .optionalOf t.expr
  | single .plain (.message name) => .optionalOf (.con name)
  | single .plain t => t.expr

namespace ProtoMessage

/-- The members that fields give rise to. -/
def members (fields : List ProtoField) : List Member :=
  fields.map fun f => ⟨f.name, f.shape.expr⟩

mutual

/-- Declares a message and the messages declared in it. -/
def declare (outer : Text) : ProtoMessage → Declaring Unit
  | .mk name isMapEntry fields nested =>
    if isMapEntry then pure ()
    else do
      let fullName := qualify outer name
      Registry.declare { name := fullName, kind := .record, members := members fields }
      declareAll fullName nested

/-- Declares messages one after the other. -/
def declareAll (outer : Text) : List ProtoMessage → Declaring Unit
  | [] => pure ()
  | m :: ms => do
    declare outer m
    declareAll outer ms

end

end ProtoMessage

namespace ProtoFile

/-- Declares the messages of a file. -/
def declareMessages (f : ProtoFile) : Declaring Unit :=
  Declaring.within f.name (ProtoMessage.declareAll f.package f.messages)

/-- Declares a list of files one after the other; the state is the names of the files seen. -/
def visitAll (visit : Text → List Text → Declaring (List Text)) :
    List Text → List Text → Declaring (List Text)
  | [], seen => pure seen
  | name :: names, seen => do
    let seen ← visit name seen
    visitAll visit names seen

/-- Declares a file after the files that it imports, each of them once, to a depth of `fuel`. -/
def visit (files : List ProtoFile) : Nat → Text → List Text → Declaring (List Text)
  | 0, _, seen => pure seen
  | fuel + 1, name, seen =>
    if seen.contains name then pure seen
    else match files.find? (·.name == name) with
      | none => pure (name :: seen)
      | some f => do
        let seen ← visitAll (visit files fuel) f.imports (name :: seen)
        f.declareMessages
        pure seen

/-- Declares the messages of the files named, and of the files they import, and sees to it that
messages are typed by their classes. -/
def importAll (files : List ProtoFile) (names : List Text) : Declaring Unit := do
  let _ ← visitAll (visit files (files.length + 1)) names []
  let r ← get
  if r.typers.contains .messages then pure () else Registry.addTyper .messages

end ProtoFile

end TypeShape
