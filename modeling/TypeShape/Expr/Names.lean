import TypeShape.Text.Basic

/-!
# Names with a fixed meaning

The builtin classes, and the constructors that the reader of type expressions knows by name.
-/

namespace TypeShape.Name

/-! ## Builtin classes -/

/-- The type that accepts everything. -/
def any : Text := text "Any"

/-- The root of every class hierarchy. -/
def object : Text := text "Object"

/-- The class of the absent value. -/
def nil : Text := text "Nil"

/-- The class of whole numbers. -/
def int : Text := text "Int"

/-- The class of floating-point numbers. -/
def float : Text := text "Float"

/-- The class of strings. -/
def string : Text := text "String"

/-- The class of truth values. -/
def bool : Text := text "Bool"

/-- The class of byte strings. -/
def bytes : Text := text "Bytes"

/-- The class of what can be walked element by element. -/
def iterable : Text := text "Iterable"

/-- The class of what has elements in order. -/
def sequence : Text := text "Sequence"

/-- The class of lists. -/
def list : Text := text "List"

/-- The class of sequences whose positions are typed one by one. -/
def tuple : Text := text "Tuple"

/-- The class of sets. -/
def set : Text := text "Set"

/-- The class of what maps keys to values. -/
def mapping : Text := text "Mapping"

/-- The class of maps. -/
def map : Text := text "Map"

/-! ## Constructors -/

/-- The constructor of unions. -/
def union : Text := text "Union"

/-- The constructor of unions with the absent value. -/
def optional : Text := text "Optional"

/-- The constructor of callables. -/
def callable : Text := text "Callable"

/-- The constructor of types of types. -/
def typeOf : Text := text "Type"

/-- The constructor that attaches value constraints. -/
def annotated : Text := text "Annotated"

/-- The constructor of finite sets of values. -/
def literal : Text := text "Literal"

/-- A second spelling of the absent value. -/
def none : Text := text "None"

/-- Every builtin class but `Any`, which is no class. -/
def builtins : List Text :=
  [object, nil, int, float, string, bool, bytes, iterable, sequence, list, tuple, set, mapping, map]

/-- Whether `n` names a builtin class. -/
def isBuiltin (n : Text) : Bool :=
  builtins.contains n

/-- The names that no declaration may take. -/
def reserved : List Text :=
  [any, union, optional, callable, typeOf, annotated, literal, none]

/-- Whether `n` may not be declared. -/
def isReserved (n : Text) : Bool :=
  reserved.contains n

end TypeShape.Name
