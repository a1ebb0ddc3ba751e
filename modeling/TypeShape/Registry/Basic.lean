import TypeShape.Error
import TypeShape.Expr.Parser
import TypeShape.Expr.Substitution
import TypeShape.Value.HostType

/-!
# The registry

A registry holds what is known by name: classes, type variables and aliases.  It also binds host
types to classes and lists the hooks that type values of the host.  Every entry is by name, so a
later entry of a name replaces the earlier one.
-/

namespace TypeShape

/-- How a class takes part in subtyping. -/
inductive ClassKind where
  /-- Matched through declared inheritance only. -/
  | nominal
  /-- Matched by every class with compatible members. -/
  | protocol
  /-- Mapping-shaped values with fixed fields. -/
  | record
  deriving DecidableEq, Repr

/-- The word for a kind of class. -/
def ClassKind.name : ClassKind → Text
  | nominal => text "class"
  | protocol => text "protocol"
  | record => text "record"

/-- An attribute or a method of a class. -/
structure Member where
  name : Text
  type : TypeExpr
  deriving Repr, Inhabited

/-- A name with a leading underscore is private. -/
def isPrivateName (name : Text) : Bool :=
  Text.startsWith name (text "_")

/-- A declared class. -/
structure Class where
  name : Text
  kind : ClassKind := .nominal
  params : List TypeVar := []
  bases : List TypeExpr := []
  members : List Member := []
  deriving Repr

namespace Class

/-- Whether the class has type parameters. -/
def isGeneric (c : Class) : Bool :=
  !c.params.isEmpty

/-- The class applied to its own parameters. -/
def selfType (c : Class) : TypeExpr :=
  TypeExpr.generic c.name (c.params.map TypeVar.toExpr)

/-- The names of the declared bases. -/
def baseNames (c : Class) : List Text :=
  c.bases.filterMap TypeExpr.className?

end Class

/-- A hook that types values of the host. -/
inductive Typer where
  /-- Types protobuf messages by their message class. -/
  | messages
  /-- Types the values that carry a type for such a hook. -/
  | custom
  deriving DecidableEq, Repr

/-- What is known by name. -/
structure Registry where
  classes : Table Class := []
  vars : Table TypeVar := []
  aliases : Table TypeExpr := []
  hostTypes : List (HostType × Text) := []
  typers : List Typer := []
  deriving Inhabited

namespace Registry

/-- The class of a name. -/
def class? (r : Registry) (name : Text) : Option Class :=
  r.classes.find? name

/-- The type variable of a name. -/
def var? (r : Registry) (name : Text) : Option TypeVar :=
  r.vars.find? name

/-- The expansion of an alias. -/
def alias? (r : Registry) (name : Text) : Option TypeExpr :=
  r.aliases.find? name

/-- The class that a host type is bound to. -/
def hostClass? (r : Registry) (t : HostType) : Option Text :=
  (r.hostTypes.find? fun (u, _) => u.same t).map (·.2)

/-- The names of all classes, in byte order. -/
def classNames (r : Registry) : List Text :=
  Text.sort (Table.names r.classes)

/-- What a name in a type expression stands for: `Any`, a class, a variable or an alias, the first
of these that it is. -/
def lookup (r : Registry) (name : Text) : Option TypeExpr :=
  if name = Name.any then some .any
  else if (r.class? name).isSome then some (.con name)
  else match r.var? name with
    | some v => some v.toExpr
    | none => r.alias? name

/-- Reads a type expression whose names are those of the registry. -/
def parse (r : Registry) (source : Text) : Except Error TypeExpr :=
  TypeExpr.parse r.lookup source

/-! ## The builtin classes -/

/-- The element parameter of builtin containers. -/
def elementVar : TypeVar := { name := text "_T" }

/-- The key parameter of builtin maps. -/
def keyVar : TypeVar := { name := text "_K" }

/-- The value parameter of builtin maps. -/
def valueVar : TypeVar := { name := text "_V" }

/-- The builtin classes, bases before what is derived from them. -/
def builtinClasses : List Class :=
  let of (name : Text) (vs : List TypeVar) : TypeExpr :=
    TypeExpr.generic name (vs.map TypeVar.toExpr)
  [{ name := Name.object }, { name := Name.nil }, { name := Name.int }, { name := Name.float },
    { name := Name.string }, { name := Name.bool }, { name := Name.bytes },
    { name := Name.iterable, params := [elementVar] },
    { name := Name.sequence, params := [elementVar], bases := [of Name.iterable [elementVar]] },
    { name := Name.list, params := [elementVar], bases := [of Name.sequence [elementVar]] },
    { name := Name.tuple, bases := [.con Name.sequence] },
    { name := Name.set, params := [elementVar], bases := [of Name.iterable [elementVar]] },
    { name := Name.mapping, params := [keyVar, valueVar], bases := [of Name.iterable [keyVar]] },
    { name := Name.map, params := [keyVar, valueVar],
      bases := [of Name.mapping [keyVar, valueVar]] }]

/-- The registry of the builtin classes. -/
def builtin : Registry where
  classes := builtinClasses.map fun c => (c.name, c)
  vars := [elementVar, keyVar, valueVar].map fun v => (v.name, v)

end Registry

end TypeShape
