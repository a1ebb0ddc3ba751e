import TypeShape.Expr.Names
import TypeShape.Number.Shortest
import TypeShape.Text.Quoted

/-!
# Type expressions

A type expression is what is written for a type: a class, perhaps with arguments, a type variable,
a union, a callable, the type of a type, a type with value constraints, or a finite set of literal
values.  `omitted` stands wherever an expression may be left out: the bound of a variable, the
result of a callable, the operand of `Type`.
-/

namespace TypeShape

/-- A value that a literal type may list. -/
inductive Literal where
  | nil
  | bool (value : Bool)
  | string (value : Text)
  | int (value : Int)
  /-- A machine address: a whole number that belongs to no builtin class. -/
  | address (value : Nat)
  | float (width : Width) (value : Binary)
  /-- A value without fields that belongs to no builtin class. -/
  | other
  deriving DecidableEq, Repr

/-- A type expression. -/
inductive TypeExpr where
  /-- No expression was written. -/
  | omitted
  /-- A class by its name. -/
  | con (name : Text)
  /-- A class applied to arguments. -/
  | app (head : Text) (args : List TypeExpr)
  /-- A type variable with its upper bound and the alternatives it ranges over. -/
  | var (name : Text) (bound : TypeExpr) (constraints : List TypeExpr)
  /-- A union, in the order written.  `optional` marks the spelling `Optional[X]`, whose members
  are `X` and `Nil`. -/
  | union (members : List TypeExpr) (optional : Bool)
  /-- A callable.  With `ellipsis` it accepts every parameter list. -/
  | callable (params : List TypeExpr) (result : TypeExpr) (ellipsis : Bool)
  /-- The type of a type. -/
  | typeOf (operand : TypeExpr)
  /-- A type with constraints on its values, as texts. -/
  | annotated (inner : TypeExpr) (metadata : List Text)
  /-- A finite set of values. -/
  | literal (values : List Literal)
  deriving Repr, Inhabited

/-- The declaration of a type variable. -/
structure TypeVar where
  name : Text
  bound : TypeExpr := .omitted
  constraints : List TypeExpr := []
  deriving Repr, Inhabited

/-- The variable as a type expression. -/
def TypeVar.toExpr (v : TypeVar) : TypeExpr :=
  .var v.name v.bound v.constraints

namespace TypeExpr

/-- Whether nothing was written. -/
def isOmitted : TypeExpr → Bool
  | omitted => true
  | _ => false

/-- The type that accepts everything. -/
def any : TypeExpr := con Name.any

/-- The class of the absent value. -/
def nil : TypeExpr := con Name.nil

/-- `Optional[t]`. -/
def optionalOf (t : TypeExpr) : TypeExpr :=
  union [t, nil] true

/-- The class `name` applied to `args`, and the bare class when there are none. -/
def generic (name : Text) (args : List TypeExpr) : TypeExpr :=
  if args.isEmpty then con name else app name args

/-- The class that an expression names directly, with or without arguments. -/
def className? : TypeExpr → Option Text
  | con name => some name
  | app head _ => some head
  | _ => none

/-- `t` wrapped `n` times in `name[…]`. -/
def nested (name : Text) : Nat → TypeExpr → TypeExpr
  | 0, t => t
  | n + 1, t => generic name [nested name n t]

end TypeExpr

/-- Whether the variable matches anything. -/
def TypeVar.unrestricted (v : TypeVar) : Bool :=
  v.bound.isOmitted && v.constraints.isEmpty

namespace Literal

/-- A literal in the spelling that the reader of type expressions takes. -/
def render : Literal → Text
  | nil => Name.nil
  | bool true => text "true"
  | bool false => text "false"
  | string s => Quoted.quote s
  | int n => Text.ofInt n
  | address n => Text.ofNat n
  | float w x => Binary.render w x
  | other => text "\x7b\x7d"

/-- A literal as it stands in a list of plain values: strings without quotes. -/
def plain : Literal → Text
  | nil => text "<nil>"
  | string s => s
  | v => v.render

/-- The builtin class of a literal. -/
def className : Literal → Text
  | nil => Name.nil
  | bool _ => Name.bool
  | string _ => Name.string
  | int _ => Name.int
  | float _ _ => Name.float
  | address _ => Name.object
  | other => Name.object

end Literal

end TypeShape
