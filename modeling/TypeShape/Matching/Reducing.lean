import TypeShape.Registry.Alias
import TypeShape.Registry.Hierarchy
import TypeShape.Shape.Instantiation

/-!
# Where expressions are reduced

Matching has to reduce type expressions on its way: the bounds of variables, the types of members,
the bases of classes.  It is written for any monad in which that can be done.  In `Id` reduction
is the plain function; in `Query` it goes through a memo, which is kept even when a check gets
stuck on a hole.
-/

namespace TypeShape

/-- Monads in which type expressions can be reduced. -/
class Reducing (m : Type → Type) where
  /-- Reduces an expression. -/
  reduce : TypeExpr → m Reduced
  /-- The answer of a check that meets a hole where it needs a node. -/
  stuck : m Bool

/-- Plain reduction; a check that is stuck fails. -/
instance : Reducing Id where
  reduce t := t.reduce
  stuck := false

/-- Reduction through a memo; a check that is stuck gives no answer. -/
abbrev Query := OptionT (StateM Memo)

instance : Reducing Query where
  reduce t := OptionT.lift (Memo.reduce t)
  stuck := OptionT.fail

namespace Registry

variable {m : Type → Type} [Monad m] [Reducing m]

/-- The shape and the metadata of an expression, its aliases expanded. -/
def reduceM (r : Registry) (t : TypeExpr) : m Reduced :=
  Reducing.reduce (r.expandAliases t)

/-- The shape of an expression, its aliases expanded. -/
def shapeM (r : Registry) (t : TypeExpr) : m Shape := do
  let reduced ← r.reduceM t
  pure reduced.shape

/-- Replaces the variables of a shape; the bindings are reduced as they are, without expanding
aliases. -/
def substituteShapeM (s : Subst) (shape : Shape) : m Shape :=
  Shape.substituteM (fun t => do
    let reduced ← Reducing.reduce t
    pure reduced.shape) s shape

/-- The declaration behind a variable: a bare reference stands for what is declared under its
name. -/
def declarationOf (r : Registry) (v : TypeVar) : TypeVar :=
  if v.unrestricted then (r.var? v.name).getD v else v

/-- The class that a shape is an application of. -/
def classOf? (r : Registry) (s : Shape) : Option Class :=
  match s.origin with
  | .plain .nominal name => r.class? name
  | _ => none

end Registry

/-- Whether a shape is the bare class `Object`. -/
def Shape.isObject : Shape → Bool
  | .bare (.plain .nominal name) => name == Name.object
  | _ => false

end TypeShape
