import TypeShape.Expr.Printer

/-!
# Structural equality of type expressions

Two expressions are the same when they have the same constructors with the same parts.  Type
variables are compared by name, literal types by how they print, and the `Optional` spelling of
a union makes no difference.
-/

namespace TypeShape.TypeExpr

mutual

/-- Whether two expressions are structurally the same. -/
@[simp] def same : TypeExpr → TypeExpr → Bool
  | omitted, omitted => true
  | con a, con b => a == b
  -- Variables are told by their names alone.
  | var a _ _, var b _ _ => a == b
  | app a as, app b bs => a == b && sameAll as bs
  -- The branches are compared in order; how the union was spelled is passed over.
  | union as _, union bs _ => sameAll as bs
  | callable as a e, callable bs b f => e == f && sameAll as bs && same a b
  | typeOf a, typeOf b => same a b
  | annotated a ms, annotated b ns => ms == ns && same a b
  | literal vs, literal ws => (literal vs).render == (literal ws).render
  | _, _ => false

/-- Whether two lists of expressions have the same length and the same members in order. -/
@[simp] def sameAll : List TypeExpr → List TypeExpr → Bool
  | [], [] => true
  | a :: as, b :: bs => same a b && sameAll as bs
  | _, _ => false

end

end TypeShape.TypeExpr
