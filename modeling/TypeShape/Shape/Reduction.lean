import TypeShape.Expr.Printer
import TypeShape.Shape.Basic
import TypeShape.Table

/-!
# From expressions to shapes

Reduction turns a type expression into its shape and sets aside what shapes cannot say: the
constraints of annotated types and the values of literal types.  A literal type has the shape of
the classes of its values.

A memo remembers reductions by the key of the expression.  Two expressions with one key share the
reduction of whichever came first.
-/

namespace TypeShape

/-- What reduction sets aside, in the order in which it is met. -/
structure Metadata where
  annotations : List Text := []
  literals : List (List Literal) := []
  deriving Repr, Inhabited

namespace Metadata

/-- Whether there are constraints on values. -/
def isConstrained (m : Metadata) : Bool :=
  !m.annotations.isEmpty || !m.literals.isEmpty

/-- What is met in one expression and then in another. -/
def append (m n : Metadata) : Metadata :=
  ⟨m.annotations ++ n.annotations, m.literals ++ n.literals⟩

end Metadata

/-- A reduced expression. -/
structure Reduced where
  shape : Shape
  metadata : Metadata
  deriving Inhabited

/-- Keeps the first occurrence of each name. -/
def distinctNames : List Text → List Text
  | [] => []
  | n :: ns => n :: (distinctNames ns).filter (· != n)

/-- The shape of the classes of literal values, each class once. -/
def literalShape (values : List Literal) : Shape :=
  match distinctNames (values.map Literal.className) with
  | [] => .leaf Name.nil
  | [name] => .leaf name
  | names => .unionOf (names.map .leaf)

namespace TypeExpr

mutual

/-- The shape of an expression.  An omitted expression is the wildcard. -/
def shape : TypeExpr → Shape
  | omitted => .any
  | con name =>
    if name = Name.any then .any
    else if name = Name.callable then .anyCallable
    else .leaf name
  | app head args => .ofClass head (shapes args)
  | var name bound constraints => .ofVar ⟨name, bound, constraints⟩
  | union members optional =>
    .applied (.plain .union (if optional then Name.optional else Name.union))
      ((shapes members).map .single)
  | callable params result ellipsis =>
    -- An ellipsis voids the parameters, if there are any.
    if ellipsis then .variadicOf (shape result) else .callableOf (shapes params) (shape result)
  | typeOf operand => if operand.isOmitted then .anyType else .typeOf (shape operand)
  | annotated inner _ => shape inner
  | literal values => literalShape values

/-- The shapes of a list of expressions. -/
@[simp] def shapes : List TypeExpr → List Shape
  | [] => []
  | t :: ts => shape t :: shapes ts

end

mutual

/-- What reduction of an expression sets aside.  Of a callable, the result is met first; of
variables, nothing is met. -/
@[simp] def metadata : TypeExpr → Metadata
  | omitted => {}
  | con _ => {}
  | app _ args => metadataAll args
  | var _ _ _ => {}
  | union members _ => metadataAll members
  | callable params result ellipsis =>
    (metadata result).append (if ellipsis then {} else metadataAll params)
  | typeOf operand => metadata operand
  | annotated inner ms => Metadata.append ⟨ms, []⟩ (metadata inner)
  | literal values => ⟨[], [values]⟩

/-- What reduction of a list of expressions sets aside. -/
@[simp] def metadataAll : List TypeExpr → Metadata
  | [] => {}
  | t :: ts => (metadata t).append (metadataAll ts)

end

/-- Reduction without memo. -/
def reduce (t : TypeExpr) : Reduced :=
  ⟨t.shape, t.metadata⟩

end TypeExpr

/-- The reductions made so far, by key. -/
structure Memo where
  entries : Table Reduced := []
  deriving Inhabited

/-- Reduction with memo: an earlier reduction under the same key is taken as it is. -/
def Memo.reduce (t : TypeExpr) : StateM Memo Reduced := do
  -- An omitted expression is neither looked up nor remembered.
  if t.isOmitted then pure t.reduce
  else
    let memo ← get
    let key := t.key
    match memo.entries.find? key with
    | some found => pure found
    | none =>
      let result := t.reduce
      set (Memo.mk ((key, result) :: memo.entries))
      pure result

end TypeShape
