import TypeShape.Expr.Equality
import TypeShape.Table

/-!
# Substitutions

A substitution binds names of type variables to type expressions.  `mapVars` replaces the
variables of an expression in one pass; `apply` replaces them until none of the substitution's
variables is left to replace, and ends also on a cyclic substitution because a variable is taken
out of the substitution before its binding is worked on.
-/

namespace TypeShape

/-- A substitution: the bindings of type variables by name. -/
abbrev Subst := Table TypeExpr

namespace Subst

/-- The bindings as a text, in the order of their names. -/
def render (s : Subst) : Text :=
  text "\x7b" ++
    Text.commas ((Table.sorted s).map fun (n, t) => n ++ text ": " ++ t.display) ++ text "\x7d"

end Subst

namespace TypeExpr

mutual

/-- Replaces every type variable by what `f` gives for its declaration.  The bounds and
constraints of variables are not entered. -/
@[simp] def mapVars (f : TypeVar → TypeExpr) : TypeExpr → TypeExpr
  | omitted => omitted
  | con name => con name
  | app head args => app head (mapVarsAll f args)
  | var name bound constraints => f ⟨name, bound, constraints⟩
  | union members optional => union (mapVarsAll f members) optional
  | callable params result ellipsis =>
    callable (mapVarsAll f params) (mapVars f result) ellipsis
  | typeOf operand => typeOf (mapVars f operand)
  | annotated inner metadata => annotated (mapVars f inner) metadata
  | literal values => literal values

/-- Replaces the type variables of every member of a list. -/
@[simp] def mapVarsAll (f : TypeVar → TypeExpr) : List TypeExpr → List TypeExpr
  | [] => []
  | t :: ts => mapVars f t :: mapVarsAll f ts

end

mutual

/-- Every occurrence of a type variable, from left to right. -/
@[simp] def varOccurrences : TypeExpr → List TypeVar
  | omitted => []
  | con _ => []
  | app _ args => varOccurrencesAll args
  | var name bound constraints => [⟨name, bound, constraints⟩]
  | union members _ => varOccurrencesAll members
  | callable params result _ => varOccurrencesAll params ++ varOccurrences result
  | typeOf operand => varOccurrences operand
  | annotated inner _ => varOccurrences inner
  | literal _ => []

/-- Every occurrence of a type variable in a list of expressions. -/
@[simp] def varOccurrencesAll : List TypeExpr → List TypeVar
  | [] => []
  | t :: ts => varOccurrences t ++ varOccurrencesAll ts

end

/-- Keeps the first variable of each name. -/
def distinctVars : List TypeVar → List TypeVar
  | [] => []
  | v :: vs => v :: (distinctVars vs).filter fun w => w.name != v.name

/-- The type variables of an expression, the first occurrence of each name. -/
def freeVars (t : TypeExpr) : List TypeVar :=
  distinctVars t.varOccurrences

/-- Whether an expression is the variable `name`. -/
def isVarNamed (name : Text) : TypeExpr → Bool
  | var n _ _ => n == name
  | _ => false

/-- Applies a substitution through at most `fuel` bindings on each path. -/
def applyFuel : Nat → Subst → TypeExpr → TypeExpr
  | 0, _, t => t
  | fuel + 1, s, t => t.mapVars fun v =>
    match Table.find? s v.name with
    | none => v.toExpr
    -- A variable that is bound to itself stays, and no binding is followed twice on one way.
    | some r => if r.isVarNamed v.name then v.toExpr else applyFuel fuel (Table.erase s v.name) r

/-- Replaces every variable that the substitution binds, and every bound variable in what replaces
it, except inside the replacement of that variable itself.  Each binding followed leaves the
substitution, so its length bounds the depth. -/
def apply (s : Subst) (t : TypeExpr) : TypeExpr :=
  applyFuel s.length s t

/-- Applies a substitution in which the names of `visited` count as unbound. -/
def applyExcept (visited : List Text) (s : Subst) (t : TypeExpr) : TypeExpr :=
  t.apply (s.filter fun (n, _) => !visited.contains n)

end TypeExpr

/-- Follows `first` by `second`: the bindings of `first` with `second` applied to them, and those
of `second` for the names that `first` leaves unbound. -/
def Subst.compose (first second : Subst) : Subst :=
  first.foldl (fun s (n, t) => Table.put n (t.apply second) s) second

namespace TypeExpr

mutual

/-- Replaces every class `name` by `replacement`, in the bounds and constraints of variables too.
A replaced class that has arguments keeps them only when the replacement is a bare class. -/
def replaceClass (name : Text) (replacement : TypeExpr) : TypeExpr → TypeExpr
  | omitted => omitted
  -- The replacement is taken as it is and not searched again.
  | con n => if n = name then replacement else con n
  | app head args =>
    if head = name then
      match replacement with
      -- A bare class takes the arguments along, in which the class is replaced too.
      | con n => app n (replaceClassAll name replacement args)
      | r => r
    else app head (replaceClassAll name replacement args)
  | var n bound constraints =>
    var n (replaceClass name replacement bound) (replaceClassAll name replacement constraints)
  | union members optional => union (replaceClassAll name replacement members) optional
  | callable params result ellipsis =>
    callable (replaceClassAll name replacement params) (replaceClass name replacement result)
      ellipsis
  | typeOf operand => typeOf (replaceClass name replacement operand)
  | annotated inner metadata => annotated (replaceClass name replacement inner) metadata
  | literal values => literal values

/-- Replaces a class in every member of a list. -/
def replaceClassAll (name : Text) (replacement : TypeExpr) : List TypeExpr → List TypeExpr
  | [] => []
  | t :: ts => replaceClass name replacement t :: replaceClassAll name replacement ts

end

end TypeExpr

end TypeShape
