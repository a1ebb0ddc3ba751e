import TypeShape.Error
import TypeShape.Expr.Substitution
import TypeShape.Shape.Reduction

/-!
# From shapes back to expressions

`build` makes the type expression of a shape and replaces the variables that a substitution binds.
A shape spelled `Optional` must keep exactly one branch besides `Nil`: strict building fails
otherwise, lenient building falls back on a plain union.  `substituteM` replaces variables within
shapes, by the shapes of their bindings.
-/

namespace TypeShape.Shape

/-- An error about a shape, which its message shows. -/
def complaint (whole : Shape) (about : Text → Error) : Error :=
  if whole.showsHole then .hole else about whole.render

/-- The expression of a union with the given branches.  `whole` is the shape of the union. -/
def buildUnion (strict optional : Bool) (whole : Shape) (branches : List TypeExpr) :
    Except Error TypeExpr :=
  if optional then
    -- What counts is how many branches are left besides `Nil`.
    match branches.filter fun t => !t.same TypeExpr.nil with
    | [t] => .ok (.optionalOf t)
    | present =>
      if strict then .error (whole.complaint (.unresolvedOptional · present.length))
      else .ok (.union branches false)
  else .ok (.union branches false)

mutual

/-- The expression of a shape, its variables replaced by `s`. -/
def build (s : Subst) (strict : Bool) : Shape → Except Error TypeExpr
  | bare .hole => .error .hole
  | bare (.var decl) => .ok ((Table.find? s decl.name).getD decl.toExpr)
  | bare (.plain .any _) => .ok .any
  | bare (.plain .union name) =>
    buildUnion strict (name == Name.optional) (bare (.plain .union name)) []
  | bare (.plain .callable _) => .ok (.con Name.callable)
  | bare (.plain .typeOf _) => .ok (.typeOf .omitted)
  | bare (.plain _ name) => .ok (.con name)
  | applied .hole _ => .error .hole
  | applied (.var decl) _ => .ok ((Table.find? s decl.name).getD decl.toExpr)
  | applied (.plain .any _) _ => .ok .any
  | applied (.plain .union name) slots => do
    let branches ← buildBranches s strict slots
    buildUnion strict (name == Name.optional) (applied (.plain .union name) slots) branches
  | applied (.plain .callable _) [.group params, .single result] => do
    -- The result is built before the parameters, and so its fault is the one reported.
    let result ← build s strict result
    let params ← buildAll s strict params
    pure (.callable params result false)
  | applied (.plain .callable name) [.single head, .single result] => do
    let ret ← build s strict result
    if head.isHole then .error .hole
    else if head.isAny then pure (.callable [] ret true)
    else .error (complaint (applied (.plain .callable name) [.single head, .single result])
      (.malformed · .callableParameters))
  | applied (.plain .callable name) slots =>
    .error (complaint (applied (.plain .callable name) slots) (.malformed · .callableArguments))
  | applied (.plain .typeOf _) [] => .ok (.typeOf .omitted)
  | applied (.plain .typeOf _) (.single operand :: _) => do
    let operand ← build s strict operand
    pure (.typeOf operand)
  | applied (.plain .typeOf name) slots =>
    .error (complaint (applied (.plain .typeOf name) slots) (.malformed · .typeOfGroup))
  | applied (.plain kind name) slots => do
    let args ← buildSlots s strict (applied (.plain kind name) slots) slots
    pure (.app name args)

/-- The expressions of the branches in a list of slots, groups opened. -/
def buildBranches (s : Subst) (strict : Bool) : List Slot → Except Error (List TypeExpr)
  | [] => .ok []
  | .single b :: rest => do
    let t ← build s strict b
    let ts ← buildBranches s strict rest
    pure (t :: ts)
  | .group bs :: rest => do
    let ts ← buildAll s strict bs
    let us ← buildBranches s strict rest
    pure (ts ++ us)

/-- The expressions of a list of slots that may not hold groups; they are slots of `whole`. -/
def buildSlots (s : Subst) (strict : Bool) (whole : Shape) : List Slot → Except Error (List TypeExpr)
  | [] => .ok []
  | .single a :: rest => do
    let t ← build s strict a
    let ts ← buildSlots s strict whole rest
    pure (t :: ts)
  | .group _ :: _ => .error (whole.complaint (.malformed · .strayGroup))

/-- The expressions of a list of shapes. -/
def buildAll (s : Subst) (strict : Bool) : List Shape → Except Error (List TypeExpr)
  | [] => .ok []
  | a :: rest => do
    let t ← build s strict a
    let ts ← buildAll s strict rest
    pure (t :: ts)

end

/-- The expression of a shape with the bindings of `s`; an `Optional` must keep exactly one branch
besides `Nil`. -/
def instantiate (s : Subst) (shape : Shape) : Except Error TypeExpr :=
  build s true shape

/-- The expression of a shape as it is; a shape that has none becomes a class named like its text. -/
def expression (shape : Shape) : Except Error TypeExpr :=
  match build [] false shape with
  | .ok t => .ok t
  | .error .hole => .error .hole
  -- The text takes the place of the expression only if it can be shown.
  | .error _ => if shape.showsHole then .error .hole else .ok (.con shape.render)

section

variable {m : Type → Type} [Monad m]

mutual

/-- Replaces every type variable by what `f` gives for its declaration, from left to right.  A
variable for which it gives nothing stays as it is. -/
def mapVarsM (f : TypeVar → m (Option Shape)) : Shape → m Shape
  | bare (.var decl) => do
    let found ← f decl
    pure (found.getD (bare (.var decl)))
  | bare origin => pure (bare origin)
  | applied (.var decl) slots => do
    let found ← f decl
    -- The slots of a variable that is replaced go with it.
    pure (found.getD (applied (.var decl) slots))
  | applied origin slots => do
    let slots ← mapVarsSlotsM f slots
    pure (applied origin slots)

/-- Replaces the type variables in a list of slots. -/
def mapVarsSlotsM (f : TypeVar → m (Option Shape)) : List Slot → m (List Slot)
  | [] => pure []
  | .single s :: rest => do
    let s ← mapVarsM f s
    let rest ← mapVarsSlotsM f rest
    pure (.single s :: rest)
  | .group ss :: rest => do
    let ss ← mapVarsAllM f ss
    let rest ← mapVarsSlotsM f rest
    pure (.group ss :: rest)

/-- Replaces the type variables in a list of shapes. -/
def mapVarsAllM (f : TypeVar → m (Option Shape)) : List Shape → m (List Shape)
  | [] => pure []
  | s :: rest => do
    let s ← mapVarsM f s
    let rest ← mapVarsAllM f rest
    pure (s :: rest)

end

/-- Replaces every variable that `s` binds by the reduction of its binding. -/
def substituteM (reduce : TypeExpr → m Shape) (s : Subst) (shape : Shape) : m Shape :=
  -- Without bindings there is nothing to look for, and no expression is reduced.
  if s.isEmpty then pure shape
  else mapVarsM (fun decl =>
    match Table.find? s decl.name with
    | none => pure none
    | some t => some <$> reduce t) shape

end

/-- Replaces every variable that `s` binds by the shape of its binding. -/
def substitute (s : Subst) (shape : Shape) : Shape :=
  Id.run (substituteM (fun t => pure t.shape) s shape)

end TypeShape.Shape
