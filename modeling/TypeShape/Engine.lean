import TypeShape.Matching.Subtyping
import TypeShape.Registry.Declare
import TypeShape.Validation
import TypeShape.Value.Inference

/-!
# The engine

An engine answers queries against a registry: subtyping, unification, inference and whether a
value is an instance of a type.  It remembers the reductions it has made and how deep and how
densely values are inspected.  Queries never fail on holes of hand-built shapes: a check that gets
stuck answers no.
-/

namespace TypeShape

/-- A registry with the settings and the memory of an engine. -/
structure Engine where
  registry : Registry := .builtin
  memo : Memo := {}
  /-- How values are validated before their shape is looked at, if they are. -/
  judge : Option Judge := some .standard
  maxDepth : Int := 10
  maxSample : Int := -1

instance : Inhabited Engine := ⟨{}⟩

namespace Engine

/-- Runs a query and keeps what it added to the memo. -/
def run {α : Type} (e : Engine) (q : Query α) : Option α × Engine :=
  let (answer, memo) := StateT.run (OptionT.run q) e.memo
  (answer, { e with memo })

/-- Runs a check; one that gets stuck answers no. -/
def ask (e : Engine) (q : Query Bool) : Bool × Engine :=
  let (answer, e) := e.run q
  (answer.getD false, e)

/-- Runs a declaring computation on the registry of the engine. -/
def declare {α : Type} (e : Engine) (act : Declaring α) : Except Error α × Engine :=
  let (outcome, registry) := StateT.run (ExceptT.run act) e.registry
  (outcome, { e with registry })

/-- An engine over the same registry with the same settings, and an empty memo. -/
def clone (e : Engine) : Engine :=
  { e with memo := {} }

/-- Whether an instance is a subtype of a template. -/
def isSubtype (e : Engine) (inst tmpl : Shape) : Bool × Engine :=
  e.ask (e.registry.isSubtypeM inst tmpl)

/-- Whether the type of one expression is a subtype of that of another. -/
def isSubtypeTypes (e : Engine) (inst tmpl : TypeExpr) : Bool × Engine :=
  e.ask do
    let i ← e.registry.shapeM inst
    let t ← e.registry.shapeM tmpl
    e.registry.isSubtypeM i t

/-- Whether a candidate conforms to an interface. -/
def conforms (e : Engine) (candidate interface : Shape) (cb ib : Subst) : Bool × Engine :=
  e.ask (e.registry.conformsM candidate interface cb ib)

end Engine

section

variable {m : Type → Type} [Monad m] [Reducing m]

/-- Whether the validation of a value settles that it is an instance of `target`, an expression
without aliases that reduces to `reduced`: acceptance settles it with yes; rejection, or a schema
that is no constraint, settles it with no when `target` constrains values. -/
def verdict? (judge : Option Judge) (r : Registry) (h : Host) (v : Value) (target : TypeExpr)
    (reduced : Reduced) : Except Error (Option Bool) :=
  match judge with
  | none => .ok none
  | some judge =>
    match r.validateWith judge h v target with
    -- What is accepted is not looked at any further.
    | .ok () => .ok (some true)
    | .error .hole => .error .hole
    | .error e =>
      -- A rejection counts only where the target constrains values; else the shape decides.
      if !e.isUnsupported && reduced.metadata.isConstrained then .ok (some false) else .ok none

/-- Whether the shape of a value matches.  A type used as a value may also match as a type. -/
def shapeMatches (r : Registry) (h : Host) (v : Value) (tmpl : Shape) (maxDepth maxSample : Int) :
    m Bool := do
  -- A type is first taken as a type, and then as a value like any other.
  let asType ← match v with
    | .typeObject t =>
      if tmpl.hasKind .typeOf then do
        let s ← r.shapeM t
        r.isSubtypeM (.typeOf s) tmpl
      else pure false
    | _ => pure false
  if asType then pure true
  else do
    let s ← r.inferM h v maxDepth maxSample
    r.isSubtypeM s tmpl

/-- Whether a value is an instance of a type: validation decides if it can, otherwise the shape of
the value does. -/
def isInstanceM (judge : Option Judge) (r : Registry) (h : Host) (v : Value) (target : TypeExpr)
    (maxDepth maxSample : Int) : m Bool := do
  let target := r.expandAliases target
  let reduced ← Reducing.reduce target
  match verdict? judge r h v target reduced with
  -- Validation that meets a hole answers nothing, and neither does the check.
  | .error _ => Reducing.stuck
  | .ok (some answer) => pure answer
  | .ok none => shapeMatches r h v reduced.shape maxDepth maxSample

end

/-- Whether a value is an instance of a type. -/
def Engine.isInstance (e : Engine) (h : Host) (v : Value) (target : TypeExpr) : Bool × Engine :=
  e.ask (isInstanceM e.judge e.registry h v target e.maxDepth e.maxSample)

end TypeShape
