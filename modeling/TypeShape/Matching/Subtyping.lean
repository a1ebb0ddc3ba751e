import TypeShape.Matching.Bindings

/-!
# Structural subtyping

One step of the check compares two roots and asks for checks one level deeper.  In order: the
wildcard and equal shapes are accepted; every branch of an instance union must match; a template
variable is matched through its bound and constraints, an instance variable through what it is
known to be; one branch of a template union must match; a protocol is matched by inheritance or by
its members; everything else by inheritance and slot by slot.

The check is the step repeated for a bounded number of levels.  Below a protocol that is being
checked, the same question about it is answered with yes, so that protocols may refer to
themselves.
-/

namespace TypeShape.Registry

variable {m : Type → Type} [Monad m] [Reducing m]

/-- A check of an instance against a template. -/
abbrev Check (m : Type → Type) := Shape → Shape → m Bool

/-- Whether an instance satisfies the bound and some constraint of a template variable. -/
def satisfiesVar (r : Registry) (deeper : Check m) (inst : Shape) (v : TypeVar) : m Bool := do
  let bounded ← if v.bound.isOmitted then pure true else do
    let bound ← r.shapeM v.bound
    deeper inst bound
  if !bounded then pure false
  else if v.constraints.isEmpty then pure true
  -- One constraint is enough, and none at all restrict nothing.
  else v.constraints.anyM fun c => do
    let alternative ← r.shapeM c
    deeper inst alternative

/-- Whether what an instance variable is known to be matches a template: its bound, or every one of
its constraints. -/
def varMatches (r : Registry) (deeper : Check m) (v : TypeVar) (tmpl : Shape) : m Bool :=
  if tmpl.isObject then pure true
  else do
    let bounded ← if v.bound.isOmitted then pure false else do
      let bound ← r.shapeM v.bound
      deeper bound tmpl
    if bounded then pure true
    else if v.constraints.isEmpty then pure false
    -- Without constraints nothing is known; the empty list must not count as all of them.
    else v.constraints.allM fun c => do
      let alternative ← r.shapeM c
      deeper alternative tmpl

/-- Whether two groups match position by position. -/
def groupMatches (deeper : Check m) : List Shape → List Shape → m Bool
  | [], [] => pure true
  | i :: is, t :: ts => do
    let first ← deeper i t
    if first then groupMatches deeper is ts else pure false
  | _, _ => pure false

/-- Whether a slot matches a slot of the template. -/
def slotMatches (deeper : Check m) : Slot → Slot → m Bool
  | inst, .single tmpl =>
    -- A hole is met only if the slots before it match.
    if tmpl.isHole then Reducing.stuck
    else if tmpl.isAny then pure true
    else match inst with
      | .single i => deeper i tmpl
      | .group _ => pure false
  | .group is, .group ts => if is.length = ts.length then groupMatches deeper is ts else pure false
  | .single _, .group _ => pure false

/-- Whether two lists of slots match position by position. -/
def slotsMatch (deeper : Check m) : List Slot → List Slot → m Bool
  | [], [] => pure true
  | i :: is, t :: ts => do
    let first ← slotMatches deeper i t
    if first then slotsMatch deeper is ts else pure false
  | _, _ => pure false

/-- Matching by inheritance, then slot by slot.  A bare template accepts all slots. -/
def nominalMatches (r : Registry) (deeper : Check m) (inst tmpl : Shape) : m Bool :=
  if tmpl.isObject then pure true
  else if !r.originSatisfies inst tmpl then pure false
  else if !tmpl.isParameterized then pure true
  -- From here on the template is applied, and the instance has to have as many slots.
  else if !inst.isParameterized || inst.slots.length ≠ tmpl.slots.length then pure false
  else slotsMatch deeper inst.slots tmpl.slots

/-- Whether every public member of a list has a matching member among those found. -/
def membersMatch (deeper : Check m) (found : List MemberShape) : List MemberShape → m Bool
  | [] => pure true
  | member :: rest =>
    if isPrivateName member.name then membersMatch deeper found rest
    else match found.find? (·.name == member.name) with
      | none => pure false
      | some own => do
        let first ← deeper own.shape member.shape
        if first then membersMatch deeper found rest else pure false

/-- Whether a candidate has every public member of an interface with a matching type.  The extra
bindings resolve variables that the arguments of the shapes leave open.  A class whose members
cannot be worked out conforms to nothing. -/
def conformsWith (r : Registry) (deeper : Check m) (candidate interface : Shape)
    (candidateBindings interfaceBindings : Subst) : m Bool := do
  -- What the interface wants is worked out first, so its failures come first.
  match ← r.memberShapes interface interfaceBindings with
  | .error .hole => Reducing.stuck
  | .error _ => pure false
  | .ok wanted =>
    match ← r.memberShapes candidate candidateBindings with
    | .error .hole => Reducing.stuck
    | .error _ => pure false
    | .ok found => membersMatch deeper found wanted

/-- The question whether one shape conforms to another, as a text. -/
def conformanceKey (inst tmpl : Shape) : Text :=
  inst.render ++ text " <: " ++ tmpl.render

/-- Whether a shape is an application of a protocol. -/
def isProtocol (r : Registry) (s : Shape) : Bool :=
  match r.classOf? s with
  | some c => c.kind = .protocol
  | none => false

/-- Conformance to a protocol, assumed while it is being checked. -/
def conformsAssuming (r : Registry) (deeper : List Text → Check m) (assumed : List Text)
    (inst tmpl : Shape) : m Bool :=
  -- The question cannot be named if a text in it cannot be shown.
  if inst.showsHole || tmpl.showsHole then Reducing.stuck
  else
    let key := conformanceKey inst tmpl
    if assumed.contains key then pure true
    else r.conformsWith (deeper (key :: assumed)) inst tmpl [] []

/-- One step of the subtype check. -/
def subtypeStep (r : Registry) (deeper : List Text → Check m) (assumed : List Text)
    (inst tmpl : Shape) : m Bool :=
  -- A hole at the top answers no, unlike one that is met below.
  if inst.isHole || tmpl.isHole then pure false
  else if tmpl.isAny || inst.same tmpl then pure true
  -- A union has to match branch by branch, before the template is looked at.
  else if inst.isUnion then inst.branches.allM fun b => deeper assumed b tmpl
  else match tmpl.var?, inst.var? with
    | some v, _ => r.satisfiesVar (deeper assumed) inst (r.declarationOf v)
    | none, some v => r.varMatches (deeper assumed) (r.declarationOf v) tmpl
    | none, none =>
      if tmpl.isUnion then tmpl.branches.anyM fun b => deeper assumed inst b
      -- A class that inherits from the protocol need not be compared with it.
      else if r.isProtocol tmpl then do
        let nominal ← r.nominalMatches (deeper assumed) inst tmpl
        if nominal then pure true else r.conformsAssuming deeper assumed inst tmpl
      else r.nominalMatches (deeper assumed) inst tmpl

/-- The subtype check with a number of levels left; it fails when there are none. -/
def subtypeWithin (r : Registry) : Nat → List Text → Check m
  | 0, _, _, _ => pure false
  | room + 1, assumed, inst, tmpl => r.subtypeStep (subtypeWithin r room) assumed inst tmpl

/-- Whether an instance is a structural subtype of a template. -/
def isSubtypeM (r : Registry) (inst tmpl : Shape) : m Bool :=
  r.subtypeWithin (maxRecursion + 1) [] inst tmpl

/-- Whether a candidate conforms to an interface under the given bindings. -/
def conformsM (r : Registry) (candidate interface : Shape)
    (candidateBindings interfaceBindings : Subst) : m Bool :=
  r.conformsWith (r.subtypeWithin maxRecursion []) candidate interface candidateBindings
    interfaceBindings

/-- Structural subtyping with plain reduction. -/
def isSubtype (r : Registry) (inst tmpl : Shape) : Bool :=
  Id.run (r.isSubtypeM inst tmpl)

end TypeShape.Registry
