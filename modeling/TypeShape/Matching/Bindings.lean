import TypeShape.Matching.Unification

/-!
# Generic bindings

The parameters of a class are bound to the arguments of a shape by unifying the class, applied to
its own parameters, with the shape.  A walk along the bases carries these bindings down: a base is
instantiated with the bindings of the class that declares it before its own parameters are bound.
Every class is visited once, before its bases.
-/

namespace TypeShape.Registry

variable {m : Type → Type} [Monad m] [Reducing m] {σ : Type}

/-- The bindings of the parameters of a class to the arguments of a shape.  A bare shape leaves them
open. -/
def ownBindings (r : Registry) (c : Class) (s : Shape) : m (Except Error Subst) :=
  if !c.isGeneric || !s.isParameterized then pure (.ok [])
  else if s.slots.length ≠ c.params.length then
    pure (.error (.evaluation c.name (.missingParameters c.params.length s.slots.length)))
  else do
    let self ← r.shapeM c.selfType
    pure (match r.unify self s with
      | .ok bindings => .ok bindings
      -- A hole is no fault of the class, so it is passed on as it is.
      | .error .hole => .error .hole
      | .error e => .error (.evaluation c.name e))

/-- Walks a list of bases one after the other. -/
def walkBases (r : Registry) (walk : Shape → List Text × σ → m (Except Error (List Text × σ)))
    (bindings : Subst) : List TypeExpr → List Text × σ → m (Except Error (List Text × σ))
  | [], state => pure (.ok state)
  | base :: bases, state => do
    -- The bindings of the class reach the arguments of its bases; aliases are expanded then.
    let shape ← r.shapeM (base.apply bindings)
    match ← walk shape state with
    | .error e => pure (.error e)
    | .ok state => walkBases r walk bindings bases state

/-- Walks the classes that a shape inherits from, with `room` levels left.  The state is the names
of the classes visited and what `visit` makes of them. -/
def walkClasses (r : Registry) (visit : Class → Subst → σ → m σ) :
    Nat → Shape → List Text × σ → m (Except Error (List Text × σ))
  | 0, s, _ => pure (.error (.evaluation s.render .inheritanceTooDeep))
  | room + 1, s, (visited, acc) =>
    if s.isHole then pure (.error .hole)
    else match r.classOf? s with
      | none => pure (.ok (visited, acc))
      | some c =>
        if visited.contains c.name then pure (.ok (visited, acc))
        else do
          match ← r.ownBindings c s with
          | .error e => pure (.error e)
          | .ok bindings =>
            let acc ← visit c bindings acc
            -- The class counts as visited before its bases are, so that a cycle comes to an end.
            walkBases r (walkClasses r visit room) bindings c.bases (c.name :: visited, acc)

/-- Walks all classes that a shape inherits from. -/
def walkAll (r : Registry) (visit : Class → Subst → σ → m σ) (s : Shape) (start : σ) :
    m (Except Error σ) := do
  let outcome ← walkClasses r visit (maxRecursion + 1) s ([], start)
  pure (outcome.map (·.2))

/-- The bindings of a shape's class and of every class it inherits from; the nearer class wins. -/
def genericBindings (r : Registry) (s : Shape) : m (Except Error Subst) :=
  r.walkAll (fun _ bindings acc =>
    -- What nearer classes have bound is kept.
    pure (bindings.foldl (fun acc (n, t) => Table.putNew n t acc) acc)) s []

/-- A member of a class with its shape. -/
structure MemberShape where
  name : Text
  shape : Shape

/-- Adds the members of a class that are not there yet, each with the bindings of its class and
then with `extra` put into it. -/
def addMembers (r : Registry) (extra bindings : Subst) :
    List Member → List MemberShape → m (List MemberShape)
  | [], acc => pure acc
  | member :: rest, acc =>
    if acc.any (·.name == member.name) then addMembers r extra bindings rest acc
    else do
      let shape ← r.shapeM member.type
      -- The bindings of the class come first, and `extra` is put into what they leave open.
      let shape ← substituteShapeM bindings shape
      let shape ← substituteShapeM extra shape
      addMembers r extra bindings rest (acc ++ [⟨member.name, shape⟩])

/-- The members of a shape's class, inherited ones included, with their shapes. -/
def memberShapes (r : Registry) (s : Shape) (extra : Subst) : m (Except Error (List MemberShape)) :=
  r.walkAll (fun c bindings acc => addMembers r extra bindings c.members acc) s []

end TypeShape.Registry
