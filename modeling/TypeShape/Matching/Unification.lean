import TypeShape.Matching.Reducing

/-!
# Unification

A template and an instance are walked side by side, and every variable of the template is bound to
the type found at its place in the instance.  A variable met twice keeps its last binding.  Origins
must agree as in subtyping: the same kind, and for classes inheritance.
-/

namespace TypeShape.Registry

/-- Whether the origin of an instance satisfies that of a template. -/
def originSatisfies (r : Registry) (inst tmpl : Shape) : Bool :=
  tmpl.isObject ||
    match inst.origin, tmpl.origin with
    | .plain .nominal a, .plain .nominal b => r.isSubclass a b
    | .plain a _, .plain b _ => a == b
    -- Two variables satisfy each other, whatever their names are.
    | .var _, .var _ => true
    | _, _ => false

/-- The mismatch of a template and an instance. -/
def mismatch (tmpl inst : Shape) (reason : MismatchReason) : Error :=
  if tmpl.showsHole || inst.showsHole then .hole else .mismatch tmpl.render inst.render reason

/-- The mismatch of two nodes that can be seen without looking below them. -/
def rootMismatch? (r : Registry) (tmpl inst : Shape) : Option Error :=
  -- The class `Object` accepts a hole, since it accepts everything.
  if tmpl.isHole || (inst.isHole && !tmpl.isObject) then some .hole
  else if !r.originSatisfies inst tmpl then
    some (mismatch tmpl inst (.origin inst.origin.name tmpl.origin.name))
  else if !tmpl.isParameterized then none
  else if !inst.isParameterized then some (mismatch tmpl inst .noArguments)
  else if tmpl.slots.length ≠ inst.slots.length then
    some (mismatch tmpl inst (.arity tmpl.slots.length inst.slots.length))
  else none

/-- Binds a variable to the expression of an instance. -/
def bindVar (name : Text) (inst : Shape) (s : Subst) : Except Error Subst :=
  inst.expression.map fun t => Table.put name t s

mutual

/-- Walks a template and an instance, with `room` levels left. -/
def unifyAt (r : Registry) (room : Nat) : Shape → Shape → Subst → Except Error Subst
  | .bare origin, inst, s =>
    if room = 0 then .error (mismatch (.bare origin) inst .tooDeep)
    else match origin with
      | .var decl => bindVar decl.name inst s
      | .plain .any _ => .ok s
      | origin =>
        match r.rootMismatch? (.bare origin) inst with
        | some e => .error e
        | none => .ok s
  | .applied origin slots, inst, s =>
    if room = 0 then .error (mismatch (.applied origin slots) inst .tooDeep)
    else match origin with
      | .var decl => bindVar decl.name inst s
      | .plain .any _ => .ok s
      | origin =>
        match r.rootMismatch? (.applied origin slots) inst with
        | some e => .error e
        | none => unifySlots r (room - 1) (mismatch (.applied origin slots) inst) 0 slots inst.slots s

/-- Walks the slots of a template and an instance; a wildcard slot accepts every slot. -/
def unifySlots (r : Registry) (room : Nat) (fail : MismatchReason → Error) (index : Nat) :
    List Slot → List Slot → Subst → Except Error Subst
  | .single t :: ts, i :: is, s =>
    if t.isHole then .error .hole
    else if t.isAny then unifySlots r room fail (index + 1) ts is s
    else match i with
      | .single x => do
        let s ← unifyAt r room t x s
        unifySlots r room fail (index + 1) ts is s
      | .group _ => .error (fail (.slot index))
  | .group ps :: ts, i :: is, s =>
    match i with
    | .single _ => .error (fail (.slot index))
    | .group qs =>
      if ps.length ≠ qs.length then .error (fail (.slotArity index ps.length qs.length))
      else do
        let s ← unifyAll r room ps qs s
        unifySlots r room fail (index + 1) ts is s
  -- The roots have told that the lists are of equal length.
  | _, _, s => .ok s

/-- Walks two groups of equal length. -/
def unifyAll (r : Registry) (room : Nat) :
    List Shape → List Shape → Subst → Except Error Subst
  | t :: ts, i :: is, s => do
    let s ← unifyAt r room t i s
    unifyAll r room ts is s
  | _, _, s => .ok s

end

/-- The bindings under which the variables of a template match an instance. -/
def unify (r : Registry) (tmpl inst : Shape) : Except Error Subst :=
  r.unifyAt (maxRecursion + 1) tmpl inst []

end TypeShape.Registry
