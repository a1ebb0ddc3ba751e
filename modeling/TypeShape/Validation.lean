import TypeShape.Constraint.Parser
import TypeShape.Constraint.Schema

/-!
# Validation of values

A value is validated against a type by the schema of the type: the value is turned into data and
the data are checked against the constraint that the schema spells.  What can go wrong is told in
this order: the type has no schema, the value refers to itself, the schema is not a constraint,
the value is no data, the data are rejected.

How a schema text judges a datum is a parameter, `Judge`; `Judge.standard` reads the text as a
constraint.
-/

namespace TypeShape

/-- What a schema says about a datum. -/
inductive Judgement where
  | accepted
  /-- Rejected at the place that a path leads to. -/
  | rejected (path : List Text)
  deriving DecidableEq, Repr

/-- A reader of schemas: `none` for a text that is no constraint. -/
abbrev Judge := Text → Option (Datum → Judgement)

/-- Reads a schema as a constraint. -/
def Judge.standard : Judge := fun schema =>
  (Constraint.parse? schema).map fun c d =>
    match c.failure? d with
    | none => .accepted
    | some path => .rejected path

/-- Whether a part of a path is a list index. -/
def isIndexPart (t : Text) : Bool :=
  !t.isEmpty && t.all Text.isDigit

/-- A path as a text: names with dots between them, indices in brackets except at the front. -/
def formatPath : List Text → Text
  | [] => []
  | first :: rest => first ++ rest.flatMap fun part =>
    if isIndexPart part then Text.bracketed part else text "." ++ part

/-- Checks a value against a type. -/
def Registry.validateWith (judge : Judge) (r : Registry) (h : Host) (v : Value) (target : TypeExpr) :
    Except Error Unit := do
  -- A type without a schema is refused before the value is looked at.
  let schema ← r.schema target
  if v.isSelfReferential h then throw (.unsupported .selfReferential)
  match judge schema with
  | none => throw (.schema target.display)
  | some verdict =>
    match Datum.ofValue? h v with
    | none => throw (.unsupported .encoding)
    | some d =>
      match verdict d with
      | .accepted => pure ()
      | .rejected path =>
        -- The message shows the type, so it needs one that can be written.
        if target.isComplete then throw (.rejected target.render (formatPath path))
        else throw .hole

/-- Checks a value against a type by the constraint that the type's schema spells. -/
def Registry.validate (r : Registry) (h : Host) (v : Value) (target : TypeExpr) :
    Except Error Unit :=
  r.validateWith Judge.standard h v target

/-- Whether a failure says that validation does not cover the type or the value. -/
def Error.isUnsupported : Error → Bool
  | .unsupported _ => true
  | _ => false

end TypeShape
