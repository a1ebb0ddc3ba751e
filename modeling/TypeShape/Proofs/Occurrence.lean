import TypeShape.Shape.Reduction

/-!
# What occurs in an expression

An expression occurs in another if it stands somewhere in it as it is written.  The declaration of a
variable is not written where the variable is, and the parameters of a callable that accepts every
parameter list are not written at all.

## Key results

- `TypeExpr.induct`: induction with hypotheses for the members of lists
- `TypeExpr.isConstrained_iff`: reduction sets something aside exactly when a constraint occurs
-/

namespace TypeShape.TypeExpr

/-- Induction over expressions, with one hypothesis for all members of a list. -/
@[elab_as_elim]
theorem induct {motive : TypeExpr → Prop} (omitted : motive .omitted)
    (con : ∀ name, motive (.con name))
    (app : ∀ head args, (∀ t ∈ args, motive t) → motive (.app head args))
    (var : ∀ name bound constraints, motive bound → (∀ t ∈ constraints, motive t) →
      motive (.var name bound constraints))
    (union : ∀ members optional, (∀ t ∈ members, motive t) → motive (.union members optional))
    (callable : ∀ params result ellipsis, (∀ t ∈ params, motive t) → motive result →
      motive (.callable params result ellipsis))
    (typeOf : ∀ operand, motive operand → motive (.typeOf operand))
    (annotated : ∀ inner metadata, motive inner → motive (.annotated inner metadata))
    (literal : ∀ values, motive (.literal values)) (t : TypeExpr) : motive t := by
  -- The recursor runs over lists too; their hypothesis is that of each of their members.
  refine @TypeExpr.rec motive (fun ts => ∀ t ∈ ts, motive t) omitted con app var union callable
    typeOf annotated literal ?_ ?_ t
  · exact fun t ht => absurd ht List.not_mem_nil
  · exact fun t ts ht hts => List.forall_mem_cons.2 ⟨ht, hts⟩

/-- Where an expression stands in another as it is written. -/
inductive Occurs (s : TypeExpr) : TypeExpr → Prop where
  | self : Occurs s s
  | argument {head : Text} {args : List TypeExpr} {t : TypeExpr} :
    t ∈ args → Occurs s t → Occurs s (.app head args)
  | member {members : List TypeExpr} {optional : Bool} {t : TypeExpr} :
    t ∈ members → Occurs s t → Occurs s (.union members optional)
  | parameter {params : List TypeExpr} {result t : TypeExpr} :
    t ∈ params → Occurs s t → Occurs s (.callable params result false)
  | result {params : List TypeExpr} {result : TypeExpr} {ellipsis : Bool} :
    Occurs s result → Occurs s (.callable params result ellipsis)
  | operand {operand : TypeExpr} : Occurs s operand → Occurs s (.typeOf operand)
  | inner {inner : TypeExpr} {metadata : List Text} :
    Occurs s inner → Occurs s (.annotated inner metadata)

/-- Whether an expression by itself restricts the values of its class. -/
def isConstraint : TypeExpr → Bool
  | annotated _ metadata => !metadata.isEmpty
  | literal _ => true
  | _ => false

end TypeShape.TypeExpr

namespace TypeShape

/-- Two collections together are constrained if one of them is. -/
@[simp] theorem Metadata.isConstrained_append (m n : Metadata) :
    (m.append n).isConstrained = (m.isConstrained || n.isConstrained) := by
  obtain ⟨as, ls⟩ := m
  cases as <;> cases ls <;> simp [isConstrained, append]

namespace TypeExpr

/-- A list is constrained if one of its members is. -/
theorem isConstrained_metadataAll (ts : List TypeExpr) :
    (metadataAll ts).isConstrained = true ↔ ∃ t ∈ ts, t.metadata.isConstrained = true := by
  induction ts with
  | nil => simp [Metadata.isConstrained]
  | cons t ts ih => simp [ih]

/-- Reduction sets something aside exactly when a constraint occurs. -/
theorem isConstrained_iff (t : TypeExpr) :
    t.metadata.isConstrained = true ↔ ∃ s, Occurs s t ∧ s.isConstraint = true := by
  constructor
  -- From what is set aside to where it stands, by the shape of the expression.
  · induction t using induct with
    | omitted => simp [Metadata.isConstrained]
    | con name => simp [Metadata.isConstrained]
    | var name bound constraints _ _ => simp [Metadata.isConstrained]
    | literal values => exact fun _ => ⟨_, .self, rfl⟩
    | app head args ih =>
      intro h
      obtain ⟨t, ht, hconstrained⟩ := (isConstrained_metadataAll args).1 h
      obtain ⟨s, hs, hconstraint⟩ := ih t ht hconstrained
      exact ⟨s, .argument ht hs, hconstraint⟩
    | union members optional ih =>
      intro h
      obtain ⟨t, ht, hconstrained⟩ := (isConstrained_metadataAll members).1 h
      obtain ⟨s, hs, hconstraint⟩ := ih t ht hconstrained
      exact ⟨s, .member ht hs, hconstraint⟩
    | callable params result ellipsis ih₁ ih₂ =>
      intro h
      simp only [metadata, Metadata.isConstrained_append, Bool.or_eq_true] at h
      obtain h | h := h
      · obtain ⟨s, hs, hconstraint⟩ := ih₂ h
        exact ⟨s, .result hs, hconstraint⟩
      · cases ellipsis with
        -- Behind an ellipsis there are no parameters that could be constrained.
        | true => simp [Metadata.isConstrained] at h
        | false =>
          obtain ⟨t, ht, hconstrained⟩ := (isConstrained_metadataAll params).1 h
          obtain ⟨s, hs, hconstraint⟩ := ih₁ t ht hconstrained
          exact ⟨s, .parameter ht hs, hconstraint⟩
    | typeOf operand ih =>
      intro h
      obtain ⟨s, hs, hconstraint⟩ := ih h
      exact ⟨s, .operand hs, hconstraint⟩
    | annotated inner ms ih =>
      intro h
      simp only [metadata, Metadata.isConstrained_append, Bool.or_eq_true] at h
      obtain h | h := h
      · exact ⟨_, .self, by simpa [Metadata.isConstrained, isConstraint] using h⟩
      · obtain ⟨s, hs, hconstraint⟩ := ih h
        exact ⟨s, .inner hs, hconstraint⟩
  · rintro ⟨s, hs, hconstraint⟩
    -- From the place to what is set aside, by the derivation of the occurrence.
    induction hs with
    | self =>
      cases s with
      | annotated inner ms =>
        have hms : (Metadata.mk ms []).isConstrained = true := by
          simpa [isConstraint, Metadata.isConstrained] using hconstraint
        simp [hms]
      | literal values => rfl
      | _ => cases hconstraint
    | argument ht _ ih => exact (isConstrained_metadataAll _).2 ⟨_, ht, ih⟩
    | member ht _ ih => exact (isConstrained_metadataAll _).2 ⟨_, ht, ih⟩
    | parameter ht _ ih =>
      have hparams := (isConstrained_metadataAll _).2 ⟨_, ht, ih⟩
      simp [hparams]
    | result _ ih => simp [ih]
    | operand _ ih => exact ih
    | inner _ ih => simp [ih]

end TypeExpr

end TypeShape
