import TypeShape.Proofs.Keys

/-!
# Expressions that keys tell apart

A key tells the outline of an expression.  The outline passes over the parameters that an ellipsis
voids, takes a union for a class `U` and the type of a type for a class `T`, and knows literals only
as they are written.  So where there are no literal types and no class is applied under one of these
two names, the outline has everything but the voided parameters.

## Key results

- `TypeExpr.key_withoutVoided`: a key does not tell the parameters that an ellipsis voids
- `TypeExpr.withoutVoided_eq_of_outline`: the outline tells everything else
- `TypeExpr.key_eq_iff_withoutVoided`: equal keys come from identical expressions
-/

namespace TypeShape.TypeExpr

open Token

/-! ## What an ellipsis voids -/

mutual

/-- The expression with the declarations of its variables, at any depth, but without the parameters
that an ellipsis voids. -/
def withoutVoided : TypeExpr → TypeExpr
  | omitted => omitted
  | con name => con name
  | app head args => app head (withoutVoidedAll args)
  | var name bound constraints => var name bound.withoutVoided (withoutVoidedAll constraints)
  | union members optional => union (withoutVoidedAll members) optional
  | callable params result ellipsis =>
    callable (if ellipsis then [] else withoutVoidedAll params) result.withoutVoided ellipsis
  | typeOf operand => typeOf operand.withoutVoided
  | annotated inner metadata => annotated inner.withoutVoided metadata
  | literal values => literal values

/-- The members of a list without the parameters that an ellipsis voids. -/
def withoutVoidedAll : List TypeExpr → List TypeExpr
  | [] => []
  | t :: ts => t.withoutVoided :: withoutVoidedAll ts

end

/-- Leaving out parameters that are voided does not change the outlines of a list, if it changes
none of its members'. -/
theorem outlineAll_withoutVoidedAll {ts : List TypeExpr}
    (h : ∀ t ∈ ts, t.withoutVoided.outline = t.outline) :
    outlineAll (withoutVoidedAll ts) = outlineAll ts := by
  induction ts with
  | nil => rfl
  | cons t ts ih =>
    obtain ⟨ht, hts⟩ := List.forall_mem_cons.1 h
    rw [withoutVoidedAll, outlineAll, outlineAll, ht, ih hts]

/-- Leaving out parameters that are voided does not change an outline. -/
theorem outline_withoutVoided (t : TypeExpr) : t.withoutVoided.outline = t.outline := by
  -- By induction on the expression; only a callable leaves anything out.
  induction t using induct with
  | omitted => rfl
  | con name => rfl
  | app head args ih => rw [withoutVoided, outline, outline, outlineAll_withoutVoidedAll ih]
  | var name bound constraints ih₁ ih₂ =>
    rw [withoutVoided, outline, outline, ih₁, outlineAll_withoutVoidedAll ih₂]
  | union members optional ih => rw [withoutVoided, outline, outline, outlineAll_withoutVoidedAll ih]
  | callable params result ellipsis ih₁ ih₂ =>
    cases ellipsis with
    | false => simp [withoutVoided, outline, outlineAll_withoutVoidedAll ih₁, ih₂]
    | true => simp [withoutVoided, outline, ih₂]
  | typeOf operand ih => rw [withoutVoided, outline, outline, ih]
  | annotated inner metadata ih => rw [withoutVoided, outline, outline, ih]
  | literal values => rfl

/-- A key does not tell the parameters that an ellipsis voids. -/
theorem key_withoutVoided (t : TypeExpr) : t.withoutVoided.key = t.key := by
  rw [← key_outline, outline_withoutVoided, key_outline]

/-! ## Names that stand out in a key -/

/-- The expressions without literal types whose classes and variables have names of the lexer, and
in which no class is applied under a name that a key writes in front of other brackets. -/
inductive WellNamed : TypeExpr → Prop where
  | omitted : WellNamed .omitted
  | con {name : Text} : isIdentifier name = true → WellNamed (.con name)
  | app {head : Text} {args : List TypeExpr} : isIdentifier head = true → head ≠ text "T" →
    head ≠ text "U" → (∀ t ∈ args, WellNamed t) → WellNamed (.app head args)
  | var {name : Text} {bound : TypeExpr} {constraints : List TypeExpr} : isIdentifier name = true →
    WellNamed bound → (∀ t ∈ constraints, WellNamed t) → WellNamed (.var name bound constraints)
  | union {members : List TypeExpr} {optional : Bool} :
    (∀ t ∈ members, WellNamed t) → WellNamed (.union members optional)
  | callable {params : List TypeExpr} {result : TypeExpr} {ellipsis : Bool} :
    (∀ t ∈ params, WellNamed t) → WellNamed result → WellNamed (.callable params result ellipsis)
  | typeOf {operand : TypeExpr} : WellNamed operand → WellNamed (.typeOf operand)
  | annotated {inner : TypeExpr} {metadata : List Text} :
    WellNamed inner → WellNamed (.annotated inner metadata)

/-- Every name of the lexer may be a class, and no variable is known by its name alone. -/
def identifiers : Vocabulary where
  isClass n := isIdentifier n = true
  declared _ := none
  isIdentifier _ h := h

variable {s t : TypeExpr}

/-- An expression whose names the lexer lets through has a legible outline. -/
theorem WellNamed.legible (h : t.WellNamed) : t.outline.Legible identifiers := by
  -- The tags of unions and of types of types are names of the lexer, too.
  have htags : isIdentifier (text "U") = true ∧ isIdentifier (text "T") = true := by decide
  -- By induction on the expression; a callable behind an ellipsis is legible without parameters.
  induction h with
  | omitted => exact .omitted
  | con hn => exact .word hn
  | app hn _ _ _ ih => exact .applied hn (Outline.legible_outlineAll ih)
  | var hn _ _ ih₁ ih₂ => exact .free hn rfl ih₁ (Outline.legible_outlineAll ih₂)
  | @union members optional _ ih =>
    cases optional with
    | false => exact .applied htags.1 (Outline.legible_outlineAll ih)
    | true => exact .optional (Outline.legible_outlineAll ih)
  | @callable params result ellipsis _ _ ih₁ ih₂ =>
    cases ellipsis with
    | false => exact .callable (Outline.legible_outlineAll ih₁) ih₂
    | true => exact .variadic ih₂
  | typeOf _ ih => exact .applied htags.2 (List.forall_mem_singleton.2 ih)
  | annotated _ ih => exact .annotated ih

/-! ## Reading an expression off its outline -/

/-- Lists are read off their outlines member by member. -/
theorem withoutVoidedAll_eq_of_outlineAll {ts us : List TypeExpr}
    (h : ∀ t ∈ ts, ∀ u : TypeExpr, u.WellNamed → t.outline = u.outline →
      t.withoutVoided = u.withoutVoided)
    (hus : ∀ u ∈ us, u.WellNamed) (houtlines : outlineAll us = outlineAll ts) :
    withoutVoidedAll ts = withoutVoidedAll us := by
  -- By induction on the lists; outlines of lists have the members that the lists have.
  induction ts generalizing us with
  | nil =>
    cases us with
    | nil => rfl
    | cons u us => cases houtlines
  | cons t ts ih =>
    cases us with
    | nil => cases houtlines
    | cons u us =>
      obtain ⟨ht, hts⟩ := List.forall_mem_cons.1 h
      obtain ⟨hu, hus⟩ := List.forall_mem_cons.1 hus
      obtain ⟨houtline, houtlines⟩ := List.cons.inj houtlines
      rw [withoutVoidedAll, withoutVoidedAll, ht u hu houtline.symm, ih hts hus houtlines]

/-- Without literal types and classes under tags, the outline tells everything but the parameters
that an ellipsis voids. -/
theorem withoutVoided_eq_of_outline (hs : s.WellNamed) (ht : t.WellNamed)
    (h : s.outline = t.outline) : s.withoutVoided = t.withoutVoided := by
  -- By induction on the first expression; its outline fits only few forms of the second.
  induction hs generalizing t with
  | omitted =>
    cases fits_of_outline_eq h
    rfl
  | con _ =>
    cases fits_of_outline_eq h
    rfl
  | app _ hT hU _ ih =>
    obtain ⟨args, rfl, hargs⟩ | ⟨members, -, htag, -⟩ | ⟨operand, -, htag, -⟩ :=
      fits_of_outline_eq h
    · cases ht with
      | app _ _ _ hwell =>
        rw [withoutVoided, withoutVoided, withoutVoidedAll_eq_of_outlineAll ih hwell hargs]
    · exact absurd htag hU
    · exact absurd htag hT
  | var _ _ _ ih₁ ih₂ =>
    obtain ⟨bound, constraints, rfl, hbound, hconstraints⟩ := fits_of_outline_eq h
    cases ht with
    | var _ hbound' hwell =>
      rw [withoutVoided, withoutVoided, ih₁ hbound' hbound.symm,
        withoutVoidedAll_eq_of_outlineAll ih₂ hwell hconstraints]
  | @union members optional _ ih =>
    cases optional with
    | false =>
      -- The tag of unions could be the name of a class, which is excluded, or the other tag.
      obtain ⟨args, rfl, -⟩ | ⟨members', rfl, -, hmembers⟩ | ⟨operand, -, htag, -⟩ :=
        fits_of_outline_eq h
      · cases ht with
        | app _ _ hU _ => exact absurd rfl hU
      · cases ht with
        | union hwell =>
          rw [withoutVoided, withoutVoided, withoutVoidedAll_eq_of_outlineAll ih hwell hmembers]
      · exact absurd htag (by decide)
    | true =>
      obtain ⟨members', rfl, hmembers⟩ := fits_of_outline_eq h
      cases ht with
      | union hwell =>
        rw [withoutVoided, withoutVoided, withoutVoidedAll_eq_of_outlineAll ih hwell hmembers]
  | @callable params result ellipsis _ _ ih₁ ih₂ =>
    cases ellipsis with
    | false =>
      obtain ⟨params', result', rfl, hparams, hresult⟩ := fits_of_outline_eq h
      cases ht with
      | callable hwell hresult' =>
        simp [withoutVoided, ih₂ hresult' hresult.symm,
          withoutVoidedAll_eq_of_outlineAll ih₁ hwell hparams]
    | true =>
      obtain ⟨params', result', rfl, hresult⟩ := fits_of_outline_eq h
      cases ht with
      | callable _ hresult' => simp [withoutVoided, ih₂ hresult' hresult.symm]
  | typeOf _ ih =>
    -- The same for the tag of types of types.
    obtain ⟨args, rfl, -⟩ | ⟨members, -, htag, -⟩ | ⟨operand, rfl, -, hoperand⟩ :=
      fits_of_outline_eq h
    · cases ht with
      | app _ hT _ _ => exact absurd rfl hT
    · exact absurd htag (by decide)
    · cases ht with
      | typeOf hwell =>
        rw [withoutVoided, withoutVoided, ih hwell (List.singleton_inj.1 hoperand).symm]
  | annotated _ ih =>
    obtain ⟨inner, rfl, hinner⟩ := fits_of_outline_eq h
    cases ht with
    | annotated hwell => rw [withoutVoided, withoutVoided, ih hwell hinner.symm]

/-- Two well-named expressions have the same key exactly if they are identical, the declarations of
their variables included, up to the parameters that an ellipsis voids. -/
theorem key_eq_iff_withoutVoided (hs : s.WellNamed) (ht : t.WellNamed) :
    s.key = t.key ↔ s.withoutVoided = t.withoutVoided := by
  constructor
  · intro hkeys
    exact withoutVoided_eq_of_outline hs ht ((key_eq_iff hs.legible ht.legible).1 hkeys)
  · intro heq
    rw [← key_withoutVoided s, ← key_withoutVoided t, heq]

/-- Parameters in front of an ellipsis are not told, but a bound is told from an alternative. -/
theorem key_eq_iff_withoutVoided_variadic :
    (callable [con Name.int] (var (text "T") (con Name.int) []) true).WellNamed ∧
    (callable [] (var (text "T") (con Name.int) []) true).WellNamed ∧
    (callable [] (var (text "T") omitted [con Name.int]) true).WellNamed ∧
    (callable [con Name.int] (var (text "T") (con Name.int) []) true).key =
      (callable [] (var (text "T") (con Name.int) []) true).key ∧
    (callable [] (var (text "T") (con Name.int) []) true).key ≠
      (callable [] (var (text "T") omitted [con Name.int]) true).key := by
  have hint : (con Name.int).WellNamed := .con (by decide)
  have hbound : (var (text "T") (con Name.int) []).WellNamed := .var (by decide) hint nofun
  have halternative : (var (text "T") omitted [con Name.int]).WellNamed :=
    .var (by decide) .omitted (List.forall_mem_singleton.2 hint)
  have hparams : (callable [con Name.int] (var (text "T") (con Name.int) []) true).WellNamed :=
    .callable (List.forall_mem_singleton.2 hint) hbound
  have hnone : (callable [] (var (text "T") (con Name.int) []) true).WellNamed :=
    .callable nofun hbound
  have halternatives : (callable [] (var (text "T") omitted [con Name.int]) true).WellNamed :=
    .callable nofun halternative
  -- One pair is equal without what is voided, the other is not.
  refine ⟨hparams, hnone, halternatives, (key_eq_iff_withoutVoided hparams hnone).2 rfl, fun h => ?_⟩
  cases (key_eq_iff_withoutVoided hnone halternatives).1 h

end TypeShape.TypeExpr
