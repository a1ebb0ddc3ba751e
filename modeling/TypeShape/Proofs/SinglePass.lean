import TypeShape.Proofs.DeclaredBases

/-!
# One pass of a substitution

Applying a substitution goes on in what it has put in, so a binding that mentions another bound
variable, or a variable that is a parameter elsewhere, is worked on again.  What comes of one
variable is `Subst.applied`; what one pass would put in its place is `Subst.value`.  Applying a
substitution to an expression amounts to one pass exactly where these two agree.

## Key results

- `TypeExpr.mapVars_eq_iff`: replacements are the same when they agree on what occurs
- `TypeExpr.apply_eq_mapVars`: applying a substitution replaces each variable by what comes of it
- `TypeExpr.apply_eq_value_iff`: when applying a substitution is one pass
-/

namespace TypeShape

namespace Subst

/-- What one pass of a substitution puts in the place of a variable. -/
def value (s : Subst) (v : TypeVar) : TypeExpr :=
  (Table.find? s v.name).getD v.toExpr

/-- What comes of a variable when a substitution is applied. -/
def applied (s : Subst) (v : TypeVar) : TypeExpr :=
  match Table.find? s v.name with
  | none => v.toExpr
  | some t => if t.isVarNamed v.name then v.toExpr else t.apply (Table.erase s v.name)

/-- Whether no binding mentions a variable that is bound. -/
def IsFlat (s : Subst) : Prop :=
  ∀ n t, Table.find? s n = some t → ∀ v ∈ t.varOccurrences, Table.find? s v.name = none

end Subst

namespace TypeExpr

mutual

/-- Two replacements of variables give the same if they agree on the variables that occur, and only
then. -/
theorem mapVars_eq_iff (f g : TypeVar → TypeExpr) :
    ∀ t : TypeExpr, t.mapVars f = t.mapVars g ↔ ∀ v ∈ t.varOccurrences, f v = g v
  | omitted => by simp
  | con _ => by simp
  | app head args => by simp [mapVarsAll_eq_iff f g args]
  | var name bound constraints => by simp
  | union members optional => by simp [mapVarsAll_eq_iff f g members]
  | callable params result ellipsis => by
    simp [mapVarsAll_eq_iff f g params, mapVars_eq_iff f g result, or_imp, forall_and]
  | typeOf operand => by simp [mapVars_eq_iff f g operand]
  | annotated inner metadata => by simp [mapVars_eq_iff f g inner]
  | literal _ => by simp

/-- So it is for the expressions of a list. -/
theorem mapVarsAll_eq_iff (f g : TypeVar → TypeExpr) :
    ∀ ts : List TypeExpr, mapVarsAll f ts = mapVarsAll g ts ↔
      ∀ v ∈ varOccurrencesAll ts, f v = g v
  | [] => by simp
  | t :: ts => by
    simp [mapVars_eq_iff f g t, mapVarsAll_eq_iff f g ts, or_imp, forall_and]

end

mutual

/-- Replacing every variable by itself changes nothing. -/
theorem mapVars_toExpr : ∀ t : TypeExpr, t.mapVars TypeVar.toExpr = t
  | omitted => rfl
  | con _ => rfl
  | app head args => by rw [mapVars, mapVarsAll_toExpr args]
  | var _ _ _ => rfl
  | union members optional => by rw [mapVars, mapVarsAll_toExpr members]
  | callable params result ellipsis => by
    rw [mapVars, mapVarsAll_toExpr params, mapVars_toExpr result]
  | typeOf operand => by rw [mapVars, mapVars_toExpr operand]
  | annotated inner metadata => by rw [mapVars, mapVars_toExpr inner]
  | literal _ => rfl

/-- So it is for the expressions of a list. -/
theorem mapVarsAll_toExpr : ∀ ts : List TypeExpr, mapVarsAll TypeVar.toExpr ts = ts
  | [] => rfl
  | t :: ts => by rw [mapVarsAll, mapVars_toExpr t, mapVarsAll_toExpr ts]

end

/-- Fuel for the bindings that there are is enough. -/
theorem applyFuel_eq {m n : Nat} {s : Subst} (hm : s.length ≤ m) (hn : s.length ≤ n)
    (t : TypeExpr) : applyFuel m s t = applyFuel n s t := by
  have hempty : ∀ k (u : TypeExpr), applyFuel k ([] : Subst) u = u := by
    intro k u
    cases k with
    | zero => rfl
    | succ k => exact mapVars_toExpr u
  induction m generalizing n s t with
  | zero =>
    obtain rfl := List.length_eq_zero_iff.1 (Nat.le_zero.1 hm)
    rw [hempty, hempty]
  | succ m ih =>
    cases n with
    | zero =>
      obtain rfl := List.length_eq_zero_iff.1 (Nat.le_zero.1 hn)
      rw [hempty, hempty]
    | succ n =>
      refine (mapVars_eq_iff _ _ t).2 fun v _ => ?_
      cases hfind : Table.find? s v.name with
      | none => rfl
      | some u =>
        -- The binding that is followed is taken out, and so the fuel that is left is enough again.
        have hlen := Table.length_erase_lt hfind
        have hrest : applyFuel m (Table.erase s v.name) u = applyFuel n (Table.erase s v.name) u :=
          ih (by omega) (by omega) u
        simp only [hrest]

/-- Applying a substitution replaces every variable by what comes of it. -/
theorem apply_eq_mapVars (s : Subst) (t : TypeExpr) : t.apply s = t.mapVars s.applied := by
  have hfuel : t.apply s = applyFuel (s.length + 1) s t :=
    applyFuel_eq (Nat.le_refl _) (Nat.le_succ _) t
  rw [hfuel]
  refine (mapVars_eq_iff _ _ t).2 fun v _ => ?_
  unfold Subst.applied
  cases hfind : Table.find? s v.name with
  | none => rfl
  | some u =>
    -- A binding is followed without itself, so one binding less is left.
    have hlen := Table.length_erase_lt hfind
    have hrest : applyFuel s.length (Table.erase s v.name) u = u.apply (Table.erase s v.name) :=
      applyFuel_eq (by omega) (Nat.le_refl _) u
    simp only [hrest]

/-- Applying a substitution is one pass exactly when the same comes of every variable that
occurs. -/
theorem apply_eq_value_iff (s : Subst) (t : TypeExpr) :
    t.apply s = t.mapVars s.value ↔ ∀ v ∈ t.varOccurrences, s.applied v = s.value v := by
  rw [apply_eq_mapVars]
  exact mapVars_eq_iff _ _ t

/-- A substitution that binds nothing that occurs changes nothing. -/
theorem apply_of_unbound {s : Subst} {t : TypeExpr}
    (h : ∀ v ∈ t.varOccurrences, Table.find? s v.name = none) : t.apply s = t := by
  have hsame : t.mapVars s.applied = t.mapVars TypeVar.toExpr := by
    refine (mapVars_eq_iff _ _ t).2 fun v hv => ?_
    simp only [Subst.applied, h v hv]
  rw [apply_eq_mapVars, hsame, mapVars_toExpr]

end TypeExpr

/-- No binding of a flat substitution is worked on again. -/
theorem Subst.IsFlat.applied_eq {s : Subst} (h : s.IsFlat) (v : TypeVar) :
    s.applied v = s.value v := by
  unfold applied value
  cases hfind : Table.find? s v.name with
  | none => rfl
  | some t =>
    have hunbound := h v.name t hfind
    have hvar : t.isVarNamed v.name = false := by
      cases t with
      | var name bound constraints =>
        -- A variable of that name would be bound.
        have hnone := hunbound ⟨name, bound, constraints⟩ (List.mem_singleton_self _)
        refine beq_false_of_ne ?_
        rintro rfl
        rw [hfind] at hnone
        cases hnone
      | _ => rfl
    have herase : t.apply (Table.erase s v.name) = t := by
      refine TypeExpr.apply_of_unbound fun w hw => ?_
      rw [Table.find?_erase, hunbound w hw, ite_self]
    simp only [hvar, herase, Bool.false_eq_true, if_false, Option.getD_some]

/-- Applying a flat substitution is one pass. -/
theorem Subst.IsFlat.apply_eq {s : Subst} (h : s.IsFlat) (t : TypeExpr) :
    t.apply s = t.mapVars s.value :=
  (TypeExpr.apply_eq_value_iff s t).2 fun v _ => h.applied_eq v

end TypeShape
