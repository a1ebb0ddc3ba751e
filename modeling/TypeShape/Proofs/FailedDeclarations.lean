import TypeShape.Proofs.AppliedClasses
import TypeShape.Proofs.Histories

/-!
# Declarations that fail

A declaration of a variable, an alias or a host type is checked before anything is entered, so when
it fails nothing has changed.  A declaration of a class enters the type parameters of the class one
by one and checks the bases and the members after them; when it fails, the parameters accepted so far
stay as variables.  Here it is said which ones these are.

## Key results

- `Registry.after_declareParams`: what declaring type parameters leaves, whether it fails or not
- `Operation.run_of_failed`: what a failed declaration leaves
- `Operation.failed_class_leaves_param`: a class with an unknown base, whose parameter stays
-/

namespace TypeShape

open Declaring Registry

namespace Registry

variable {r r' : Registry}

/-- The type parameters that are new variables, up to the first one that is refused; `seen` are the
names of those before. -/
def newParams (r : Registry) : List Text → List TypeVar → List TypeVar
  | _, [] => []
  | seen, p :: ps =>
    if seen.contains p.name || !r.accepts p then []
    else if (r.var? p.name).isSome then newParams r (p.name :: seen) ps
    else p :: newParams r (p.name :: seen) ps

/-- The registry with variables that are new. -/
def withVars (r : Registry) (vs : List TypeVar) : Registry :=
  { r with vars := r.vars ++ vs.map fun v => (v.name, v) }

/-- Which parameters are new does not depend on the variables of names seen before. -/
theorem newParams_congr {seen : List Text} {params : List TypeVar}
    (hclasses : r'.classes = r.classes) (hvars : ∀ n, n ∉ seen → r'.var? n = r.var? n) :
    r'.newParams seen params = r.newParams seen params := by
  -- By induction on the parameters.
  induction params generalizing seen with
  | nil => rfl
  | cons p ps ih =>
    unfold newParams
    by_cases hseen : seen.contains p.name = true
    · simp only [hseen, Bool.true_or, if_true]
    · have hfresh : p.name ∉ seen := fun hmem => hseen (List.contains_iff_mem.2 hmem)
      have haccepts : r'.accepts p = r.accepts p := by
        unfold accepts
        rw [hclasses, hvars p.name hfresh]
      have hrest : r'.newParams (p.name :: seen) ps = r.newParams (p.name :: seen) ps :=
        ih fun n hn => hvars n fun hmem => hn (List.mem_cons_of_mem _ hmem)
      rw [haccepts, hvars p.name hfresh, hrest]

/-- Filing no variables changes nothing. -/
theorem withVars_nil (r : Registry) : r.withVars [] = r := by
  simp [withVars]

/-- Variables are filed one after the other. -/
theorem withVars_put {v : TypeVar} (h : r.var? v.name = none) (vs : List TypeVar) :
    withVars { r with vars := Table.put v.name v r.vars } vs = r.withVars (v :: vs) := by
  have hput : Table.put v.name v r.vars = r.vars ++ [(v.name, v)] :=
    Table.put_of_find?_eq_none h v
  simp [withVars, hput]

/-- Declaring type parameters leaves the new ones as variables, up to the first one that is
refused. -/
theorem after_declareParams (owner : Text) (seen : List Text) (params : List TypeVar)
    (r : Registry) :
    (after (declareParams owner seen params) r).2 = r.withVars (r.newParams seen params) := by
  -- By induction on the parameters; the first one that is refused ends the declarations.
  induction params generalizing seen r with
  | nil => exact r.withVars_nil.symm
  | cons p ps ih =>
    unfold declareParams newParams
    by_cases hseen : seen.contains p.name = true
    · rw [if_pos hseen, after_refuse, if_pos (by rw [hseen, Bool.true_or]), withVars_nil]
    rw [if_neg hseen, after_bind]
    by_cases haccepts : r.accepts p = true
    · have hgoes : (seen.contains p.name || !r.accepts p) = false := by
        rw [haccepts, Bool.not_true, Bool.or_false]
        exact eq_false_of_ne_true hseen
      rw [after_declareVar_of_accepts haccepts]
      simp only [hgoes, Bool.false_eq_true, if_false]
      by_cases hknown : (r.var? p.name).isSome = true
      · rw [if_pos hknown, if_pos hknown, ih]
      · rw [if_neg hknown, if_neg hknown, ih, ← withVars_put (by simpa using hknown)]
        -- The parameters that follow have other names, so the new variable does not matter to them.
        have hrest : newParams { r with vars := Table.put p.name p r.vars } (p.name :: seen) ps =
            r.newParams (p.name :: seen) ps :=
          newParams_congr rfl fun n hn => Table.find?_put_of_ne (List.ne_of_not_mem_cons hn) p r.vars
        rw [hrest]
    · obtain ⟨e, hrun⟩ := after_declareVar_of_refuses haccepts
      rw [hrun, if_pos (by simp [haccepts]), withVars_nil]

/-- Filing a variable that was not known changes the registry. -/
theorem eq_nil_of_withVars_eq {vs : List TypeVar} (h : r.withVars vs = r) : vs = [] := by
  have hlength := congrArg (fun s : Registry => s.vars.length) h
  simp only [withVars, List.length_append, List.length_map] at hlength
  exact List.length_eq_zero_iff.1 (by omega)

/-! ## Declarations that are checked first -/

section

variable {e : Error}

/-- A variable that is refused changes nothing. -/
theorem eq_of_failed_declareVar {v : TypeVar} (h : after (declareVar v) r = (.error e, r')) :
    r' = r := by
  obtain ⟨hafter, -⟩ | ⟨hafter, -⟩ | ⟨e', hafter⟩ := declareVar_cases v r
  · rw [hafter] at h
    cases h
  · rw [hafter] at h
    cases h
  · rw [hafter] at h
    cases h
    rfl

/-- An alias that is refused changes nothing. -/
theorem eq_of_failed_declareAlias {name : Text} {t : TypeExpr}
    (h : after (declareAlias name t) r = (.error e, r')) : r' = r := by
  rw [after_declareAlias] at h
  repeat' split at h
  all_goals cases h
  all_goals rfl

/-- A host type that is refused changes nothing. -/
theorem eq_of_failed_bindHostType {t : HostType} {name : Text}
    (h : after (bindHostType t name) r = (.error e, r')) : r' = r := by
  unfold bindHostType at h
  rw [after_get_bind] at h
  split at h
  · cases h
  · cases h
    rfl

end

end Registry

namespace Operation

/-- Whether a call is a single declaration of a name. -/
def isDeclaration : Operation → Bool
  | declare _ | declareVar _ | declareAlias _ _ | bindHostType _ _ => true
  | _ => false

/-- The variables that a declaration leaves when it fails: the new type parameters of a class up to
the first one that is refused, unless the class is refused before them. -/
def leftovers (r : Registry) : Operation → List TypeVar
  | declare c =>
    if c.name.isEmpty || Name.isReserved c.name || r.vars.has c.name then []
    else r.newParams [] c.params
  | _ => []

variable {r r' : Registry} {e : Error}

/-- A class that is refused leaves the type parameters that were declared before. -/
theorem run_of_failed_declare {c : Class} (h : after (Registry.declare c) r = (.error e, r')) :
    r' = r.withVars ((declare c).leftovers r) := by
  have hparams := after_declareParams c.name [] c.params r
  have hleft : (declare c).leftovers r =
      if c.name.isEmpty || Name.isReserved c.name || r.vars.has c.name then []
      else r.newParams [] c.params := rfl
  rw [after_declare] at h
  rw [hleft]
  split at h
  · rename_i hempty
    cases h
    rw [hempty, Bool.true_or, Bool.true_or, if_pos rfl, withVars_nil]
  rename_i hempty
  split at h
  · rename_i hreserved
    cases h
    rw [hreserved, Bool.or_true, Bool.true_or, if_pos rfl, withVars_nil]
  rename_i hreserved
  split at h
  · rename_i hvar
    cases h
    rw [hvar, Bool.or_true, if_pos rfl, withVars_nil]
  rename_i hvar
  rw [if_neg (by simp [hempty, hreserved, hvar]), ← hparams]
  -- The bases and the members are checked where the parameters have been declared.
  rcases hrun : after (declareParams c.name [] c.params) r with ⟨_ | _, r₁⟩
  · rw [hrun] at h
    cases h
    rfl
  · rw [hrun] at h
    dsimp only at h
    split at h
    · cases h
      rfl
    split at h
    · cases h
      rfl
    · cases h

/-- A declaration that fails has entered nothing but the type parameters that were accepted, so it
leaves no trace exactly if none of them was new. -/
theorem run_of_failed (op : Operation) (hop : op.isDeclaration = true)
    (hfailed : (after op.act r).1 = .error e) :
    op.run r = r.withVars (op.leftovers r) ∧ (op.run r = r ↔ op.leftovers r = []) := by
  have h : after op.act r = (.error e, op.run r) := Prod.ext hfailed rfl
  -- Only declaring a class enters something before it may fail.
  have hleft : op.run r = r.withVars (op.leftovers r) := by
    cases op with
    | declare c => exact run_of_failed_declare h
    | declareVar v => exact (eq_of_failed_declareVar h).trans r.withVars_nil.symm
    | declareAlias name t => exact (eq_of_failed_declareAlias h).trans r.withVars_nil.symm
    | bindHostType t name => exact (eq_of_failed_bindHostType h).trans r.withVars_nil.symm
    | _ => cases hop
  refine ⟨hleft, fun hsame => ?_, fun hnone => ?_⟩
  · exact eq_nil_of_withVars_eq (hleft.symm.trans hsame)
  · rw [hleft, hnone, withVars_nil]

/-- A class that lists a type parameter twice is refused at the second one, and the first one stays
as a variable. -/
theorem run_of_failed_pair :
    let item : TypeVar := { name := text "Item" }
    let pair : Class := { name := text "Pair", params := [item, item] }
    let fault : Error := .declaration (text "Pair") (.duplicateParameter (text "Item"))
    (after (declare pair).act .builtin).1 = .error fault ∧
      (declare pair).run .builtin = Registry.builtin.withVars [item] := by
  intro item pair fault
  have hfailed : (after (declare pair).act .builtin).1 = .error fault := rfl
  -- What stays is what was entered before the parameter that is refused.
  have hleft : (declare pair).leftovers .builtin = [item] := rfl
  have hrun := (run_of_failed (declare pair) rfl hfailed).1
  rw [hleft] at hrun
  exact ⟨hfailed, hrun⟩

/-- A class with a base that is not known is refused after its type parameter has been entered. -/
theorem failed_class_leaves_param :
    let item : TypeVar := { name := text "Item" }
    let box : Class := { name := text "Box", params := [item], bases := [.con (text "Missing")] }
    (after (declare box).act .builtin).1 =
        .error (.declaration (text "Box") (.unknownBase (text "Missing"))) ∧
      builtin.var? item.name = none ∧ ((declare box).run .builtin).var? item.name = some item :=
  ⟨rfl, rfl, rfl⟩

end Operation

end TypeShape
