import TypeShape.Engine
import TypeShape.Proofs.Occurrence
import TypeShape.Proofs.ReachableRegistry
import TypeShape.Proofs.SubtypeRun

/-!
# Which rejections are final

An engine that validates values asks the judge of schemas first.  What the judge accepts is an
instance.  What it rejects may still match by its shape, unless the target constrains values; that
is told from what reduction set aside.  Reduction goes through a target as it is written and meets
no variable's declaration, while schemas follow the declarations.

## Key results

- `Engine.fst_isInstance`: the answer by the verdict of validation
- `Engine.isInstance_of_rejected`: a rejection is final when a constraint occurs in the target as it
  is written, and otherwise the shape decides as if there were no validation
- `Engine.isInstance_of_rejected_bound`: the constraint of a bound is bypassed
-/

namespace TypeShape

/-- What reducing an expression gives is what the memo shows of it. -/
theorem Memo.fst_run_reduce (t : TypeExpr) (memo : Memo) :
    (StateT.run (Memo.reduce t) memo).1 = memo.view t := by
  rw [Memo.run_reduce, Memo.view]
  split
  · rfl
  · cases memo.entries.find? t.key <;> rfl

/-- A constraint that a target carries: as it is written, or in the declaration of a variable. -/
inductive Registry.Carries (r : Registry) (s : TypeExpr) : TypeExpr → Prop where
  | occurs {t : TypeExpr} : s.Occurs t → Carries r s t
  | bound {v : TypeVar} {t : TypeExpr} : v.toExpr.Occurs t →
    Carries r s (r.declarationOf v).bound → Carries r s t
  | alternative {v : TypeVar} {t u : TypeExpr} : v.toExpr.Occurs t →
    u ∈ (r.declarationOf v).constraints → Carries r s u → Carries r s t

namespace Engine

/-- Reducing the target comes first, through the memo. -/
theorem run_isInstanceM (judge : Option Judge) (r : Registry) (h : Host) (v : Value)
    (target : TypeExpr) (maxDepth maxSample : Int) (memo : Memo) :
    StateT.run (OptionT.run (isInstanceM judge r h v target maxDepth maxSample : Query Bool)) memo =
      StateT.run (OptionT.run (match verdict? judge r h v (r.expandAliases target)
          (StateT.run (Memo.reduce (r.expandAliases target)) memo).1 with
        | .error _ => Reducing.stuck
        | .ok (some answer) => pure answer
        | .ok none => shapeMatches r h v
          (StateT.run (Memo.reduce (r.expandAliases target)) memo).1.shape maxDepth maxSample
        : Query Bool)) (StateT.run (Memo.reduce (r.expandAliases target)) memo).2 :=
  rfl

/-- Whether the shape of a value matches that of a target, judged with the memo that reducing the
target has left. -/
def shapeAnswer (e : Engine) (h : Host) (v : Value) (target : TypeExpr) : Bool :=
  let t := e.registry.expandAliases target
  let left := { e with memo := (StateT.run (Memo.reduce t) e.memo).2 }
  (left.ask (shapeMatches e.registry h v (e.memo.view t).shape e.maxDepth e.maxSample)).1

/-- The answer by the verdict of validation; without a verdict, the shape of the value decides. -/
theorem fst_isInstance (e : Engine) (h : Host) (v : Value) (target : TypeExpr) :
    (e.isInstance h v target).1 =
      match verdict? e.judge e.registry h v (e.registry.expandAliases target)
        (e.memo.view (e.registry.expandAliases target)) with
      | .error _ => false
      | .ok (some answer) => answer
      | .ok none => e.shapeAnswer h v target := by
  -- The run is that of the checks, and the memo is the one of the engine.
  show Option.getD (StateT.run (OptionT.run (isInstanceM e.judge e.registry h v target e.maxDepth
    e.maxSample : Query Bool)) e.memo).1 false = _
  rw [run_isInstanceM, shapeAnswer, Memo.fst_run_reduce]
  cases verdict? e.judge e.registry h v (e.registry.expandAliases target)
    (e.memo.view (e.registry.expandAliases target)) with
  | error err => rfl
  | ok answer => cases answer <;> rfl

/-- The verdict on a value that is rejected: none, unless something was set aside. -/
theorem verdict?_of_rejected {judge : Judge} {r : Registry} {h : Host} {v : Value} {t : TypeExpr}
    {err : Error} (hrejected : r.validateWith judge h v t = .error err)
    (hsupported : err.isUnsupported = false) (hhole : err ≠ .hole) (reduced : Reduced) :
    verdict? (some judge) r h v t reduced =
      .ok (if reduced.metadata.isConstrained then some false else none) := by
  rw [verdict?, hrejected]
  cases err with
  | hole => exact absurd rfl hhole
  | _ =>
    simp only [hsupported, Bool.not_false, Bool.true_and]
    split <;> rfl

/-- A rejection by the judge is final when a constraint occurs in the target as it is written, its
aliases expanded.  Otherwise the engine answers as if it did not validate.  The memo may hold the
reduction of another expression under the key of the target; it has to show that of the target. -/
theorem isInstance_of_rejected {e : Engine} {judge : Judge} (hjudge : e.judge = some judge)
    {h : Host} {v : Value} {target : TypeExpr} {err : Error}
    (hrejected : e.registry.validateWith judge h v (e.registry.expandAliases target) = .error err)
    (hsupported : err.isUnsupported = false)
    (hmemo : e.memo.view (e.registry.expandAliases target) =
      (e.registry.expandAliases target).reduce) :
    ((∃ s : TypeExpr, s.Occurs (e.registry.expandAliases target) ∧ s.isConstraint = true) →
      (e.isInstance h v target).1 = false) ∧
    ((¬ ∃ s : TypeExpr, s.Occurs (e.registry.expandAliases target) ∧ s.isConstraint = true) →
      err ≠ .hole → (e.isInstance h v target).1 =
        (({ e with judge := none } : Engine).isInstance h v target).1) := by
  rw [← TypeExpr.isConstrained_iff, fst_isInstance, hmemo, hjudge]
  constructor
  · intro hconstrained
    -- A hole breaks the reduction off before the rejection is weighed.
    by_cases hhole : err = .hole
    · simp only [verdict?, hrejected, hhole]
    · rw [verdict?_of_rejected hrejected hsupported hhole, TypeExpr.reduce, if_pos hconstrained]
  · intro hplain hhole
    rw [verdict?_of_rejected hrejected hsupported hhole, TypeExpr.reduce, if_neg hplain,
      fst_isInstance]
    rfl

/-- A negative number is no instance of the positive ones. -/
theorem not_isInstance_positive :
    let e : Engine := {}
    let positive := TypeExpr.annotated (.con Name.int) [text ">0"]
    ∃ judge err, e.judge = some judge ∧
      e.registry.validateWith judge {} (.int .int (-1)) positive = .error err ∧
      err.isUnsupported = false ∧ positive.Occurs positive ∧ positive.isConstraint = true ∧
      (e.isInstance {} (.int .int (-1)) positive).1 = false := by
  let e : Engine := {}
  let positive := TypeExpr.annotated (.con Name.int) [text ">0"]
  have hrejected : e.registry.validateWith .standard {} (.int .int (-1))
      (e.registry.expandAliases positive) = .error (.rejected positive.render []) := by
    decide +kernel
  -- The memo of a new engine is empty, so that it shows the reduction itself.
  have hanswer := isInstance_of_rejected (e := e) rfl hrejected rfl rfl
  exact ⟨.standard, _, rfl, hrejected, rfl, .self, rfl, hanswer.1 ⟨positive, .self, rfl⟩⟩

/-- The constraint of a bound is bypassed: the judge rejects a negative number for a variable whose
bound are the positive numbers, and the engine takes it for an instance. -/
theorem isInstance_of_rejected_bound :
    let positive := TypeExpr.annotated (.con Name.int) [text ">0"]
    let p : TypeVar := { name := text "P", bound := positive }
    let e : Engine := { registry := (Declaring.after (Registry.declareVar p) .builtin).2 }
    ∃ judge err, e.registry.Reachable ∧ e.judge = some judge ∧
      e.registry.Carries positive (e.registry.expandAliases p.toExpr) ∧
      positive.isConstraint = true ∧
      e.registry.validateWith judge {} (.int .int (-1)) p.toExpr = .error err ∧
      err.isUnsupported = false ∧ (e.isInstance {} (.int .int (-1)) p.toExpr).1 = true := by
  refine ⟨.standard, .rejected (text "P") [], .declareVar _ .builtin, rfl, ?_, rfl,
    by decide +kernel, rfl, by decide +kernel⟩
  -- The constraint occurs as the bound itself.
  exact .bound .self (.occurs .self)

end Engine

end TypeShape
