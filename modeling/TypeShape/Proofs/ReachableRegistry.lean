import TypeShape.Proofs.Entries

/-!
# Registries that declarations lead to

A registry is reachable if declarations have made it from the registry of the builtin classes.
Declarations that fail count as well, because a class declares its type parameters before the rest
of it is checked.  What every entry checks before it is made holds of all classes of a reachable
registry.

## Key results

- `Registry.Reachable.path`: entries lead from the builtin classes to a reachable registry
- `Registry.Reachable.wellDeclared`: the classes of a reachable registry have passed the checks
- `Registry.Reachable.varsFiled`: the variables of a reachable registry stand under their names
-/

namespace TypeShape.Registry

open Declaring
open Relation (ReflTransGen)

/-- The registries that declarations lead to from the builtin classes. -/
inductive Reachable : Registry → Prop where
  | builtin : Reachable builtin
  | declareVar {r : Registry} (v : TypeVar) : Reachable r → Reachable (after (declareVar v) r).2
  | declare {r : Registry} (c : Class) : Reachable r → Reachable (after (declare c) r).2
  | declareAlias {r : Registry} (name : Text) (t : TypeExpr) :
    Reachable r → Reachable (after (declareAlias name t) r).2
  | bindHostType {r : Registry} (t : HostType) (name : Text) :
    Reachable r → Reachable (after (bindHostType t name) r).2
  | addTyper {r : Registry} (typer : Typer) : Reachable r → Reachable (after (addTyper typer) r).2

/-- All classes of a registry have passed the checks of their declarations. -/
def WellDeclared (r : Registry) : Prop :=
  ∀ name c, r.class? name = some c → r.ClassChecked name c

/-- Entries lead from the builtin classes to a reachable registry. -/
theorem Reachable.path {r : Registry} (h : r.Reachable) : ReflTransGen Entry .builtin r := by
  induction h with
  | builtin => exact .refl
  -- Each call adds its entries to the path of the registry that it was made on.
  | declareVar v _ ih =>
    exact ih.trans ((leads_declareVar v).mono (fun _ => id) (fun _ _ => .name) _ trivial)
  | declare c _ ih => exact ih.trans (leads_declare_entry c _ trivial)
  | declareAlias name t _ ih =>
    exact ih.trans ((leads_declareAlias name t).mono (fun _ => id) (fun _ _ => .side) _ trivial)
  | bindHostType t name _ ih =>
    exact ih.trans ((leads_bindHostType t name).mono (fun _ => id) (fun _ _ => .side) _ trivial)
  | addTyper typer _ ih =>
    exact ih.trans ((leads_addTyper typer).mono (fun _ => id) (fun _ _ => .side) _ trivial)

/-- The registry at the start is well formed. -/
theorem builtin_wellFormed : builtin.WellFormed := by
  have hall : ∀ entry ∈ builtin.classes, entry.2.name = entry.1 ∧
      Name.isReserved entry.1 = false ∧ (entry.2.params.map (·.name)).Nodup ∧
      (∀ base ∈ entry.2.bases, (builtin.baseFault? entry.1 base).isNone = true) ∧
      (∀ p ∈ entry.2.params, (builtin.var? p.name).isSome = true) ∧
      (entry.2.members.map (·.name)).Nodup := by decide
  refine ⟨fun name c hc => ?_, by simp [builtin]⟩
  obtain ⟨hname, hreserved, hparams, hbases, hknown, hmembers⟩ :=
    hall (name, c) (Table.mem_of_find? hc)
  exact ⟨⟨hname, hreserved, hparams, fun base hbase =>
    baseFault?_eq_none (Option.isNone_iff_eq_none.1 (hbases base hbase))⟩, hknown, hmembers⟩

/-- The variables of the registry at the start stand under their own names. -/
theorem builtin_varsFiled : builtin.VarsFiled := by
  have hall : ∀ entry ∈ builtin.vars, entry.2.name = entry.1 := by decide
  exact fun name v hv => hall (name, v) (Table.mem_of_find? hv)

/-- The classes of a reachable registry have passed the checks of their declarations. -/
theorem Reachable.wellDeclared {r : Registry} (h : r.Reachable) : r.WellDeclared :=
  fun name c hc =>
    ((stable_wellFormed.path h.path builtin_wellFormed).classes name c hc).toClassChecked

/-- The variables of a reachable registry stand under their names. -/
theorem Reachable.varsFiled {r : Registry} (h : r.Reachable) : r.VarsFiled :=
  stable_varsFiled.path h.path builtin_varsFiled

end TypeShape.Registry
