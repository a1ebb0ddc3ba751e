import TypeShape.Proofs.Occurrence
import TypeShape.Proofs.Rebuilding
import TypeShape.Proofs.SinglePass

/-!
# Substituting in expressions and in shapes

Variables can be replaced in an expression, in its shape, or on the way from the shape back to an
expression.  For types that were read and flat substitutions, all three lead to one shape.  Two
things are particular: on the way back, an `Optional` whose operand turns out to be `Nil` is an
error; and a binding that is omitted makes a type of types bare when it stands for its operand.

## Key results

- `TypeExpr.Regular.shape_mapVars`: one pass over an expression is one pass over its shape
- `TypeExpr.Regular.instantiate`: what strict building makes of the shape of a regular type
- `Registry.substitutions_agree`: the three ways to substitute
-/

namespace TypeShape

/-! ## Replacing variables in shapes -/

/-- Replaces the variables of a slot. -/
def Slot.substitute (s : Subst) : Slot → Slot
  | .single x => .single (x.substitute s)
  | .group xs => .group (xs.map (·.substitute s))

namespace Shape

/-- The empty substitution is not even walked with. -/
theorem substitute_nil (x : Shape) : x.substitute [] = x := rfl

/-- Any other substitution is one pass that replaces each variable it binds by the shape of its
binding. -/
theorem substitute_of_ne_nil {s : Subst} (hs : s ≠ []) (x : Shape) :
    x.substitute s = Id.run (mapVarsM (fun v =>
      match Table.find? s v.name with
      | none => pure none
      | some t => pure (some t.shape)) x) := by
  have hempty : s.isEmpty = false := by simpa using hs
  simp only [substitute, substituteM, hempty, Bool.false_eq_true, if_false]
  rfl

/-- A plain shape without arguments has nothing to replace. -/
@[simp] theorem substitute_plain (s : Subst) (kind : OriginKind) (name : Text) :
    (bare (.plain kind name)).substitute s = bare (.plain kind name) := by
  by_cases hs : s = []
  · rw [hs, substitute_nil]
  · rw [substitute_of_ne_nil hs]
    rfl

/-- A shape that is a variable is replaced by the shape of its binding, or stays. -/
@[simp] theorem substitute_ofVar (s : Subst) (v : TypeVar) :
    (ofVar v).substitute s = (s.value v).shape := by
  by_cases hs : s = []
  · subst hs
    rfl
  · rw [substitute_of_ne_nil hs, ofVar, mapVarsM, Subst.value]
    cases Table.find? s v.name <;> rfl

/-- One pass over a list of shapes is one pass over each. -/
theorem run_mapVarsAllM (f : TypeVar → Id (Option Shape)) (xs : List Shape) :
    Id.run (mapVarsAllM f xs) = xs.map fun x => Id.run (mapVarsM f x) := by
  induction xs with
  | nil => rfl
  | cons x xs ih => exact congrArg (_ :: ·) ih

/-- One pass over a list of slots is one pass over the shapes of each. -/
theorem run_mapVarsSlotsM {s : Subst} (hs : s ≠ []) (slots : List Slot) :
    Id.run (mapVarsSlotsM (fun v =>
      match Table.find? s v.name with
      | none => pure none
      | some t => pure (some t.shape)) slots) = slots.map (Slot.substitute s) := by
  -- By induction on the slots, which stay single or groups.
  induction slots with
  | nil => rfl
  | cons slot slots ih =>
    cases slot with
    | single x =>
      simp only [List.map_cons, Slot.substitute, substitute_of_ne_nil hs, ← ih]
      rfl
    | group xs =>
      simp only [List.map_cons, Slot.substitute, substitute_of_ne_nil hs, ← ih,
        ← run_mapVarsAllM]
      rfl

/-- Variables are replaced below an origin that is none. -/
@[simp] theorem substitute_applied (s : Subst) (kind : OriginKind) (name : Text)
    (slots : List Slot) :
    (applied (.plain kind name) slots).substitute s =
      applied (.plain kind name) (slots.map (Slot.substitute s)) := by
  -- An empty substitution is passed over without going through the slots.
  by_cases hs : s = []
  · subst hs
    have hslot : Slot.substitute [] = id := by
      funext slot
      cases slot <;> simp [Slot.substitute, substitute_nil]
    rw [hslot, List.map_id, substitute_nil]
  · rw [substitute_of_ne_nil hs, ← run_mapVarsSlotsM hs]
    rfl

/-- Over slots that hold one shape each, replacing is replacing in the shapes. -/
theorem map_substitute_single (s : Subst) (xs : List Shape) :
    (xs.map Slot.single).map (Slot.substitute s) =
      (xs.map (·.substitute s)).map .single := by
  simp [Slot.substitute]

/-- Replacing variables goes into the arguments of a class. -/
theorem substitute_ofClass (s : Subst) (name : Text) (args : List Shape) :
    (ofClass name args).substitute s = ofClass name (args.map (·.substitute s)) := by
  cases args with
  | nil => exact substitute_plain s _ _
  | cons a args => simp [ofClass, Slot.substitute]

/-- Replacing variables goes into the branches of a union. -/
theorem substitute_unionOf (s : Subst) (branches : List Shape) :
    (unionOf branches).substitute s = unionOf (branches.map (·.substitute s)) := by
  rw [unionOf, substitute_applied, map_substitute_single]
  rfl

/-- Replacing variables goes into the parameters and the result of a function. -/
theorem substitute_callableOf (s : Subst) (params : List Shape) (result : Shape) :
    (callableOf params result).substitute s =
      callableOf (params.map (·.substitute s)) (result.substitute s) := by
  simp [callableOf, callableOrigin, Slot.substitute]

/-- Replacing variables goes into the result of a function of any parameters. -/
theorem substitute_variadicOf (s : Subst) (result : Shape) :
    (variadicOf result).substitute s = variadicOf (result.substitute s) := by
  simp [variadicOf, callableOrigin, any, Slot.substitute]

/-- Replacing variables goes into the operand of a type of types. -/
theorem substitute_typeOf (s : Subst) (x : Shape) :
    (typeOf x).substitute s = typeOf (x.substitute s) := by
  simp [typeOf, typeOfOrigin, Slot.substitute]

/-- Replacing variables goes into the operand of an `Optional`, and `Nil` stays beside it. -/
theorem substitute_optionalOf (s : Subst) (x : Shape) :
    (optionalOf x).substitute s = optionalOf (x.substitute s) := by
  simp [optionalOf, leaf, Slot.substitute]

/-- A literal type holds no variables. -/
theorem substitute_literalShape (s : Subst) (values : List Literal) :
    (literalShape values).substitute s = literalShape values := by
  unfold literalShape
  split
  · exact substitute_plain s _ _
  · exact substitute_plain s _ _
  · rw [substitute_unionOf, List.map_map]
    exact congrArg unionOf (List.map_congr_left fun name _ => substitute_plain s _ _)

end Shape

namespace Shape

/-- Arguments that stay whole one by one stay whole as a list. -/
theorem areWhole_map_substitute {s : Subst} {xs : List Shape}
    (h : ∀ x ∈ xs, (x.substitute s).isWhole = true) : areWhole (xs.map (·.substitute s)) = true :=
  areWhole_iff.2 (List.forall_mem_map.2 h)

/-- Replacing variables leaves a regular shape whole. -/
theorem Regular.isWhole_substitute {x : Shape} (h : x.Regular) (s : Subst) :
    (x.substitute s).isWhole = true := by
  -- By induction on the shape: replacing keeps the constructor and goes into its parts; only a
  -- variable changes its form, and the shape of its binding is whole because it is the shape of an
  -- expression.
  induction h with
  | any => rw [Shape.any, substitute_plain]; rfl
  | leaf _ _ => rw [Shape.leaf, substitute_plain]; rfl
  | ofVar v => rw [substitute_ofVar]; exact isWhole_shape _
  | anyCallable => rw [Shape.anyCallable, callableOrigin, substitute_plain]; rfl
  | anyType => rw [Shape.anyType, typeOfOrigin, substitute_plain]; rfl
  | ofClass _ _ ih =>
    rw [substitute_ofClass]
    exact isWhole_ofClass _ (areWhole_map_substitute ih)
  | unionOf _ ih =>
    rw [substitute_unionOf]
    exact isWhole_unionOf (areWhole_map_substitute ih)
  | optionalOf _ ih =>
    rw [substitute_optionalOf]
    simp [Shape.optionalOf, ih, Shape.leaf]
  | callableOf _ _ ih₁ ih₂ =>
    rw [substitute_callableOf]
    simp [Shape.callableOf, callableOrigin, ih₂, areWhole_map_substitute ih₁]
  | variadicOf _ ih =>
    rw [substitute_variadicOf]
    simp [Shape.variadicOf, callableOrigin, ih, Shape.any]
  | typeOf _ ih =>
    rw [substitute_typeOf]
    simp [Shape.typeOf, typeOfOrigin, ih]

/-- A regular shape is whole: the empty substitution changes nothing. -/
theorem Regular.isWhole {x : Shape} (h : x.Regular) : x.isWhole = true := h.isWhole_substitute []

end Shape

/-! ## One pass over an expression -/

namespace TypeExpr

/-- No operand of a type of types is a variable whose binding is omitted. -/
def KeepsOperands (s : Subst) (t : TypeExpr) : Prop :=
  ∀ x v, Occurs (.typeOf x) t → x.shape.var? = some v → Table.find? s v.name ≠ some .omitted

/-- Replacing a variable gives an omitted expression only if that is its binding. -/
theorem isOmitted_mapVars {s : Subst} {t : TypeExpr} (ht : t.isOmitted = false)
    (hkeep : ∀ v, t.shape.var? = some v → Table.find? s v.name ≠ some .omitted) :
    (t.mapVars s.value).isOmitted = false := by
  -- Only a variable may turn into something omitted.
  cases t with
  | omitted => cases ht
  | var name bound constraints =>
    have hbound := hkeep ⟨name, bound, constraints⟩ rfl
    rw [mapVars, Subst.value]
    cases hfind : Table.find? s name with
    | none => rfl
    | some u =>
      cases u with
      | omitted => exact absurd hfind hbound
      | _ => rfl
  | _ => rfl

/-- Where one pass over each argument is one pass over its shape, so it is for the list. -/
theorem shapes_map_mapVars {s : Subst} {ts : List TypeExpr}
    (h : ∀ t ∈ ts, (t.mapVars s.value).shape = t.shape.substitute s) :
    (ts.map (mapVars s.value)).map shape = (ts.map shape).map (·.substitute s) := by
  rw [List.map_map, List.map_map]
  exact List.map_congr_left h

/-- One pass over a regular type is one pass over its shape. -/
theorem Regular.shape_mapVars {s : Subst} {t : TypeExpr} (h : t.Regular)
    (hkeep : t.KeepsOperands s) : (t.mapVars s.value).shape = t.shape.substitute s := by
  -- By induction on the type.  `hkeep` is about every operand that occurs in the type, so in each
  -- case it is handed on to the parts at the places where they occur.
  induction h with
  | con name =>
    unfold mapVars TypeExpr.shape
    split
    · exact (Shape.substitute_plain s _ _).symm
    split
    · exact (Shape.substitute_plain s _ _).symm
    · exact (Shape.substitute_plain s _ _).symm
  | @app head args _ _ ih =>
    have hargs := shapes_map_mapVars fun t ht => ih t ht fun x v hx => hkeep x v (.argument ht hx)
    rw [mapVars, mapVarsAll_eq_map, shape_app, shape_app, hargs, Shape.substitute_ofClass]
  | var name bound constraints => exact (Shape.substitute_ofVar s ⟨name, bound, constraints⟩).symm
  | @union members _ ih =>
    have hmembers := shapes_map_mapVars fun t ht => ih t ht fun x v hx => hkeep x v (.member ht hx)
    rw [mapVars, mapVarsAll_eq_map, shape_union, shape_union, hmembers, Shape.substitute_unionOf]
  | @optional t _ ih =>
    have ht := ih fun x v hx => hkeep x v (.member List.mem_cons_self hx)
    show Shape.optionalOf (t.mapVars s.value).shape = (Shape.optionalOf t.shape).substitute s
    rw [ht, Shape.substitute_optionalOf]
  | @callable params result _ _ ih₁ ih₂ =>
    have hparams :=
      shapes_map_mapVars fun t ht => ih₁ t ht fun x v hx => hkeep x v (.parameter ht hx)
    have hresult := ih₂ fun x v hx => hkeep x v (.result hx)
    rw [mapVars, mapVarsAll_eq_map, shape_callable, shape_callable, hparams, hresult,
      Shape.substitute_callableOf]
  | @variadic result _ ih =>
    have hresult := ih fun x v hx => hkeep x v (.result hx)
    rw [mapVars, shape_variadic, shape_variadic, hresult, Shape.substitute_variadicOf]
  | bareType => exact (Shape.substitute_plain s _ _).symm
  | @typeOf operand h ih =>
    have hoperand := ih fun x v hx => hkeep x v (.operand hx)
    -- An operand that was replaced by an omitted binding would give the bare type of types.
    have homitted := isOmitted_mapVars h.isOmitted (hkeep operand · .self)
    rw [mapVars, shape_typeOf homitted, shape_typeOf h.isOmitted, hoperand, Shape.substitute_typeOf]
  | annotated _ ih => exact ih fun x v hx => hkeep x v (.inner hx)
  | literal values => exact (Shape.substitute_literalShape s values).symm

end TypeExpr

/-! ## From a shape back to an expression -/

namespace TypeExpr

/-- An expression that turns out to be `Nil`. -/
def TurnsNil (s : Subst) (x : TypeExpr) : Prop :=
  ∃ u, x.shape.instantiate s = .ok u ∧ u.same .nil = true

/-- What strict building makes of the shape of an expression: an expression of the shape in which
the variables are replaced, or, if the operand of an `Optional` turns out to be `Nil`, an error that
shows this `Optional`. -/
def Instantiates (s : Subst) (t : TypeExpr) : Prop :=
  ((∀ x, Occurs (.optionalOf x) t → ¬ x.TurnsNil s) ∧
    ∃ u, t.shape.instantiate s = .ok u ∧ u.shape = t.shape.substitute s) ∨
  ∃ x, Occurs (.optionalOf x) t ∧ x.TurnsNil s ∧
    t.shape.instantiate s = .error (.unresolvedOptional (optionalOf x).shape.render 0)

/-- What strict building makes of a list of shapes. -/
theorem instantiates_all {s : Subst} {ts : List TypeExpr} (h : ∀ t ∈ ts, t.Instantiates s) :
    ((∀ t ∈ ts, ∀ x, Occurs (.optionalOf x) t → ¬ x.TurnsNil s) ∧
      ∃ us, Shape.buildAll s true (ts.map shape) = .ok us ∧
        us.map shape = (ts.map shape).map (·.substitute s)) ∨
    ∃ t ∈ ts, ∃ x, Occurs (.optionalOf x) t ∧ x.TurnsNil s ∧ Shape.buildAll s true (ts.map shape) =
      .error (.unresolvedOptional (optionalOf x).shape.render 0) := by
  -- By induction on the list; the first `Optional` that is left without a branch is reported.
  induction ts with
  | nil => exact .inl ⟨by simp, [], by simp [Shape.buildAll], rfl⟩
  | cons t ts ih =>
    obtain ⟨ht, hts⟩ := List.forall_mem_cons.1 h
    rw [List.map_cons, Shape.buildAll]
    obtain ⟨hfirst, u, hu, hshape⟩ | ⟨x, hx, hnil, herror⟩ := ht
    · rw [Shape.instantiate] at hu
      rw [hu]
      obtain ⟨hrest, us, hus, hshapes⟩ | ⟨t', ht', x, hx, hnil, herror⟩ := ih hts
      · rw [hus]
        exact .inl ⟨List.forall_mem_cons.2 ⟨hfirst, hrest⟩, u :: us, rfl,
          by simp [hshape, hshapes]⟩
      · rw [herror]
        exact .inr ⟨t', List.mem_cons_of_mem _ ht', x, hx, hnil, rfl⟩
    · rw [Shape.instantiate] at herror
      rw [herror]
      exact .inr ⟨t, List.mem_cons_self, x, hx, hnil, rfl⟩

/-- The branches of an `Optional` besides `Nil`. -/
theorem buildUnion_optional (x u : TypeExpr) :
    Shape.buildUnion true true (optionalOf x).shape [u, .nil] =
      if u.same .nil then .error (.unresolvedOptional (optionalOf x).shape.render 0)
      else .ok (.optionalOf u) := by
  have hwhole := Shape.showsHole_of_isWhole _ (Shape.isWhole_shape (optionalOf x))
  cases hu : u.same .nil <;>
    simp [Shape.buildUnion, List.filter, hu, Shape.complaint, hwhole]

/-- What strict building makes of the shape of a regular type. -/
theorem Regular.instantiate {s : Subst} {t : TypeExpr} (h : t.Regular) (hkeep : t.KeepsOperands s) :
    t.Instantiates s := by
  -- By induction on the type.  The parts are built from the left, so in each case either all of
  -- them were built and the whole is, or the first one with an `Optional` of `Nil` in it gives its
  -- error to the whole.
  induction h with
  | con name =>
    obtain ⟨kind, n, hshape, hbuild⟩ := build_con s true name
    exact .inl ⟨nofun, .con name, hbuild, by rw [hshape, Shape.substitute_plain]⟩
  | @app head args hne _ ih =>
    have hargs := instantiates_all fun t ht => ih t ht fun x v hx => hkeep x v (.argument ht hx)
    have hne' : args.map TypeExpr.shape ≠ [] := by simpa using hne
    unfold Instantiates
    rw [shape_app, Shape.substitute_ofClass, Shape.instantiate,
      Shape.build_ofClass s true head hne']
    obtain ⟨hnone, us, hus, hshapes⟩ | ⟨t, ht, x, hx, hnil, herror⟩ := hargs
    · rw [hus]
      refine .inl ⟨?_, .app head us, rfl, by rw [shape_app, hshapes]⟩
      intro x hx
      cases hx with
      | argument ht hx => exact hnone _ ht x hx
    · rw [herror]
      exact .inr ⟨x, .argument ht hx, hnil, rfl⟩
  | var name bound constraints =>
    exact .inl ⟨nofun, s.value ⟨name, bound, constraints⟩, rfl,
      (Shape.substitute_ofVar s ⟨name, bound, constraints⟩).symm⟩
  | @union members _ ih =>
    have hmembers := instantiates_all fun t ht => ih t ht fun x v hx => hkeep x v (.member ht hx)
    unfold Instantiates
    rw [shape_union, Shape.substitute_unionOf, Shape.instantiate, Shape.build_unionOf]
    obtain ⟨hnone, us, hus, hshapes⟩ | ⟨t, ht, x, hx, hnil, herror⟩ := hmembers
    · rw [hus]
      refine .inl ⟨?_, .union us false, rfl, by rw [shape_union, hshapes]⟩
      intro x hx
      cases hx with
      | member ht hx => exact hnone _ ht x hx
    · rw [herror]
      exact .inr ⟨x, .member ht hx, hnil, rfl⟩
  | @optional t h ih =>
    have hbuild : (optionalOf t).shape.instantiate s = t.shape.instantiate s >>= fun u =>
        Shape.buildUnion true true (optionalOf t).shape [u, .nil] :=
      Shape.build_optionalOf s true t.shape
    obtain ⟨hnone, u, hu, hshape⟩ | ⟨x, hx, hnil, herror⟩ :=
      ih fun x v hx => hkeep x v (.member List.mem_cons_self hx)
    · have hunion : (optionalOf t).shape.instantiate s =
          Shape.buildUnion true true (optionalOf t).shape [u, .nil] := by
        rw [hbuild, hu]
        rfl
      rw [buildUnion_optional] at hunion
      -- The only place where strict building can fail by itself.
      by_cases hnil : u.same .nil = true
      · rw [if_pos hnil] at hunion
        exact .inr ⟨t, .self, ⟨u, hu, hnil⟩, hunion⟩
      · rw [if_neg hnil] at hunion
        refine .inl ⟨?_, .optionalOf u, hunion, ?_⟩
        · rintro x hx ⟨w, hw, hwnil⟩
          cases hx with
          | self =>
            rw [hu] at hw
            cases hw
            exact hnil hwnil
          | member hmem hx =>
            obtain rfl | hmem := List.mem_cons.1 hmem
            · exact hnone x hx ⟨w, hw, hwnil⟩
            · rw [List.mem_singleton.1 hmem] at hx
              cases hx
        · show Shape.optionalOf u.shape = (Shape.optionalOf t.shape).substitute s
          rw [Shape.substitute_optionalOf, hshape]
    · refine .inr ⟨x, .member List.mem_cons_self hx, hnil, ?_⟩
      rw [hbuild, herror]
      rfl
  | @callable params result _ _ ih₁ ih₂ =>
    have hparams :=
      instantiates_all fun t ht => ih₁ t ht fun x v hx => hkeep x v (.parameter ht hx)
    unfold Instantiates
    rw [shape_callable, Shape.substitute_callableOf, Shape.instantiate, Shape.build_callableOf]
    obtain ⟨hnone, u, hu, hresult⟩ | ⟨x, hx, hnil, herror⟩ :=
      ih₂ fun x v hx => hkeep x v (.result hx)
    · rw [Shape.instantiate] at hu
      rw [hu]
      obtain ⟨hnone', us, hus, hshapes⟩ | ⟨t, ht, x, hx, hnil, herror⟩ := hparams
      · rw [hus]
        refine .inl ⟨?_, .callable us u false, rfl, by rw [shape_callable, hshapes, hresult]⟩
        intro x hx
        cases hx with
        | parameter ht hx => exact hnone' _ ht x hx
        | result hx => exact hnone x hx
      · rw [herror]
        exact .inr ⟨x, .parameter ht hx, hnil, rfl⟩
    · rw [Shape.instantiate] at herror
      rw [herror]
      exact .inr ⟨x, .result hx, hnil, rfl⟩
  | @variadic result _ ih =>
    unfold Instantiates
    rw [shape_variadic, Shape.substitute_variadicOf, Shape.instantiate, Shape.build_variadicOf]
    obtain ⟨hnone, u, hu, hresult⟩ | ⟨x, hx, hnil, herror⟩ :=
      ih fun x v hx => hkeep x v (.result hx)
    · rw [Shape.instantiate] at hu
      rw [hu]
      refine .inl ⟨?_, .callable [] u true, rfl, by rw [shape_variadic, hresult]⟩
      intro x hx
      cases hx with
      | result hx => exact hnone x hx
    · rw [Shape.instantiate] at herror
      rw [herror]
      exact .inr ⟨x, .result hx, hnil, rfl⟩
  | bareType => exact .inl ⟨nofun, .typeOf .omitted, rfl, (Shape.substitute_plain s _ _).symm⟩
  | @typeOf operand h ih =>
    unfold Instantiates
    rw [shape_typeOf h.isOmitted, Shape.substitute_typeOf, Shape.instantiate, Shape.build_typeOf]
    obtain ⟨hnone, u, hu, hoperand⟩ | ⟨x, hx, hnil, herror⟩ :=
      ih fun x v hx => hkeep x v (.operand hx)
    · rw [Shape.instantiate] at hu
      -- Here `hkeep` is used: an operand that is left out would leave a bare type of types.
      have homitted := h.shape.isOmitted_build (hkeep operand · .self) hu
      rw [hu]
      refine .inl ⟨?_, .typeOf u, rfl, by rw [shape_typeOf homitted, hoperand]⟩
      intro x hx
      cases hx with
      | operand hx => exact hnone x hx
    · rw [Shape.instantiate] at herror
      rw [herror]
      exact .inr ⟨x, .operand hx, hnil, rfl⟩
  | annotated _ ih =>
    obtain ⟨hnone, hmade⟩ | ⟨x, hx, hblocked⟩ := ih fun x v hx => hkeep x v (.inner hx)
    · refine .inl ⟨?_, hmade⟩
      intro x hx
      cases hx with
      | inner hx => exact hnone x hx
    · exact .inr ⟨x, .inner hx, hblocked⟩
  | literal values =>
    refine .inl ⟨nofun, literalClasses values, build_literalShape s true values, ?_⟩
    exact (shape_literalClasses values).trans (Shape.substitute_literalShape s values).symm

end TypeExpr

/-! ## The three ways agree -/

/-- A binding without variables is flat. -/
theorem Subst.isFlat_singleton (name : Text) {t : TypeExpr} (h : t.varOccurrences = []) :
    Subst.IsFlat [(name, t)] := by
  intro n u hfind v hv
  rw [Table.find?_cons] at hfind
  split at hfind
  · cases hfind
    rw [h] at hv
    cases hv
  · cases hfind

namespace Registry

open TypeExpr

/-- For a type that was read and a flat substitution that leaves no operand of a type of types
omitted: the shape of the type with the substitution applied is its shape with the variables
replaced; strict building fails exactly if the operand of an `Optional` turns out to be `Nil`, with
the error for that; and otherwise it makes an expression of the same shape. -/
theorem substitutions_agree {r : Registry} (haliases : r.aliases = []) {source : Text}
    {t : TypeExpr} (hread : r.parse source = .ok t) {s : Subst} (hflat : s.IsFlat)
    (hkeep : t.KeepsOperands s) :
    (t.apply s).shape = t.shape.substitute s ∧
    ((∃ e, t.shape.instantiate s = .error e) ↔
      ∃ x, Occurs (.optionalOf x) t ∧ ∃ u, x.shape.instantiate s = .ok u ∧ u.same .nil = true) ∧
    (∀ e, t.shape.instantiate s = .error e → ∃ x, Occurs (.optionalOf x) t ∧
      e = .unresolvedOptional (optionalOf x).shape.render 0) ∧
    ∀ u, t.shape.instantiate s = .ok u → u.shape = t.shape.substitute s := by
  have hregular := regular_of_parse haliases hread
  have happly : (t.apply s).shape = t.shape.substitute s := by
    rw [hflat.apply_eq]
    exact hregular.shape_mapVars hkeep
  refine ⟨happly, ?_⟩
  -- Every error is that of an `Optional` whose operand turned out to be `Nil`, and one such
  -- `Optional` is enough for an error: what was built excludes it.
  obtain ⟨hnone, u, hu, hshape⟩ | ⟨x, hx, hnil, herror⟩ := hregular.instantiate hkeep
  · rw [hu]
    refine ⟨⟨nofun, fun ⟨x, hx, hnil⟩ => absurd hnil (hnone x hx)⟩, nofun, fun w hw => ?_⟩
    cases hw
    exact hshape
  · rw [herror]
    refine ⟨⟨fun _ => ⟨x, hx, hnil⟩, fun _ => ⟨_, rfl⟩⟩, fun e he => ?_, nofun⟩
    cases he
    exact ⟨x, hx, rfl⟩

/-- An optional variable that is bound to `Nil` has no expression. -/
theorem instantiate_optional_nil :
    let t := optionalOf elementVar.toExpr
    let s : Subst := [(elementVar.name, .nil)]
    builtin.aliases = [] ∧ builtin.parse (text "Optional[_T]") = .ok t ∧ s.IsFlat ∧
      t.KeepsOperands s ∧ (t.apply s).shape = t.shape.substitute s ∧
      ∃ e, t.shape.instantiate s = .error e := by
  intro t s
  have hread : builtin.parse (text "Optional[_T]") = .ok t := rfl
  have hflat : s.IsFlat := Subst.isFlat_singleton _ rfl
  have hkeep : t.KeepsOperands s := by
    -- The operand of a type of types: there is none in this type.
    intro x v (hx : Occurs (.typeOf x) (.union [elementVar.toExpr, .nil] true))
    cases hx with
    | member hmem hx =>
      obtain rfl | hmem := List.mem_cons.1 hmem
      · cases hx
      · rw [List.mem_singleton.1 hmem] at hx
        cases hx
  obtain ⟨happly, hfails, -, -⟩ := substitutions_agree rfl hread hflat hkeep
  have hnil : TypeExpr.nil.same .nil = true := by decide
  exact ⟨rfl, hread, hflat, hkeep, happly, hfails.2 ⟨_, .self, .nil, rfl, hnil⟩⟩

/-- An omitted binding makes a type of types bare when it is put into the expression, and the type
of everything when it is put into the shape. -/
theorem substitutions_differ_omitted :
    ∃ t, ∃ s : Subst, builtin.aliases = [] ∧ builtin.parse (text "Type[_T]") = .ok t ∧ s.IsFlat ∧
      (t.apply s).shape.same (t.shape.substitute s) = false := by
  have hread : builtin.parse (text "Type[_T]") = .ok (.typeOf elementVar.toExpr) := rfl
  exact ⟨_, [(elementVar.name, .omitted)], rfl, hread, Subst.isFlat_singleton _ rfl, by decide⟩

end Registry

end TypeShape
