import TypeShape.Proofs.RegularTypes
import TypeShape.Proofs.StructuralEquality
import TypeShape.Proofs.SubtypeTransitive

/-!
# From regular shapes back to expressions

Every regular shape has an expression, and the shape of this expression is the same again.  Only
the spelling of a union may change: an `Optional` of `Nil` becomes a plain union.

## Key results

- `Shape.Regular.expression`: the expression of a regular shape
- `TypeExpr.build_literalShape`: the expression of the shape of a literal type
-/

namespace TypeShape

namespace Shape

section

-- The equations of the builder are made here, once for all the lemmas of this section.
attribute [local simp] build buildSlots buildAll buildBranches

/-- Arguments that are shapes are built one by one. -/
theorem buildSlots_map_single (s : Subst) (strict : Bool) (whole : Shape) (xs : List Shape) :
    buildSlots s strict whole (xs.map .single) = buildAll s strict xs := by
  induction xs with
  | nil => simp
  | cons x xs ih => simp [ih]

/-- So are branches that are shapes. -/
theorem buildBranches_map_single (s : Subst) (strict : Bool) (xs : List Shape) :
    buildBranches s strict (xs.map .single) = buildAll s strict xs := by
  induction xs with
  | nil => simp
  | cons x xs ih => simp [ih]

/-- A class with arguments is built from its arguments. -/
theorem build_ofClass (s : Subst) (strict : Bool) (name : Text) {args : List Shape}
    (h : args ≠ []) :
    build s strict (ofClass name args) = (buildAll s strict args).map (.app name) := by
  have hargs : args.isEmpty = false := by simpa using h
  rw [ofClass, hargs, if_neg Bool.false_ne_true, build, buildSlots_map_single]
  · rfl
  all_goals simp

/-- A union is built from its branches, as a plain union. -/
theorem build_unionOf (s : Subst) (strict : Bool) (branches : List Shape) :
    build s strict (unionOf branches) =
      (buildAll s strict branches).map (.union · false) := by
  rw [unionOf, build, buildBranches_map_single]
  cases buildAll s strict branches <;> rfl

/-- An `Optional` is built as the union of its operand and `Nil`. -/
theorem build_optionalOf (s : Subst) (strict : Bool) (x : Shape) :
    build s strict (optionalOf x) =
      (build s strict x >>= fun t => buildUnion strict true (optionalOf x) [t, .nil]) := by
  have hbranches : buildBranches s strict [.single x, .single (leaf Name.nil)] =
      (build s strict x).map ([·, .nil]) := by
    rw [buildBranches]
    cases build s strict x <;> rfl
  rw [optionalOf, build, hbranches]
  cases build s strict x <;> rfl

/-- Without a substitution, an `Optional` is built as a union in one of the two spellings: an operand
that is `Nil` itself is no branch besides `Nil`, and costs the union its spelling. -/
theorem exists_build_optionalOf {x : Shape} {t : TypeExpr} (h : build [] false x = .ok t) :
    ∃ optional, build [] false (optionalOf x) = .ok (.union [t, .nil] optional) := by
  rw [build_optionalOf, h]
  cases hsame : t.same .nil with
  | true => exact ⟨false, by simp [buildUnion, bind, Except.bind, List.filter, hsame]⟩
  | false =>
    exact ⟨true, by
      simp [buildUnion, bind, Except.bind, List.filter, hsame, TypeExpr.optionalOf]⟩

/-- A function is built from its result first and then from its parameters. -/
theorem build_callableOf (s : Subst) (strict : Bool) (params : List Shape) (result : Shape) :
    build s strict (callableOf params result) =
      (build s strict result >>= fun t =>
        (buildAll s strict params).map (.callable · t false)) := by
  rw [callableOf, callableOrigin, build]
  cases build s strict result with
  | error e => rfl
  | ok t => cases buildAll s strict params <;> rfl

/-- A function of any parameters is built from its result. -/
theorem build_variadicOf (s : Subst) (strict : Bool) (result : Shape) :
    build s strict (variadicOf result) =
      (build s strict result).map (.callable [] · true) := by
  rw [variadicOf, callableOrigin, build]
  cases build s strict result <;> rfl

/-- A type of types is built from its operand. -/
theorem build_typeOf (s : Subst) (strict : Bool) (x : Shape) :
    build s strict (typeOf x) = (build s strict x).map .typeOf := by
  rw [typeOf, typeOfOrigin, build]
  cases build s strict x <;> rfl

end

/-- Whatever becomes of a union, it is not the omitted expression. -/
theorem buildUnion_isOmitted {strict optional : Bool} {whole : Shape} {branches : List TypeExpr}
    {u : TypeExpr} (h : buildUnion strict optional whole branches = .ok u) :
    u.isOmitted = false := by
  unfold buildUnion at h
  repeat' split at h
  all_goals first | cases h; rfl | cases h

/-- The expression of a shape is omitted only if the shape is a variable whose binding is. -/
theorem Regular.isOmitted_build {s : Subst} {x : Shape} (h : x.Regular)
    (hkeep : ∀ v, x.var? = some v → Table.find? s v.name ≠ some .omitted) {strict : Bool}
    {u : TypeExpr} (hu : build s strict x = .ok u) : u.isOmitted = false := by
  -- Every shape but a variable is built by putting a constructor on top of what its parts become.
  have hmap : ∀ {α : Type} {e : Except Error α} {f : α → TypeExpr}, e.map f = .ok u →
      ∃ a, f a = u := by
    intro α e f hmap
    cases e with
    | error e => cases hmap
    | ok a => exact ⟨a, Except.ok.inj hmap⟩
  cases h with
  | any => cases hu; rfl
  | leaf _ _ => cases hu; rfl
  | anyCallable => cases hu; rfl
  | anyType => cases hu; rfl
  | ofVar v =>
    cases hu
    have hbound := hkeep v rfl
    cases hfind : Table.find? s v.name with
    | none => rfl
    | some t =>
      cases t with
      | omitted => exact absurd hfind hbound
      | _ => rfl
  | ofClass hne _ =>
    rw [build_ofClass s strict _ hne] at hu
    obtain ⟨us, rfl⟩ := hmap hu
    rfl
  | unionOf _ =>
    rw [build_unionOf] at hu
    obtain ⟨us, rfl⟩ := hmap hu
    rfl
  | optionalOf _ =>
    rw [build_optionalOf] at hu
    obtain ⟨t, -, hu⟩ := bind_eq_ok.1 hu
    exact buildUnion_isOmitted hu
  | callableOf _ _ =>
    rw [build_callableOf] at hu
    obtain ⟨t, -, hu⟩ := bind_eq_ok.1 hu
    obtain ⟨us, rfl⟩ := hmap hu
    rfl
  | variadicOf _ =>
    rw [build_variadicOf] at hu
    obtain ⟨t, rfl⟩ := hmap hu
    rfl
  | typeOf _ =>
    rw [build_typeOf] at hu
    obtain ⟨t, rfl⟩ := hmap hu
    rfl

end Shape

namespace TypeExpr

/-- The word for the wildcard and the one for callables are the expressions of their shapes. -/
theorem build_con (s : Subst) (strict : Bool) (name : Text) :
    ∃ kind n, (con name).shape = .bare (.plain kind n) ∧
      Shape.build s strict (con name).shape = .ok (con name) := by
  by_cases hany : name = Name.any
  · subst hany
    exact ⟨_, _, rfl, rfl⟩
  by_cases hcallable : name = Name.callable
  · subst hcallable
    exact ⟨_, _, rfl, rfl⟩
  · rw [shape, if_neg hany, if_neg hcallable]
    exact ⟨_, _, rfl, rfl⟩

/-- Classes without arguments are built by their names. -/
theorem buildAll_leaf (s : Subst) (strict : Bool) (names : List Text) :
    Shape.buildAll s strict (names.map .leaf) = .ok (names.map .con) := by
  induction names with
  | nil => simp [Shape.buildAll]
  | cons name names ih =>
    rw [List.map_cons, Shape.buildAll, ih]
    rfl

end TypeExpr

namespace Shape

/-! ## The expression of a regular shape -/

/-- Over slots that hold one shape each, sameness is that of the shapes. -/
theorem sameSlots_map_single (xs ys : List Shape) :
    sameSlots (xs.map .single) (ys.map .single) = sameAll xs ys := by
  induction xs generalizing ys with
  | nil => cases ys <;> rfl
  | cons x xs ih =>
    cases ys with
    | nil => rfl
    | cons y ys => simp [ih]

/-- Over slots that hold one shape each, the variables are those of the shapes. -/
theorem varOccurrencesSlots_map_single (xs : List Shape) :
    varOccurrencesSlots (xs.map .single) = varOccurrencesAll xs := by
  induction xs with
  | nil => rfl
  | cons x xs ih => simp [ih]

/-- An applied shape has the variables of its slots if its origin has none. -/
theorem varOccurrences_applied (kind : OriginKind) (name : Text) (slots : List Slot) :
    (applied (.plain kind name) slots).varOccurrences = varOccurrencesSlots slots := by
  rw [varOccurrences]
  simp

/-- An expression that is rebuilt from a shape: its shape is the same, and it has the same
variables. -/
structure Rebuilt (x : Shape) (t : TypeExpr) : Prop where
  build : build [] false x = .ok t
  same : x.same t.shape = true
  vars : t.varOccurrences = x.varOccurrences

/-- If every shape of a list has an expression, they have a list of expressions. -/
theorem rebuilt_all {xs : List Shape} (h : ∀ x ∈ xs, ∃ t, x.Rebuilt t) :
    ∃ ts : List TypeExpr, buildAll [] false xs = .ok ts ∧
      sameAll xs (ts.map TypeExpr.shape) = true ∧
      TypeExpr.varOccurrencesAll ts = varOccurrencesAll xs := by
  induction xs with
  | nil => exact ⟨[], by simp [buildAll], rfl, rfl⟩
  | cons x xs ih =>
    obtain ⟨⟨t, ht⟩, hxs⟩ := List.forall_mem_cons.1 h
    obtain ⟨ts, hts, hsame, hvars⟩ := ih hxs
    -- Lists are built, compared and searched for variables one by one.
    refine ⟨t :: ts, ?_, by simp [ht.same, hsame], ?_⟩
    · rw [buildAll, ht.build, hts]
      rfl
    · rw [TypeExpr.varOccurrencesAll, varOccurrencesAll, ht.vars, hvars]

/-- Every regular shape has an expression. -/
theorem exists_rebuilt {x : Shape} (h : x.Regular) : ∃ t, x.Rebuilt t := by
  -- By induction on the shape.  Each case builds the constructor over the expressions of the parts;
  -- sameness is compared slot by slot.
  induction h with
  | any => exact ⟨.any, rfl, by decide, rfl⟩
  | @leaf name hany hcallable =>
    refine ⟨.con name, rfl, ?_, rfl⟩
    rw [TypeExpr.shape_con hany hcallable]
    exact same_refl _
  | ofVar v => exact ⟨v.toExpr, rfl, same_refl _, rfl⟩
  | anyCallable => exact ⟨.con Name.callable, rfl, by decide, rfl⟩
  | anyType => exact ⟨.typeOf .omitted, rfl, by decide, rfl⟩
  | @ofClass name args hne _ ih =>
    obtain ⟨ts, hts, hsame, hvars⟩ := rebuilt_all ih
    have hargs : args.isEmpty = false := by simpa using hne
    refine ⟨.app name ts, ?_, ?_, ?_⟩
    · rw [build_ofClass _ _ _ hne, hts]
      rfl
    · cases ts with
      -- The shape has arguments, so the expressions are not none.
      | nil => cases args <;> simp at hsame hne
      | cons t ts =>
        rw [TypeExpr.shape_app, ofClass, ofClass, hargs]
        show ((Origin.plain .nominal name).same _ && sameSlots _ _) = true
        rw [sameSlots_map_single, hsame, Origin.same_refl]
        rfl
    · rw [ofClass, hargs, TypeExpr.varOccurrences, if_neg Bool.false_ne_true,
        varOccurrences_applied, varOccurrencesSlots_map_single, hvars]
  | unionOf _ ih =>
    obtain ⟨ts, hts, hsame, hvars⟩ := rebuilt_all ih
    refine ⟨.union ts false, ?_, ?_, ?_⟩
    · rw [build_unionOf, hts]
      rfl
    · rw [TypeExpr.shape_union, unionOf, unionOf, same, sameSlots_map_single, hsame]
      rfl
    · rw [unionOf, TypeExpr.varOccurrences, varOccurrences_applied,
        varOccurrencesSlots_map_single, hvars]
  | @optionalOf x _ ih =>
    obtain ⟨t, ht⟩ := ih
    obtain ⟨optional, hbuild⟩ := exists_build_optionalOf ht.build
    refine ⟨_, hbuild, ?_, ?_⟩
    · -- The spelling of a union does not count.
      have hleaf : (leaf Name.nil).same TypeExpr.nil.shape = true := by decide
      have hshape : (TypeExpr.union [t, .nil] optional).shape =
          applied (.plain .union (if optional then Name.optional else Name.union))
            [.single t.shape, .single TypeExpr.nil.shape] := rfl
      rw [hshape, optionalOf, same, sameSlots, sameSlots, ht.same, hleaf]
      rfl
    · show t.varOccurrences ++ [] = varOccurrencesSlots [.single x, .single (leaf Name.nil)]
      rw [ht.vars]
      rfl
  | callableOf _ _ ih₁ ih₂ =>
    obtain ⟨ts, hts, hsame, hvars⟩ := rebuilt_all ih₁
    obtain ⟨t, ht⟩ := ih₂
    refine ⟨.callable ts t false, ?_, ?_, ?_⟩
    · rw [build_callableOf, ht.build, hts]
      rfl
    · rw [TypeExpr.shape_callable]
      simp [callableOf, callableOrigin, Origin.same, hsame, ht.same]
    · rw [callableOf, callableOrigin, varOccurrences_applied, TypeExpr.varOccurrences, hvars,
        ht.vars]
      simp
  | variadicOf _ ih =>
    obtain ⟨t, ht⟩ := ih
    refine ⟨.callable [] t true, ?_, ?_, ?_⟩
    · rw [build_variadicOf, ht.build]
      rfl
    · rw [TypeExpr.shape_variadic]
      simp [variadicOf, callableOrigin, Origin.same, ht.same, any]
    · rw [variadicOf, callableOrigin, varOccurrences_applied, TypeExpr.varOccurrences, ht.vars]
      simp [any]
  | typeOf h ih =>
    obtain ⟨t, ht⟩ := ih
    have homitted := h.isOmitted_build (s := []) (fun v _ => by simp) ht.build
    refine ⟨.typeOf t, ?_, ?_, ?_⟩
    · rw [build_typeOf, ht.build]
      rfl
    · rw [TypeExpr.shape_typeOf homitted]
      simp [typeOf, typeOfOrigin, Origin.same, ht.same]
    · rw [typeOf, typeOfOrigin, varOccurrences_applied, TypeExpr.varOccurrences, ht.vars]
      simp

/-- The expression of a regular shape. -/
theorem Regular.expression {x : Shape} (h : x.Regular) : ∃ t, x.expression = .ok t ∧
    x.same t.shape = true ∧ t.varOccurrences = x.varOccurrences := by
  obtain ⟨t, ht⟩ := exists_rebuilt h
  refine ⟨t, ?_, ht.same, ht.vars⟩
  rw [Shape.expression, ht.build]

end Shape

/-! ## Literal types -/

/-- The classes of literal values as a type, each class once. -/
def literalClasses (values : List Literal) : TypeExpr :=
  match distinctNames (values.map Literal.className) with
  | [] => .nil
  | [name] => .con name
  | names => .union (names.map .con) false

namespace TypeExpr

/-- The expression of the shape of a literal type names the classes of its values. -/
theorem build_literalShape (s : Subst) (strict : Bool) (values : List Literal) :
    Shape.build s strict (literalShape values) = .ok (literalClasses values) := by
  unfold literalShape literalClasses
  generalize distinctNames (values.map Literal.className) = names
  match names with
  | [] => rfl
  | [_] => rfl
  | first :: second :: rest =>
    show Shape.build s strict (Shape.unionOf ((first :: second :: rest).map .leaf)) = _
    rw [Shape.build_unionOf, buildAll_leaf]
    rfl

/-- The expression of the classes of literal values has the shape of the literal type. -/
theorem shape_literalClasses (values : List Literal) :
    (literalClasses values).shape = literalShape values := by
  have hleaf : ∀ name ∈ distinctNames (values.map Literal.className),
      (con name).shape = .leaf name := by
    intro name h
    obtain ⟨v, -, rfl⟩ := List.mem_map.1 (mem_of_mem_distinctNames h)
    exact shape_con v.className_ne.1 v.className_ne.2
  -- One class stands for itself, and several make a union, in the expression as in the shape.
  unfold literalClasses literalShape
  generalize distinctNames (values.map Literal.className) = names at hleaf ⊢
  match names with
  | [] => rfl
  | [name] => exact hleaf name List.mem_cons_self
  | first :: second :: rest =>
    show (union ((first :: second :: rest).map con) false).shape =
      Shape.unionOf ((first :: second :: rest).map .leaf)
    rw [shape_union, List.map_map]
    exact congrArg Shape.unionOf (List.map_congr_left hleaf)

end TypeExpr

end TypeShape
