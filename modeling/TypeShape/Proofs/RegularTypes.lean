import TypeShape.Proofs.GroundShapes
import TypeShape.Proofs.SoundReading

/-!
# Regular types

Of the trees that type expressions can be, readers make the regular ones: classes are applied to at
least one argument, nothing is omitted except the operand of a bare `Type`, a callable with an
ellipsis has no parameters, and `Optional` stands for one type besides `Nil`.  Names that are
aliases may stand for other trees.  The shape of a regular type is regular as well: one of a few
forms, each with the slots that belong to its origin.

## Key results

- `Registry.regular_of_parse`: what is read without aliases is regular
- `TypeExpr.Regular.shape`: the shape of a regular type is regular
- `Shape.Regular.tidy`: in regular shapes, the wildcard and variables have no slots
-/

namespace TypeShape

/-- The types that readers make. -/
inductive TypeExpr.Regular : TypeExpr → Prop where
  | con (name : Text) : Regular (.con name)
  | app {head : Text} {args : List TypeExpr} : args ≠ [] → (∀ a ∈ args, Regular a) →
    Regular (.app head args)
  | var (name : Text) (bound : TypeExpr) (constraints : List TypeExpr) :
    Regular (.var name bound constraints)
  | union {members : List TypeExpr} : (∀ t ∈ members, Regular t) → Regular (.union members false)
  | optional {t : TypeExpr} : Regular t → Regular (.optionalOf t)
  | callable {params : List TypeExpr} {result : TypeExpr} : (∀ t ∈ params, Regular t) →
    Regular result → Regular (.callable params result false)
  | variadic {result : TypeExpr} : Regular result → Regular (.callable [] result true)
  | bareType : Regular (.typeOf .omitted)
  | typeOf {operand : TypeExpr} : Regular operand → Regular (.typeOf operand)
  | annotated {inner : TypeExpr} {metadata : List Text} : Regular inner →
    Regular (.annotated inner metadata)
  | literal (values : List Literal) : Regular (.literal values)

/-- A regular type is not omitted. -/
theorem TypeExpr.Regular.isOmitted {t : TypeExpr} (h : t.Regular) : t.isOmitted = false := by
  cases h <;> rfl

/-! ## What is read is regular -/

/-- What a phrase denotes is regular. -/
def Phrase.Regular : Phrase → Prop
  | .union t => t.Regular
  | .alternatives ts => ∀ t ∈ ts, t.Regular
  | .term t => t.Regular
  | .arguments ts => ∀ t ∈ ts, t.Regular
  | .sequence ts => ∀ t ∈ ts, t.Regular
  | .parameters ts => ∀ t ∈ ts, t.Regular
  | .callable t => t.Regular
  | .metadata _ => True
  | .literals _ => True

namespace Registry

variable {r : Registry}

/-- Without aliases, a name that can be read is that of a class or of a variable. -/
theorem regular_lookup (haliases : r.aliases = []) {n : Text} {t : TypeExpr}
    (h : r.lookup n = some t) : t.Regular := by
  -- The wildcard, a class and a variable come before the aliases, and there are none of these.
  unfold lookup at h
  split at h
  · cases h
    exact .con _
  split at h
  · cases h
    exact .con n
  split at h
  · cases h
    exact .var _ _ _
  · rw [alias?, haliases] at h
    cases h

/-- Everything that the grammar makes of words is regular. -/
theorem regular_of_produces (haliases : r.aliases = []) {phrase : Phrase} {ss : List Symbol}
    (h : Produces r.lookup phrase ss) : phrase.Regular := by
  -- By induction on the derivation, one case for each production.
  induction h with
  | single _ ih => exact ih
  | several _ _ _ ih₁ ih₂ => exact .union (List.forall_mem_cons.2 ⟨ih₁, ih₂⟩)
  | noAlternative => exact fun t ht => absurd ht List.not_mem_nil
  | alternative _ _ ih₁ ih₂ => exact List.forall_mem_cons.2 ⟨ih₁, ih₂⟩
  | any => exact .con _
  | none => exact .con _
  | nil => exact .con _
  | optional _ ih => exact .optional ih
  | unionOfOne _ ih => exact ih _ (List.mem_singleton_self _)
  | unionOfMore _ _ ih => exact .union ih
  | bareCallable => exact .con _
  | callable _ ih => exact ih
  | bareType => exact .bareType
  | typeOf _ ih => exact .typeOf ih
  | annotated _ _ ih _ => exact .annotated ih
  | literal _ _ => exact .literal _
  | plain _ hresolved => exact regular_lookup haliases hresolved
  | applied _ _ hargs ih =>
    refine .app ?_ ih
    rintro rfl
    exact TypeExpr.not_produces_arguments_nil hargs
  | arguments _ ih => exact ih
  | lastOf _ ih => exact fun t ht => List.mem_singleton.1 ht ▸ ih
  | more _ _ ih₁ ih₂ => exact List.forall_mem_cons.2 ⟨ih₁, ih₂⟩
  | noParameter => exact fun t ht => absurd ht List.not_mem_nil
  | parameters _ ih => exact ih
  | parametersComma _ ih => exact ih
  | anyParameters _ ih => exact .variadic ih
  | withParameters _ _ ih₁ ih₂ => exact .callable ih₁ ih₂
  | noMetadata => trivial
  | metadata _ _ _ => trivial
  | lastLiteral _ => trivial
  | moreLiterals _ _ _ => trivial

/-- What is read without aliases is regular. -/
theorem regular_of_parse (haliases : r.aliases = []) {source : Text} {t : TypeExpr}
    (h : r.parse source = .ok t) : t.Regular := by
  obtain ⟨ss, -, hproduces⟩ := produces_of_parse h
  exact regular_of_produces haliases hproduces

end Registry

/-! ## The shapes of regular types -/

namespace TypeExpr

/-- A class without arguments has a bare shape, apart from the two with shapes of their own. -/
theorem shape_con {name : Text} (hany : name ≠ Name.any) (hcallable : name ≠ Name.callable) :
    (con name).shape = .leaf name := by
  rw [shape, if_neg hany, if_neg hcallable]

/-- The shape of a class applied to arguments. -/
theorem shape_app (head : Text) (args : List TypeExpr) :
    (app head args).shape = .ofClass head (args.map shape) := by
  rw [shape, shapes_eq_map]

/-- The shape of a plain union. -/
theorem shape_union (members : List TypeExpr) :
    (union members false).shape = .unionOf (members.map shape) := by
  rw [shape, shapes_eq_map]
  rfl

/-- The shape of a function. -/
theorem shape_callable (params : List TypeExpr) (result : TypeExpr) :
    (callable params result false).shape = .callableOf (params.map shape) result.shape := by
  rw [shape, shapes_eq_map]
  rfl

/-- The shape of a function of any parameters, whose parameters do not count. -/
theorem shape_variadic (params : List TypeExpr) (result : TypeExpr) :
    (callable params result true).shape = .variadicOf result.shape := rfl

/-- The shape of a type of types whose operand is there. -/
theorem shape_typeOf {operand : TypeExpr} (h : operand.isOmitted = false) :
    (typeOf operand).shape = .typeOf operand.shape := by
  rw [shape, h]
  rfl

end TypeExpr

/-- The forms that the shapes of regular types have. -/
inductive Shape.Regular : Shape → Prop where
  | any : Regular .any
  | leaf {name : Text} : name ≠ Name.any → name ≠ Name.callable → Regular (.leaf name)
  | ofVar (decl : TypeVar) : Regular (.ofVar decl)
  | anyCallable : Regular .anyCallable
  | anyType : Regular .anyType
  | ofClass {name : Text} {args : List Shape} : args ≠ [] → (∀ a ∈ args, Regular a) →
    Regular (.ofClass name args)
  | unionOf {branches : List Shape} : (∀ b ∈ branches, Regular b) → Regular (.unionOf branches)
  | optionalOf {s : Shape} : Regular s → Regular (.optionalOf s)
  | callableOf {params : List Shape} {result : Shape} : (∀ p ∈ params, Regular p) →
    Regular result → Regular (.callableOf params result)
  | variadicOf {result : Shape} : Regular result → Regular (.variadicOf result)
  | typeOf {s : Shape} : Regular s → Regular (.typeOf s)

/-- Leaving out repetitions adds no name. -/
theorem mem_of_mem_distinctNames {names : List Text} {name : Text}
    (h : name ∈ distinctNames names) : name ∈ names := by
  induction names with
  | nil => exact h
  | cons n ns ih =>
    obtain rfl | h := List.mem_cons.1 h
    · exact List.mem_cons_self
    · exact List.mem_cons_of_mem _ (ih (List.mem_filter.1 h).1)

/-- The class of a literal value has no shape of its own. -/
theorem Literal.className_ne (v : Literal) :
    v.className ≠ Name.any ∧ v.className ≠ Name.callable := by
  cases v <;> simp only [className] <;> decide

/-- The shape of a literal type is regular. -/
theorem Shape.Regular.literalShape (values : List Literal) : (literalShape values).Regular := by
  have hleaf : ∀ name ∈ distinctNames (values.map Literal.className),
      (Shape.leaf name).Regular := by
    intro name h
    obtain ⟨v, -, rfl⟩ := List.mem_map.1 (mem_of_mem_distinctNames h)
    exact .leaf v.className_ne.1 v.className_ne.2
  -- No class, one class, or a union of several.
  unfold TypeShape.literalShape
  split
  · exact .leaf (by decide) (by decide)
  · rename_i name h
    exact hleaf name (by simp [h])
  · refine .unionOf fun s hs => ?_
    obtain ⟨name, hname, rfl⟩ := List.mem_map.1 hs
    exact hleaf name hname

/-- The shape of a regular type is regular. -/
theorem TypeExpr.Regular.shape {t : TypeExpr} (h : t.Regular) : t.shape.Regular := by
  -- By induction on the type; each form of a type has its form of shape.
  induction h with
  | con name =>
    unfold TypeExpr.shape
    split
    · exact .any
    split
    · exact .anyCallable
    · rename_i hany hcallable
      exact .leaf hany hcallable
  | app hne _ ih =>
    rw [shape_app]
    exact .ofClass (by simpa using hne) (List.forall_mem_map.2 ih)
  | var name bound constraints => exact .ofVar _
  | union _ ih =>
    rw [shape_union]
    exact .unionOf (List.forall_mem_map.2 ih)
  | optional _ ih => exact .optionalOf ih
  | callable _ _ ih₁ ih₂ =>
    rw [shape_callable]
    exact .callableOf (List.forall_mem_map.2 ih₁) ih₂
  | variadic _ ih => exact .variadicOf ih
  | bareType => exact .anyType
  | typeOf h ih =>
    rw [shape_typeOf h.isOmitted]
    exact .typeOf ih
  | annotated _ ih => exact ih
  | literal values => exact .literalShape values

/-! ## Tidy shapes -/

namespace Shape

/-- Shapes without holes in which the wildcard and variables have no slots, and every union has. -/
inductive Tidy : Shape → Prop where
  | any : Tidy .any
  | ofVar (v : TypeVar) : Tidy (.ofVar v)
  | bare {kind : OriginKind} (name : Text) : kind ≠ .any → kind ≠ .union →
    Tidy (.bare (.plain kind name))
  | applied {kind : OriginKind} (name : Text) {slots : List Slot} : kind ≠ .any →
    (∀ x ∈ slotShapes slots, Tidy x) → Tidy (.applied (.plain kind name) slots)

/-- Regular shapes are tidy. -/
theorem Regular.tidy {s : Shape} (h : s.Regular) : s.Tidy := by
  -- Each form of a regular shape is bare, a variable, or has slots whose shapes are tidy.
  induction h with
  | any => exact .any
  | leaf _ _ => exact .bare _ nofun nofun
  | ofVar v => exact .ofVar v
  | anyCallable => exact .bare _ nofun nofun
  | anyType => exact .bare _ nofun nofun
  | @ofClass name args hne _ ih =>
    have hargs : args.isEmpty = false := by simpa using hne
    rw [Shape.ofClass, hargs]
    exact .applied _ nofun (by rwa [slotShapes_map_single])
  | unionOf _ ih => exact .applied _ nofun (by rwa [slotShapes_map_single])
  | optionalOf _ ih =>
    have hnil : (Shape.leaf Name.nil).Tidy := .bare _ nofun nofun
    exact .applied _ nofun (List.forall_mem_cons.2 ⟨ih, List.forall_mem_singleton.2 hnil⟩)
  | callableOf _ _ ih₁ ih₂ =>
    exact .applied _ nofun (List.forall_mem_append.2 ⟨ih₁, List.forall_mem_singleton.2 ih₂⟩)
  | variadicOf _ ih =>
    exact .applied _ nofun (List.forall_mem_cons.2 ⟨.any, List.forall_mem_singleton.2 ih⟩)
  | typeOf _ ih => exact .applied _ nofun (List.forall_mem_singleton.2 ih)

/-- A tidy shape with the origin of the wildcard is the wildcard. -/
theorem Tidy.eq_any {s : Shape} (h : s.Tidy) (hany : s.isAny = true) : s = .any := by
  cases h with
  | any => rfl
  | ofVar v => cases hany
  | bare name hkind _ =>
    exact absurd (by simpa [isAny, hasKind] using hany) hkind
  | applied name hkind _ =>
    exact absurd (by simpa [isAny, hasKind] using hany) hkind

/-- The shapes in the slots of a regular shape are regular. -/
theorem Regular.of_mem_slotShapes {s b : Shape} (h : s.Regular) (hb : b ∈ slotShapes s.slots) :
    b.Regular := by
  -- Bare shapes have no slots; those of the others are what they were built from.
  cases h with
  | any => exact absurd hb List.not_mem_nil
  | leaf _ _ => exact absurd hb List.not_mem_nil
  | ofVar v => exact absurd hb List.not_mem_nil
  | anyCallable => exact absurd hb List.not_mem_nil
  | anyType => exact absurd hb List.not_mem_nil
  | @ofClass name args hne hargs =>
    have hargs' : args.isEmpty = false := by simpa using hne
    rw [Shape.ofClass, hargs', if_neg Bool.false_ne_true, slots, slotShapes_map_single] at hb
    exact hargs b hb
  | unionOf hbranches =>
    rw [Shape.unionOf, slots, slotShapes_map_single] at hb
    exact hbranches b hb
  | optionalOf hs =>
    have hnil : (Shape.leaf Name.nil).Regular := .leaf (by decide) (by decide)
    exact List.forall_mem_cons.2 ⟨hs, List.forall_mem_singleton.2 hnil⟩ b hb
  | callableOf hparams hresult =>
    exact List.forall_mem_append.2 ⟨hparams, List.forall_mem_singleton.2 hresult⟩ b hb
  | variadicOf hresult =>
    exact List.forall_mem_cons.2 ⟨.any, List.forall_mem_singleton.2 hresult⟩ b hb
  | typeOf hs => exact List.forall_mem_singleton.2 hs b hb

end Shape

end TypeShape
