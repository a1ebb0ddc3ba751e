import TypeShape.Proofs.RepeatedDeclarations

/-!
# The classes of imported packages

The types of packages refer to each other and to types that are not imported.  What an import makes
of them is closed: a reference is converted into the class of an imported type, into a builtin class
or into `Any`, and a type parameter into the variable of the parameter of the same index.

## Key results

- `Importer.scoped_typeExpr`: the expression of a type mentions nothing but imported and builtin
  classes and the variables at hand
- `Importer.scoped_classOf`: so does the class of an imported type, whose variables are its own
- `Packages.declares_declareAll`: an import declares the imported types bare and then filled in
-/

namespace TypeShape

open Declaring Registry

/-- The classes that an expression mentions have a property, and so have its variables.  What the
declaration of a variable mentions counts as well. -/
inductive TypeExpr.Scoped (K V : Text → Prop) : TypeExpr → Prop where
  | omitted : Scoped K V .omitted
  | con {name : Text} : K name → Scoped K V (.con name)
  | app {head : Text} {args : List TypeExpr} : K head → (∀ t ∈ args, Scoped K V t) →
    Scoped K V (.app head args)
  | var {name : Text} {bound : TypeExpr} {constraints : List TypeExpr} : V name →
    Scoped K V bound → (∀ t ∈ constraints, Scoped K V t) → Scoped K V (.var name bound constraints)
  | union {members : List TypeExpr} {optional : Bool} : (∀ t ∈ members, Scoped K V t) →
    Scoped K V (.union members optional)
  | callable {params : List TypeExpr} {result : TypeExpr} {ellipsis : Bool} :
    (∀ t ∈ params, Scoped K V t) → Scoped K V result → Scoped K V (.callable params result ellipsis)
  | typeOf {operand : TypeExpr} : Scoped K V operand → Scoped K V (.typeOf operand)
  | annotated {inner : TypeExpr} {metadata : List Text} : Scoped K V inner →
    Scoped K V (.annotated inner metadata)
  | literal {values : List Literal} : Scoped K V (.literal values)

/-- A name is `Any` or that of a class. -/
def Registry.HasType (r : Registry) (n : Text) : Prop :=
  n = Name.any ∨ (r.class? n).isSome = true

/-- What the bases, the members and the type parameters of a class mention has a property. -/
structure Class.Scoped (K V : Text → Prop) (c : Class) : Prop where
  bases : ∀ base ∈ c.bases, base.Scoped K V
  members : ∀ m ∈ c.members, m.type.Scoped K V
  params : ∀ p ∈ c.params, p.toExpr.Scoped K V

namespace TypeExpr

variable {K V : Text → Prop}

/-- A class applied to arguments mentions the class and what the arguments mention. -/
theorem Scoped.generic {name : Text} {args : List TypeExpr} (hname : K name)
    (hargs : ∀ t ∈ args, Scoped K V t) : (TypeExpr.generic name args).Scoped K V := by
  unfold TypeExpr.generic
  split
  · exact .con hname
  · exact .app hname hargs

end TypeExpr

namespace Importer

variable {imp : Importer} {K V : Text → Prop} {vars : List TypeVar}

/-- The classes that an import may refer to have a property: `Any`, the builtin ones and those of the
imported types. -/
structure Knows (imp : Importer) (K : Text → Prop) : Prop where
  any : K Name.any
  builtin : ∀ n ∈ Name.builtins, K n
  imported : ∀ i ∈ imp.imported, K i.className

/-- A predeclared type has a builtin class or none. -/
theorem scoped_basicClass (h : imp.Knows K) (name : Text) : (basicClass name).Scoped K V := by
  unfold basicClass
  dsimp only
  repeat' split
  · exact .con (h.builtin _ (by decide))
  · exact .con (h.builtin _ (by decide))
  · exact .con (h.builtin _ (by decide))
  · exact .con (h.builtin _ (by decide))
  · exact .con h.any

mutual

/-- The expression of a type mentions nothing but the classes that the import may refer to and the
variables at hand. -/
theorem scoped_typeExpr (h : imp.Knows K) (hvars : ∀ v ∈ vars, v.toExpr.Scoped K V) (room : Nat)
    (t : ResolvedType) : (imp.typeExpr vars room t).Scoped K V := by
  have hany : TypeExpr.any.Scoped K V := .con h.any
  -- By the shape of the type; every level of it spends room, and without room there is `Any`.
  match t with
  | .named head args =>
    unfold typeExpr
    split
    · exact hany
    cases head with
    | basic name => exact scoped_basicClass h name
    | defined path name =>
      dsimp only
      cases hfind : imp.find? path name with
      | none => exact hany
      | some i =>
        exact .generic (h.imported i (List.mem_of_find?_eq_some hfind))
          (scoped_typeExprs h hvars (room - 1) args)
    | param i =>
      dsimp only
      cases hi : vars[i]? with
      | none => exact hany
      | some v => exact hvars v (List.mem_of_getElem? hi)
    | error => exact hany
    | comparable => exact hany
  | .aliased _ target =>
    unfold typeExpr
    split
    · exact scoped_typeExpr h hvars room target
    split
    · exact hany
    · exact scoped_typeExpr h hvars (room - 1) target
  | .pointer target =>
    unfold typeExpr
    split
    · exact hany
    · exact scoped_typeExpr h hvars (room - 1) target
  | .slice elem =>
    unfold typeExpr
    split
    · exact hany
    split
    · exact .con (h.builtin _ (by decide))
    · exact .generic (h.builtin _ (by decide))
        (List.forall_mem_singleton.2 (scoped_typeExpr h hvars (room - 1) elem))
  | .array _ elem =>
    unfold typeExpr
    split
    · exact hany
    · exact .generic (h.builtin _ (by decide))
        (List.forall_mem_singleton.2 (scoped_typeExpr h hvars (room - 1) elem))
  | .map key value =>
    unfold typeExpr
    split
    · exact hany
    · have hkey := scoped_typeExpr h hvars (room - 1) key
      have hvalue := scoped_typeExpr h hvars (room - 1) value
      exact .generic (h.builtin _ (by decide))
        (List.forall_mem_cons.2 ⟨hkey, List.forall_mem_singleton.2 hvalue⟩)
  | .func params results _ =>
    unfold typeExpr
    split
    · exact hany
    have hresults := scoped_typeExprs h hvars (room - 1) results
    refine .callable (scoped_typeExprs h hvars (room - 1) params) ?_
    split
    · exact .con (h.builtin _ (by decide))
    · rename_i t heq
      exact hresults t (by rw [heq]; exact List.mem_singleton_self t)
    · exact .generic (h.builtin _ (by decide)) hresults
  | .channel _ _ =>
    unfold typeExpr
    exact hany
  | .struct _ _ =>
    unfold typeExpr
    exact hany
  | .interface _ _ _ =>
    unfold typeExpr
    exact hany

/-- So do the expressions of a list of types. -/
theorem scoped_typeExprs (h : imp.Knows K) (hvars : ∀ v ∈ vars, v.toExpr.Scoped K V) (room : Nat)
    (ts : List ResolvedType) : ∀ t ∈ imp.typeExprs vars room ts, t.Scoped K V := by
  match ts with
  | [] =>
    unfold typeExprs
    nofun
  | t :: ts =>
    unfold typeExprs
    exact List.forall_mem_cons.2
      ⟨scoped_typeExpr h hvars room t, scoped_typeExprs h hvars room ts⟩

end

/-- So does the expression of a type at full depth. -/
theorem scoped_exprOf (h : imp.Knows K) (hvars : ∀ v ∈ vars, v.toExpr.Scoped K V)
    (t : ResolvedType) : (imp.exprOf vars t).Scoped K V :=
  scoped_typeExpr h hvars _ t

/-! ## Type parameters -/

/-- The terms collected are those at hand and new ones. -/
theorem mem_foldl_addTerm {terms ts : List TypeExpr} {t : TypeExpr}
    (h : t ∈ ts.foldl addTerm terms) : t ∈ terms ∨ t ∈ ts := by
  -- By induction on the terms that are added, for those that are there already.
  induction ts generalizing terms with
  | nil => exact .inl h
  | cons u us ih =>
    obtain hterms | hus := ih h
    · unfold addTerm at hterms
      split at hterms
      · exact .inl hterms
      · obtain hterms | hu := List.mem_append.1 hterms
        · exact .inl hterms
        · exact .inr (List.mem_cons.2 (.inl (List.mem_singleton.1 hu)))
    · exact .inr (List.mem_cons_of_mem _ hus)

/-- Restricting a variable keeps its name. -/
theorem name_constrain (v : TypeVar) (constraint : ResolvedType) :
    (imp.constrain vars v constraint).name = v.name := by
  unfold constrain
  split <;> rfl

/-- A restricted variable mentions no more than before and what its constraint names. -/
theorem scoped_constrain (h : imp.Knows K) (hvars : ∀ v ∈ vars, v.toExpr.Scoped K V)
    {v : TypeVar} (hv : v.toExpr.Scoped K V) (constraint : ResolvedType) :
    (imp.constrain vars v constraint).toExpr.Scoped K V := by
  -- The alternatives are expressions of the import, and adding drops some of them.
  have hterms : ∀ t ∈ ((imp.alternativesOf constraint).map (imp.exprOf vars)).foldl addTerm [],
      t.Scoped K V := by
    intro t ht
    obtain hnil | ht := mem_foldl_addTerm ht
    · cases hnil
    · obtain ⟨u, -, rfl⟩ := List.mem_map.1 ht
      exact scoped_exprOf h hvars u
  cases hv with
  | var hname hbound hconstraints =>
    unfold constrain
    split
    · exact .var hname hbound hconstraints
    · rename_i t heq
      rw [heq] at hterms
      exact .var hname (hterms t List.mem_cons_self) hconstraints
    · exact .var hname hbound hterms

/-- Restricting variables one by one keeps their names. -/
theorem names_constrainFrom (scope : TypeScope) (n : Nat) (cs : List (Option WrittenType))
    (vars : List TypeVar) :
    (imp.constrainFrom scope n cs vars).map (·.name) = vars.map (·.name) := by
  induction cs generalizing n vars with
  | nil => rfl
  | cons c cs ih =>
    unfold constrainFrom
    split
    · rename_i c v hv
      -- The variable that is set stands at the index of the one it replaces.
      have hname : (vars.map (·.name))[n]? = some v.name := by
        rw [List.getElem?_map, hv]
        rfl
      obtain ⟨hn, hname⟩ := List.getElem?_eq_some_iff.1 hname
      rw [ih, List.map_set, name_constrain, ← hname, List.set_getElem_self]
    · exact ih _ _

/-- Restricting variables one by one keeps them closed. -/
theorem scoped_constrainFrom (h : imp.Knows K) (scope : TypeScope) (n : Nat)
    (cs : List (Option WrittenType)) {vars : List TypeVar}
    (hvars : ∀ v ∈ vars, v.toExpr.Scoped K V) :
    ∀ v ∈ imp.constrainFrom scope n cs vars, v.toExpr.Scoped K V := by
  induction cs generalizing n vars with
  | nil => exact hvars
  | cons c cs ih =>
    unfold constrainFrom
    split
    · rename_i c v hv
      refine ih (n + 1) fun w hw => ?_
      -- The variable at hand is the only one that changes.
      obtain hw | rfl := List.mem_or_eq_of_mem_set hw
      · exact hvars w hw
      · exact scoped_constrain h hvars (hvars v (List.mem_of_getElem? hv)) _
    · exact ih (n + 1) hvars

/-- The type parameters of a class are named after the class. -/
@[simp] theorem names_paramsOf (i : Imported) : (imp.paramsOf i).map (·.name) =
    i.declaration.params.map fun p => i.className ++ text "." ++ p.1 := by
  unfold paramsOf
  rw [names_constrainFrom, List.map_map]
  rfl

/-- The type parameters of an imported type mention no variables but each other. -/
theorem scoped_paramsOf (h : imp.Knows K) (i : Imported) :
    ∀ v ∈ imp.paramsOf i, v.toExpr.Scoped K (· ∈ (imp.paramsOf i).map (·.name)) := by
  rw [names_paramsOf]
  refine scoped_constrainFrom h _ _ _ fun v hv => ?_
  obtain ⟨p, hp, rfl⟩ := List.mem_map.1 hv
  exact .var (List.mem_map_of_mem hp) .omitted nofun

/-! ## Classes -/

/-- A base mentions nothing but what its expression does. -/
theorem scoped_baseOf? (h : imp.Knows K) (hvars : ∀ v ∈ vars, v.toExpr.Scoped K V)
    {t : ResolvedType} {base : TypeExpr} (hbase : imp.baseOf? vars t = some base) :
    base.Scoped K V := by
  unfold baseOf? at hbase
  dsimp only at hbase
  split at hbase
  · split at hbase
    · cases hbase
      exact scoped_exprOf h hvars _
    · cases hbase
  · cases hbase

/-- The bases and members that come from fields mention nothing else either. -/
theorem scoped_fieldParts (h : imp.Knows K) (hvars : ∀ v ∈ vars, v.toExpr.Scoped K V)
    (fields : List (Option Text × ResolvedType)) :
    (∀ base ∈ (imp.fieldParts vars fields).1, base.Scoped K V) ∧
      ∀ m ∈ (imp.fieldParts vars fields).2, m.type.Scoped K V := by
  -- By induction on the fields; an embedded one gives a base, a named one a member.
  induction fields with
  | nil => exact ⟨nofun, nofun⟩
  | cons field rest ih =>
    obtain ⟨name, t⟩ := field
    obtain ⟨hbases, hmembers⟩ := ih
    unfold fieldParts
    dsimp only
    split
    · rename_i base hbase
      refine ⟨List.forall_mem_cons.2 ⟨?_, hbases⟩, hmembers⟩
      split at hbase
      · exact scoped_baseOf? h hvars hbase
      · cases hbase
    · split
      · exact ⟨hbases, List.forall_mem_cons.2 ⟨scoped_exprOf h hvars t, hmembers⟩⟩
      · exact ⟨hbases, hmembers⟩

/-- Nor does the base that the underlying type gives. -/
theorem scoped_underlyingBase? (h : imp.Knows K) (hvars : ∀ v ∈ vars, v.toExpr.Scoped K V)
    {t : ResolvedType} {base : TypeExpr} (hbase : imp.underlyingBase? vars t = some base) :
    base.Scoped K V := by
  -- A base is the expression of the type itself, so it mentions no more than that.
  have hscoped := scoped_exprOf h hvars t
  unfold underlyingBase? at hbase
  split at hbase
  · rename_i name heq
    split at hbase
    · cases hbase
    · cases hbase
      rwa [heq] at hscoped
  · rename_i head args heq
    cases hbase
    rwa [heq] at hscoped
  · cases hbase

/-- Nor do the members that come from methods. -/
theorem scoped_membersOf (h : imp.Knows K) (hvars : ∀ v ∈ vars, v.toExpr.Scoped K V)
    (ms : Packages.Methods) : ∀ m ∈ imp.membersOf vars ms, m.type.Scoped K V := by
  intro m hm
  obtain ⟨⟨name, t⟩, -, rfl⟩ := List.mem_map.1 hm
  exact scoped_exprOf h hvars t

/-- A class has the type parameters of its type. -/
@[simp] theorem params_classOf (i : Imported) : (imp.classOf i).params = imp.paramsOf i := by
  unfold classOf
  dsimp only
  split <;> rfl

/-- The class of an imported type mentions nothing but the classes that the import may refer to and
its own type parameters. -/
theorem scoped_classOf (h : imp.Knows K) (i : Imported) :
    (imp.classOf i).Scoped K (· ∈ (imp.classOf i).params.map (·.name)) := by
  have hparams := scoped_paramsOf h i
  have hmembers := scoped_membersOf h hparams
  rw [params_classOf]
  -- An interface has members only, a structure bases and members of its fields, any other type at
  -- most the one base.
  unfold classOf
  dsimp only
  split
  · exact ⟨nofun, hmembers _, hparams⟩
  · obtain ⟨hbases, hfields⟩ := scoped_fieldParts h hparams _
    exact ⟨hbases, List.forall_mem_append.2 ⟨hfields, hmembers _⟩, hparams⟩
  · refine ⟨fun base hbase => ?_, hmembers _, hparams⟩
    exact scoped_underlyingBase? h hparams (Option.mem_toList.1 hbase)

/-- A type parameter has a longer name than its type. -/
theorem className_not_param (i : Imported) :
    (imp.classOf i).name ∉ (imp.classOf i).params.map (·.name) := by
  rw [params_classOf, names_paramsOf, Packages.classOf_name]
  intro hmem
  obtain ⟨p, -, hname⟩ := List.mem_map.1 hmem
  have hlength := congrArg List.length hname
  have hdot : (text ".").length = 1 := rfl
  rw [List.length_append, List.length_append, hdot] at hlength
  omega

end Importer

namespace Packages

variable {ps : Packages} {r r' : Registry}

/-- The class of an imported type before it is filled in. -/
def bareClass (ps : Packages) (i : Imported) : Class :=
  { name := i.className, kind := Importer.kindOf ⟨ps, ps.imported⟩ i }

/-- The class of an imported type. -/
def importedClass (ps : Packages) (i : Imported) : Class :=
  Importer.classOf ⟨ps, ps.imported⟩ i

/-- An import declares the imported types bare and then filled in. -/
theorem declares_declareAll (ps : Packages) : Declares ps.declareAll
    (ps.imported.map ps.bareClass ++ ps.imported.map ps.importedClass) () := by
  have hbare : Declares (ps.imported.forM fun i =>
      Importer.declaring i (Registry.declare (ps.bareClass i))) (ps.imported.map ps.bareClass) () :=
    .forM fun i _ => (Declares.declare _).within _
  have hfilled : Declares (ps.imported.forM fun i =>
      Importer.declaring i (Registry.declare (ps.importedClass i)))
      (ps.imported.map ps.importedClass) () :=
    .forM fun i _ => (Declares.declare _).within _
  exact hbare.bind hfilled

/-- No class of an import is named like one of its own parameters. -/
theorem importedClass_own {ps : Packages} :
    ∀ c ∈ ps.imported.map ps.bareClass ++ ps.imported.map ps.importedClass,
      c.name ∉ c.params.map (·.name) := by
  intro c hc
  obtain hc | hc := List.mem_append.1 hc
  · obtain ⟨i, -, rfl⟩ := List.mem_map.1 hc
    exact List.not_mem_nil
  · obtain ⟨i, -, rfl⟩ := List.mem_map.1 hc
    exact Importer.className_not_param i

/-- An import that has succeeded succeeds again and then changes nothing. -/
theorem declareAll_again (h : after ps.declareAll r = (.ok (), r')) :
    after ps.declareAll r' = (.ok (), r') :=
  ps.declares_declareAll.again importedClass_own h

/-- The imported type whose class an import leaves under the class name of a type.  Types of packages
of one name may share a class name; the last of them has it. -/
def standing (ps : Packages) (i : Imported) : Imported :=
  (ps.imported.reverse.find? (·.className == i.className)).getD i

/-- The class found under the name of an imported type is that of the last type of this name. -/
theorem class?_of_declareAll (h : after ps.declareAll r = (.ok (), r')) {i : Imported}
    (hi : i ∈ ps.imported) : ps.standing i ∈ ps.imported ∧
      (ps.standing i).className = i.className ∧
      r'.class? i.className = some (ps.importedClass (ps.standing i)) := by
  obtain ⟨j, hj⟩ : ∃ j, ps.imported.reverse.find? (·.className == i.className) = some j := by
    rw [← Option.isSome_iff_exists, List.find?_isSome]
    exact ⟨i, List.mem_reverse.2 hi, beq_self_eq_true _⟩
  have hstanding : ps.standing i = j := by rw [standing, hj, Option.getD_some]
  have hname : j.className = i.className := by simpa using List.find?_some hj
  -- Of the classes that are filled in, the one found is that of the type found.
  have hlast : (ps.imported.map ps.importedClass).reverse.find? (·.name == i.className) =
      some (ps.importedClass j) := by
    have hnames : ((·.name == i.className) : Class → Bool) ∘ ps.importedClass =
        (·.className == i.className) :=
      funext fun j => congrArg (· == i.className) (classOf_name _ j)
    rw [← List.map_reverse, List.find?_map, hnames, hj, Option.map_some]
  have hclasses := ps.declares_declareAll.classes_eq importedClass_own h
  rw [hstanding]
  refine ⟨List.mem_reverse.1 (List.mem_of_find?_eq_some hj), hname, ?_⟩
  rw [class?, hclasses, enterAll_append, find?_enterAll, hlast, Option.some_or]

/-- What the class of an imported type mentions is `Any` or a class, or one of its own type
parameters. -/
theorem closed_of_declareAll (hbuiltin : r.Knows Name.builtins)
    (h : after ps.declareAll r = (.ok (), r')) {i : Imported} (hi : i ∈ ps.imported) :
    ∃ c, r'.class? i.className = some c ∧
      c.Scoped r'.HasType (· ∈ c.params.map (·.name)) := by
  have hgrows := grows_of_path (fun _ _ => NameEntry.grows) (ps.leads_declareAll.path trivial h)
  have hknows : Importer.Knows ⟨ps, ps.imported⟩ r'.HasType := by
    refine ⟨.inl rfl, fun n hn => .inr (hgrows.classes n (hbuiltin n hn)), fun j hj => .inr ?_⟩
    rw [(class?_of_declareAll h hj).2.2]
    rfl
  exact ⟨_, (class?_of_declareAll h hi).2.2, Importer.scoped_classOf hknows _⟩

end Packages

end TypeShape
