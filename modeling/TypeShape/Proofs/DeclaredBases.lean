import TypeShape.Proofs.ReachableRegistry
import TypeShape.Proofs.SubtypeTransitive

/-!
# Classes and their declared bases

A class is matched with its base by name, and then the arguments of the two are compared position by
position.  The base may have other arguments than the class, made from the parameters of the class,
in another order or number.  The check does not look at how they are made.  So a class is below its
base if the base is bare or hands on the parameters as they come, and not in general.

## Key results

- `Registry.holds_base_iff`: when a class is below its base
- `Engine.isSubtype_base_iff`: the same for the engine
-/

namespace TypeShape

/-! ## Bases with their arguments -/

namespace TypeExpr

/-- The arguments of a class. -/
def arguments : TypeExpr → List TypeExpr
  | app _ args => args
  | _ => []

/-- Replacing variables goes into a list one by one. -/
theorem mapVarsAll_eq_map (f : TypeVar → TypeExpr) (ts : List TypeExpr) :
    mapVarsAll f ts = ts.map (mapVars f) := by
  induction ts with
  | nil => rfl
  | cons t ts ih => simp [ih]

/-- A class without arguments has no variables to replace. -/
theorem apply_con (s : Subst) (name : Text) : (con name).apply s = con name := by
  unfold apply
  cases s.length <;> simp [applyFuel]

/-- A substitution goes into the arguments of a class. -/
theorem apply_app (s : Subst) (head : Text) (args : List TypeExpr) :
    (app head args).apply s = app head (args.map (·.apply s)) := by
  unfold apply
  cases s.length with
  | zero => simp [applyFuel]
  | succ n => simp [applyFuel, mapVarsAll_eq_map]

mutual

/-- Replacing variables leaves an expression without variables as it is. -/
theorem mapVars_of_no_vars (f : TypeVar → TypeExpr) :
    ∀ t : TypeExpr, t.varOccurrences = [] → t.mapVars f = t
  | omitted, _ => rfl
  | con _, _ => rfl
  | app head args, h => by simp [mapVarsAll_of_no_vars f args h]
  -- A variable is an occurrence of itself.
  | var name bound constraints, h => by simp at h
  | union members optional, h => by simp [mapVarsAll_of_no_vars f members h]
  | callable params result ellipsis, h => by
    obtain ⟨hparams, hresult⟩ := List.append_eq_nil_iff.1 h
    simp [mapVarsAll_of_no_vars f params hparams, mapVars_of_no_vars f result hresult]
  | typeOf operand, h => by simp [mapVars_of_no_vars f operand h]
  | annotated inner metadata, h => by simp [mapVars_of_no_vars f inner h]
  | literal _, _ => rfl

/-- So does a list of expressions without variables. -/
theorem mapVarsAll_of_no_vars (f : TypeVar → TypeExpr) :
    ∀ ts : List TypeExpr, varOccurrencesAll ts = [] → mapVarsAll f ts = ts
  | [], _ => rfl
  | t :: ts, h => by
    obtain ⟨ht, hts⟩ := List.append_eq_nil_iff.1 h
    simp [mapVars_of_no_vars f t ht, mapVarsAll_of_no_vars f ts hts]

end

/-- A variable is replaced by its binding, if that has no variables. -/
theorem apply_var {s : Subst} {v : TypeVar} {t : TypeExpr} (hs : Table.find? s v.name = some t)
    (ht : t.varOccurrences = []) : v.toExpr.apply s = t := by
  -- A binding was found, so that there is fuel for following it once.
  have hlen : s.length ≠ 0 := by
    rintro hlen
    rw [List.length_eq_zero_iff.1 hlen] at hs
    cases hs
  obtain ⟨n, hn⟩ := Nat.exists_eq_succ_of_ne_zero hlen
  have hvar : t.isVarNamed v.name = false := by
    cases t with
    | var name bound constraints => simp at ht
    | _ => rfl
  simp only [apply, hn, applyFuel, TypeVar.toExpr, mapVars, hs, hvar, Bool.false_eq_true, if_false]
  -- What the binding gives has no variables, so further passes change nothing.
  cases n with
  | zero => rfl
  | succ n => exact mapVars_of_no_vars _ t ht

/-- Applying a substitution to a class leaves its name and enters its arguments. -/
theorem apply_class (s : Subst) {t : TypeExpr} {name : Text} (h : t.className? = some name) :
    (t.apply s).className? = some name ∧ (t.apply s).arguments = t.arguments.map (·.apply s) := by
  cases t with
  | con n =>
    rw [apply_con]
    exact ⟨h, rfl⟩
  | app head args =>
    rw [apply_app]
    exact ⟨h, rfl⟩
  | _ => cases h

/-- The shape of a class, if its name is not that of a constructor. -/
theorem shape_of_className? {t : TypeExpr} {name : Text} (h : t.className? = some name)
    (hname : Name.isReserved name = false) :
    t.shape = .ofClass name (t.arguments.map shape) := by
  -- The two names that have shapes of their own are reserved.
  cases t with
  | con n =>
    cases h
    have hany : name ≠ Name.any := by
      rintro rfl
      cases hname
    have hcallable : name ≠ Name.callable := by
      rintro rfl
      cases hname
    rw [shape, if_neg hany, if_neg hcallable]
    rfl
  | app head args =>
    cases h
    rw [shape, shapes_eq_map]
    rfl
  | _ => cases h

/-- A class applied to arguments has its own name. -/
theorem className?_generic (name : Text) (args : List TypeExpr) :
    (generic name args).className? = some name := by
  cases args <;> rfl

/-- The arguments that a class is applied to. -/
theorem arguments_generic (name : Text) (args : List TypeExpr) :
    (generic name args).arguments = args := by
  cases args <;> rfl

end TypeExpr

namespace Class

/-- The parameters of a class bound to arguments. -/
def binding (c : Class) (args : List TypeExpr) : Subst :=
  (c.params.map (·.name)).zip args

/-- A parameter is bound to the argument in its place. -/
theorem find?_binding {c : Class} (hnodup : (c.params.map (·.name)).Nodup) {args : List TypeExpr}
    {p : TypeVar} {a : TypeExpr} (h : (p, a) ∈ c.params.zip args) :
    Table.find? (c.binding args) p.name = some a := by
  unfold binding
  -- By induction on the parameters; their names are distinct, so the first one found is it.
  generalize c.params = params at *
  induction params generalizing args with
  | nil => cases h
  | cons q ps ih =>
    cases args with
    | nil => cases h
    | cons b bs =>
      rw [List.map_cons, List.nodup_cons] at hnodup
      rw [List.map_cons, List.zip_cons_cons, Table.find?_cons]
      obtain heq | h := List.mem_cons.1 h
      · cases heq
        rw [if_pos rfl]
      · -- A later parameter has another name.
        have hmem := List.mem_map_of_mem (f := (·.name)) (List.of_mem_zip h).1
        rw [if_neg fun heq : p.name = q.name => hnodup.1 (heq ▸ hmem)]
        exact ih hnodup.2 h

/-- Parameters that are handed on stand for the arguments. -/
theorem forall₂_apply_binding {c : Class} (hnodup : (c.params.map (·.name)).Nodup)
    {args : List TypeExpr} (hlen : args.length = c.params.length)
    (hargs : ∀ a ∈ args, a.varOccurrences = []) :
    List.Forall₂ (fun p a => p.toExpr.apply (c.binding args) = a) c.params args := by
  refine List.forall₂_iff_zip.2 ⟨hlen.symm, fun {p a} hpa => ?_⟩
  exact TypeExpr.apply_var (find?_binding hnodup hpa) (hargs a (List.of_mem_zip hpa).2)

end Class

/-! ## A class and another that it inherits from -/

namespace Shape

/-- A class has a nominal origin, with arguments or without. -/
@[simp] theorem origin_ofClass (name : Text) (args : List Shape) :
    (ofClass name args).origin = .plain .nominal name := by
  unfold ofClass
  split <;> rfl

/-- The slots of a class are its arguments. -/
theorem slots_ofClass (name : Text) (args : List Shape) :
    (ofClass name args).slots = args.map .single := by
  cases args <;> rfl

/-- A class is parameterized if it has arguments. -/
@[simp] theorem isParameterized_ofClass (name : Text) (args : List Shape) :
    (ofClass name args).isParameterized = !args.isEmpty := by
  cases args <;> rfl

/-- A class is neither hole nor union nor variable. -/
theorem isSolid_ofClass (name : Text) (args : List Shape) : (ofClass name args).isSolid = true := by
  simp [isSolid, isHole, isUnion, hasKind, var?]

/-- A class is not the wildcard. -/
@[simp] theorem isAny_ofClass (name : Text) (args : List Shape) : (ofClass name args).isAny = false := by
  simp [isAny, hasKind]

/-- Shapes of different classes are not equal. -/
theorem not_same_ofClass {m n : Text} (h : m ≠ n) (as ts : List Shape) :
    ¬ (ofClass m as).same (ofClass n ts) = true := by
  intro hsame
  have hroot := (roots_of_same hsame).1
  rw [origin_ofClass, origin_ofClass] at hroot
  simp [Origin.same, h] at hroot

/-- Slots that hold one shape each fit if the shapes are related or the wildcard takes them. -/
theorem forall₂_slotFits_map_single {sub : Shape → Shape → Prop} {as ts : List Shape} :
    List.Forall₂ (Registry.SlotFits sub) (as.map .single) (ts.map .single) ↔
      List.Forall₂ (fun a t => t.isAny = true ∨ sub a t) as ts := by
  rw [List.forall₂_map_left_iff, List.forall₂_map_right_iff]
  rfl

end Shape

namespace Registry

open Shape

variable {r : Registry} {see : View}

/-- A class inherits from its bases. -/
theorem isSubclass_of_mem_bases {c : Class} (hc : r.class? c.name = some c) {base : TypeExpr}
    (hbase : base ∈ c.bases) {super : Text} (hsuper : base.className? = some super) :
    r.isSubclass c.name super = true := by
  refine isSubclass_iff.2 (.inr (.inr (.single ?_)))
  rw [HasBase, supers, hc]
  exact List.mem_filterMap.2 ⟨base, hbase, hsuper⟩

/-- A whole shape is below itself. -/
theorem holds_refl (hsee : see.IsWhole) {s : Shape} (hs : s.isWhole = true) (n : Nat)
    (assumed : List Text) : r.Holds see (n + 1) assumed s s := by
  have hole := isHole_of_isWhole hs
  exact holds_of_rule_of_isWhole hsee hs hs (.same hole hole s.same_refl)

/-- When a class is below another that it inherits from. -/
theorem holds_ofClass_iff (hsee : see.IsWhole) {m n : Text} (hne : m ≠ n)
    (hsub : r.isSubclass m n = true) {as ts : List Shape} (has : areWhole as = true)
    (hts : areWhole ts = true) {k : Nat} :
    r.Holds see (k + 2) [] (ofClass m as) (ofClass n ts) ↔
      ts = [] ∨ List.Forall₂ (r.Holds see (k + 1) []) as ts ∨
      (r.isProtocol (ofClass n ts) = true ∧
        r.ConformsGiven see (k + 1) [] (ofClass m as) (ofClass n ts)) := by
  have hwi := isWhole_ofClass m has
  have hwt := isWhole_ofClass n hts
  have hroots : r.originSatisfies (ofClass m as) (ofClass n ts) = true :=
    originSatisfies_of_kinds (origin_ofClass m as) (origin_ofClass n ts) fun _ => hsub
  constructor
  -- Neither side is a union, a variable or the wildcard, so either the names and slots fit or the
  -- template is a protocol.
  · intro h
    obtain hfits | hconf := h.rule.nominal_or_conforms (by simp)
      (not_same_ofClass hne as ts) (isSolid_ofClass m as) (isSolid_ofClass n ts)
    · obtain hobj | ⟨-, hbare | ⟨-, hslots⟩⟩ := hfits
      · have hbare := isParameterized_ofClass n ts
        rw [isObject_iff.1 hobj] at hbare
        exact .inl (by simpa [leaf] using hbare)
      · rw [isParameterized_ofClass] at hbare
        exact .inl (by simpa using hbare)
      · -- Slots that the wildcard takes are below it as well.
        rw [slots_ofClass, slots_ofClass, forall₂_slotFits_map_single] at hslots
        refine .inr (.inl (List.forall₂_iff_zip.2 ⟨hslots.length_eq, fun {a t} hat => ?_⟩))
        obtain ⟨ha, ht⟩ := List.of_mem_zip hat
        have hwa := areWhole_iff.1 has a ha
        refine (List.forall₂_zip hslots hat).elim (fun hany => ?_) id
        exact holds_of_rule_of_isWhole hsee hwa (areWhole_iff.1 hts t ht)
          (.any (isHole_of_isWhole hwa) hany)
    · exact .inr (.inr hconf)
  · intro h
    refine holds_of_rule_of_isWhole hsee hwi hwt ?_
    obtain rfl | hargs | ⟨hprot, hconf⟩ := h
    · exact .nominal (isSolid_ofClass m as) (isSolid_ofClass n []) (.inr ⟨hroots, .inl rfl⟩)
    · refine .nominal (isSolid_ofClass m as) (isSolid_ofClass n ts) (.inr ⟨hroots, ?_⟩)
      cases hargs with
      | nil => exact .inl rfl
      | cons ha htail =>
        refine .inr ⟨rfl, ?_⟩
        rw [slots_ofClass, slots_ofClass, forall₂_slotFits_map_single]
        exact (List.Forall₂.cons ha htail).imp fun _ _ => .inr
    · exact .conforms (isSolid_ofClass m as) (isSolid_ofClass n ts) hprot hconf

/-! ## A class and its base -/

/-- When a class is below its base, with the parameters replaced by arguments. -/
theorem holds_base_iff (hr : r.WellDeclared) (hsee : see.IsWhole) {c : Class}
    (hc : r.class? c.name = some c) {base : TypeExpr} (hbase : base ∈ c.bases)
    (args : List TypeExpr) {k : Nat} :
    r.Holds see (k + 2) [] (TypeExpr.generic c.name args).shape
        (base.apply (c.binding args)).shape ↔
      base.arguments = [] ∨
      List.Forall₂ (fun a t => r.Holds see (k + 1) [] a.shape (t.apply (c.binding args)).shape)
        args base.arguments ∨
      (r.isProtocol (base.apply (c.binding args)).shape = true ∧
        r.ConformsGiven see (k + 1) [] (TypeExpr.generic c.name args).shape
          (base.apply (c.binding args)).shape) := by
  obtain ⟨-, hname, -, hbases⟩ := hr _ c hc
  obtain ⟨super, hsuper, hne, hsome⟩ := hbases base hbase
  -- The base is declared as well, so its name is not reserved either.
  obtain ⟨d, hd⟩ := Option.isSome_iff_exists.1 hsome
  have hsuperName := (hr super d hd).unreserved
  have hinst := TypeExpr.shape_of_className? (TypeExpr.className?_generic c.name args) hname
  rw [TypeExpr.arguments_generic] at hinst
  obtain ⟨happly, hargs⟩ := TypeExpr.apply_class (c.binding args) hsuper
  have htmpl := TypeExpr.shape_of_className? happly hsuperName
  rw [hargs] at htmpl
  -- The arguments are shapes of expressions, so no hole is among them.
  have hwhole : ∀ ts : List TypeExpr, areWhole (ts.map TypeExpr.shape) = true := by
    intro ts
    rw [← TypeExpr.shapes_eq_map]
    exact areWhole_shapes ts
  rw [hinst, htmpl, holds_ofClass_iff hsee hne.symm (isSubclass_of_mem_bases hc hbase hsuper)
    (hwhole _) (hwhole _), List.forall₂_map_left_iff, List.map_map, List.forall₂_map_right_iff,
    List.map_eq_nil_iff]
  rfl

/-- Arguments are below the parameters they replace. -/
theorem forall₂_holds_params (hr : r.WellDeclared) (hsee : see.IsWhole) {c : Class}
    (hc : r.class? c.name = some c) {args : List TypeExpr} (hlen : args.length = c.params.length)
    (hargs : ∀ a ∈ args, a.varOccurrences = []) {k : Nat} :
    List.Forall₂ (fun a t => r.Holds see (k + 1) [] a.shape (t.apply (c.binding args)).shape)
      args (c.params.map TypeVar.toExpr) := by
  rw [List.forall₂_map_right_iff]
  refine (Class.forall₂_apply_binding (hr _ c hc).params_nodup hlen hargs).flip.imp ?_
  intro a p hap
  rw [hap]
  exact holds_refl hsee (isWhole_shape a) k []

end Registry

namespace Engine

/-- A class is below its base, with the parameters replaced by arguments, exactly if the base is
bare, or the arguments of the class are below those of the base in the same places, or the base is a
protocol and the members match.  In particular, a class is below a base to which it hands on its
parameters as they come. -/
theorem isSubtype_base_iff (e : Engine) (hreach : e.registry.Reachable) (hmemo : e.memo.IsWhole)
    {c : Class} (hc : e.registry.class? c.name = some c) {base : TypeExpr} (hbase : base ∈ c.bases)
    (args : List TypeExpr) :
    let inst := (TypeExpr.generic c.name args).shape
    let tmpl := (base.apply (c.binding args)).shape
    let see := (e.subtypeRun inst tmpl).memo.view
    ((e.isSubtype inst tmpl).1 = true ↔
      base.arguments = [] ∨
      List.Forall₂ (fun a t => e.registry.Holds see maxRecursion [] a.shape
        (t.apply (c.binding args)).shape) args base.arguments ∨
      (e.registry.isProtocol tmpl = true ∧
        e.registry.ConformsGiven see maxRecursion [] inst tmpl)) ∧
    (args.length = c.params.length → (∀ a ∈ args, a.varOccurrences = []) →
      base.arguments = [] ∨ base.arguments = c.params.map TypeVar.toExpr →
      (e.isSubtype inst tmpl).1 = true) := by
  intro inst tmpl see
  have hsee : see.IsWhole := (e.subtypeRun_isWhole hmemo inst tmpl).view
  have hiff := (e.isSubtype_iff_holds inst tmpl (Memo.view_agrees _)).trans
    (Registry.holds_base_iff hreach.wellDeclared hsee hc hbase args)
  -- Parameters that are handed on are the arguments themselves.
  refine ⟨hiff, fun hlen hargs hhanded => hiff.2 (hhanded.imp_right fun hparams => .inl ?_)⟩
  rw [hparams]
  exact Registry.forall₂_holds_params hreach.wellDeclared hsee hc hlen hargs

/-- A map of integers by strings is a mapping of integers by strings. -/
theorem map_isSubtype_mapping :
    let e : Engine := {}
    let args := [TypeExpr.con Name.string, TypeExpr.con Name.int]
    (e.isSubtype (TypeExpr.app Name.map args).shape
      (TypeExpr.app Name.mapping args).shape).1 = true := by
  intro e args
  let c : Class :=
    { name := Name.map, params := [Registry.keyVar, Registry.valueVar],
      bases := [.app Name.mapping [Registry.keyVar.toExpr, Registry.valueVar.toExpr]] }
  have hc : e.registry.class? c.name = some c := rfl
  -- The parameters stand in the base in their own order, so nothing is lost by position.
  exact (e.isSubtype_base_iff .builtin Memo.isWhole_nil hc List.mem_cons_self args).2 rfl
    (by simp [args]) (.inr rfl)

/-- A mapping hands on its first parameter only, so it is not below its base.  The walk along bases
does resolve the argument of the base. -/
theorem mapping_not_isSubtype_iterable :
    let e : Engine := {}
    let args := [TypeExpr.con Name.string, TypeExpr.con Name.int]
    let mapping := (TypeExpr.app Name.mapping args).shape
    ∃ c base, e.registry.Reachable ∧ e.registry.class? Name.mapping = some c ∧ base ∈ c.bases ∧
      args.length = c.params.length ∧
      base.apply (c.binding args) = .app Name.iterable [.con Name.string] ∧
      (e.isSubtype mapping (base.apply (c.binding args)).shape).1 = false ∧
      ((e.registry.genericBindings mapping : Seeing _).run e.memo.view).toOption.any
        (fun bindings => (Table.find? bindings Registry.elementVar.name).any
          (·.same (.con Name.string))) = true := by
  let base : TypeExpr := .app Name.iterable [Registry.keyVar.toExpr]
  let c : Class :=
    { name := Name.mapping, params := [Registry.keyVar, Registry.valueVar], bases := [base] }
  exact ⟨c, base, .builtin, rfl, List.mem_cons_self, rfl, rfl, by decide +kernel,
    by decide +kernel⟩

end Engine

end TypeShape
