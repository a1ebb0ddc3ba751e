import TypeShape.Proofs.BaseWalks
import TypeShape.Proofs.SinglePass
import TypeShape.Proofs.StructuralEquality
import TypeShape.Proofs.UnificationRuns

/-!
# Generic arguments on their way to the bases

A walk instantiates each base with the bindings of the class that declares it, expands aliases, and
reads the bindings of the parameters of the base off the arguments.  Nothing else gets there: the
arguments of a base are handed on as they are, with the parameters of the declaring class replaced
by what comes of them.  That is what one pass of the bindings would put there for every variable of
the base, or some binding mentions a variable that is bound itself and is worked on again.

## Key results

- `Registry.expandAliases_class`: expanding aliases goes into the arguments of a class
- `Registry.Enters.readOff`: the bindings of a visit are read off the arguments
- `Engine.bindings_of_base`: what a walk hands to a base
- `Engine.bindings_captured`: an argument that is named like a parameter is replaced again
-/

namespace TypeShape

/-! ## Expanding aliases in a class -/

namespace TypeExpr

/-- Replaces some classes, one after the other. -/
def replaceClasses (steps : Table TypeExpr) (t : TypeExpr) : TypeExpr :=
  steps.foldl (fun t (name, expansion) => replaceClass name expansion t) t

/-- Replacing another class goes into the arguments of a class. -/
theorem replaceClass_class {t : TypeExpr} {name other : Text} (h : t.className? = some name)
    (hne : name ≠ other) (expansion : TypeExpr) :
    (replaceClass other expansion t).className? = some name ∧
      (replaceClass other expansion t).arguments =
        t.arguments.map (replaceClass other expansion) := by
  -- Expressions of other forms have no class name.
  cases t with
  | con n =>
    cases h
    rw [replaceClass, if_neg hne]
    exact ⟨rfl, rfl⟩
  | app head args =>
    cases h
    unfold replaceClass
    rw [if_neg hne, replaceClassAll_eq_map]
    exact ⟨rfl, rfl⟩
  | _ => cases h

/-- Replacing classes leaves the name of a class that is none of them, and goes into its arguments.
-/
theorem replaceClasses_class {t : TypeExpr} {name : Text} (h : t.className? = some name)
    {steps : Table TypeExpr} (hsteps : ∀ step ∈ steps, name ≠ step.1) :
    (t.replaceClasses steps).className? = some name ∧
      (t.replaceClasses steps).arguments = t.arguments.map (replaceClasses steps) := by
  -- By induction on the replacements, each of which keeps the name of the class.
  induction steps generalizing t with
  | nil => exact ⟨h, (List.map_id _).symm⟩
  | cons step steps ih =>
    obtain ⟨hne, hsteps⟩ := List.forall_mem_cons.1 hsteps
    obtain ⟨hname, hargs⟩ := replaceClass_class h hne step.2
    obtain ⟨hname', hargs'⟩ := ih hname hsteps
    refine ⟨hname', hargs'.trans ?_⟩
    rw [hargs, List.map_map]
    rfl

/-- Replacing classes leaves a variable, with other bounds and constraints. -/
theorem replaceClasses_toExpr (steps : Table TypeExpr) (v : TypeVar) :
    ∃ w : TypeVar, w.name = v.name ∧ v.toExpr.replaceClasses steps = w.toExpr := by
  induction steps generalizing v with
  | nil => exact ⟨v, rfl, rfl⟩
  | cons step steps ih =>
    obtain ⟨w, hname, hw⟩ := ih ⟨v.name, replaceClass step.1 step.2 v.bound,
      replaceClassAll step.1 step.2 v.constraints⟩
    exact ⟨w, hname, hw⟩

end TypeExpr

namespace Registry

open TypeExpr Shape

variable {r : Registry} {see : View}

/-- A pass replaces some of the aliases, one after the other. -/
theorem expandPass_eq (aliases : Table TypeExpr) (t : TypeExpr) (changed : Bool) :
    ∃ steps, steps ⊆ aliases ∧ (expandPass aliases (t, changed)).1 = t.replaceClasses steps := by
  induction aliases generalizing t changed with
  | nil => exact ⟨[], List.Subset.refl _, rfl⟩
  | cons entry rest ih =>
    obtain ⟨name, expansion⟩ := entry
    simp only [expandPass]
    -- An alias whose replacement makes no difference is passed over.
    split
    · obtain ⟨steps, hsub, heq⟩ := ih t changed
      exact ⟨steps, List.subset_cons_of_subset _ hsub, heq⟩
    · obtain ⟨steps, hsub, heq⟩ := ih (replaceClass name expansion t) true
      exact ⟨(name, expansion) :: steps, List.cons_subset_cons _ hsub, heq⟩

/-- So do several passes. -/
theorem expandPasses_eq (aliases : Table TypeExpr) (n : Nat) (t : TypeExpr) :
    ∃ steps, steps ⊆ aliases ∧ expandPasses aliases n t = t.replaceClasses steps := by
  -- By induction on the passes; the replacements of each come after those before.
  induction n generalizing t with
  | zero => exact ⟨[], List.nil_subset _, rfl⟩
  | succ n ih =>
    obtain ⟨steps, hsub, heq⟩ := expandPass_eq aliases t false
    rw [expandPasses]
    split
    -- Something was replaced, so the next pass starts from there.
    · rename_i next hpass
      obtain rfl : next = t.replaceClasses steps := by rw [← heq, hpass]
      obtain ⟨steps', hsub', heq'⟩ := ih (t.replaceClasses steps)
      refine ⟨steps ++ steps', List.append_subset.2 ⟨hsub, hsub'⟩, ?_⟩
      rw [heq', replaceClasses, replaceClasses, replaceClasses, List.foldl_append]
    -- Nothing was replaced, and the passes end.
    · rename_i next hpass
      rw [hpass] at heq
      exact ⟨steps, hsub, heq⟩

/-- Expanding aliases replaces some of them, one after the other. -/
theorem expandAliases_eq (r : Registry) (t : TypeExpr) :
    ∃ steps, steps ⊆ r.aliases ∧ r.expandAliases t = t.replaceClasses steps := by
  unfold expandAliases
  split
  · exact ⟨[], List.nil_subset _, rfl⟩
  · exact expandPasses_eq _ _ t

/-- Expanding aliases goes into the arguments of a class whose name is no alias. -/
theorem expandAliases_class {t : TypeExpr} {name : Text} (h : t.className? = some name)
    (halias : r.alias? name = none) :
    ∃ steps, steps ⊆ r.aliases ∧ (r.expandAliases t).className? = some name ∧
      (r.expandAliases t).arguments = t.arguments.map (replaceClasses steps) := by
  obtain ⟨steps, hsub, heq⟩ := r.expandAliases_eq t
  have hsteps : ∀ step ∈ steps, name ≠ step.1 := by
    rintro step hstep rfl
    have hnone := List.lookup_eq_none_iff.1 halias step (hsub hstep)
    simp at hnone
  rw [heq]
  exact ⟨steps, hsub, replaceClasses_class h hsteps⟩

/-- The shape of a class applied to its own parameters, when its aliases are expanded. -/
theorem shape_selfType {c : Class} (hname : Name.isReserved c.name = false)
    (halias : r.alias? c.name = none) :
    ∃ vs : List TypeVar, vs.map (·.name) = c.params.map (·.name) ∧
      (r.expandAliases c.selfType).shape = .ofClass c.name (vs.map .ofVar) := by
  obtain ⟨steps, -, hclass, hargs⟩ :=
    expandAliases_class (className?_generic c.name (c.params.map TypeVar.toExpr)) halias
  rw [arguments_generic, List.map_map] at hargs
  have hvars : ∃ vs : List TypeVar, vs.map (·.name) = c.params.map (·.name) ∧
      c.params.map (replaceClasses steps ∘ TypeVar.toExpr) = vs.map TypeVar.toExpr := by
    -- By induction on the parameters; a variable stays one and keeps its name.
    induction c.params with
    | nil => exact ⟨[], rfl, rfl⟩
    | cons p ps ih =>
      obtain ⟨v, hv, hv'⟩ := replaceClasses_toExpr steps p
      obtain ⟨vs, hvs, hvs'⟩ := ih
      exact ⟨v :: vs, by simp [hv, hvs], by simp [hv', hvs']⟩
  obtain ⟨vs, hnames, hvs⟩ := hvars
  refine ⟨vs, hnames, ?_⟩
  rw [Class.selfType, shape_of_className? hclass hname, hargs, hvs, List.map_map]
  rfl

/-! ## Binding the parameters of a class -/

/-- Binding one parameter leaves the others open. -/
theorem unbound_put {vs : List TypeVar} {name : Text} (hname : name ∉ vs.map (·.name)) {s : Subst}
    (hvs : ∀ v ∈ vs, Table.find? s v.name = none) (t : TypeExpr) :
    ∀ v ∈ vs, Table.find? (Table.put name t s) v.name = none := by
  intro v hv
  have hne : v.name ≠ name := fun heq => hname (heq ▸ List.mem_map_of_mem hv)
  rw [Table.find?_put_of_ne hne]
  exact hvs v hv

/-- Unifying parameters with arguments binds each of them to the expression of its argument. -/
theorem unifySlots_ofVar {room : Nat} {fail : MismatchReason → Error} {vs : List TypeVar}
    {xs : List Shape} (hlen : xs.length = vs.length) (hnodup : (vs.map (·.name)).Nodup)
    {index : Nat} {s s' : Subst} (hnew : ∀ v ∈ vs, Table.find? s v.name = none)
    (h : r.unifySlots room fail index ((vs.map .ofVar).map .single) (xs.map .single) s = .ok s') :
    ∃ us, List.Forall₂ (fun u x => x.expression = .ok u) us xs ∧
      s' = s ++ (vs.map (·.name)).zip us := by
  -- By induction on the parameters, for the bindings that are there already; names are distinct.
  induction vs generalizing xs index s with
  | nil =>
    obtain rfl := List.length_eq_zero_iff.1 hlen
    cases h
    exact ⟨[], .nil, (List.append_nil _).symm⟩
  | cons v vs ih =>
    cases xs with
    | nil => cases hlen
    | cons x xs =>
      rw [List.map_cons, List.nodup_cons] at hnodup
      obtain ⟨hv, hvs⟩ := List.forall_mem_cons.1 hnew
      have hvar : (ofVar v).isHole = false ∧ (ofVar v).isAny = false := ⟨rfl, rfl⟩
      simp only [List.map_cons, unifySlots, hvar.1, hvar.2, Bool.false_eq_true, if_false] at h
      obtain ⟨s₁, hstep, h⟩ := bind_eq_ok.1 h
      obtain ⟨u, hu, rfl⟩ := unifyAt_ofVar hstep
      obtain ⟨us, hus, rfl⟩ := ih (Nat.succ.inj hlen) hnodup.2 (unbound_put hnodup.1 hvs u) h
      refine ⟨u :: us, .cons hu hus, ?_⟩
      rw [Table.put_of_find?_eq_none hv]
      simp

/-- The bindings of a class to the arguments of a shape of it. -/
theorem ownBindings_ofClass (hr : r.WellDeclared) {c : Class} (hc : r.class? c.name = some c)
    (halias : r.alias? c.name = none)
    (hself : (see (r.expandAliases c.selfType)).shape = (r.expandAliases c.selfType).shape)
    {xs : List Shape} {s : Subst}
    (h : (r.ownBindings c (.ofClass c.name xs) : Seeing _).run see = .ok s) :
    ((c.params = [] ∨ xs = []) ∧ s = []) ∨
      (xs.length = c.params.length ∧
        ∃ us, List.Forall₂ (fun u x => x.expression = .ok u) us xs ∧ s = c.binding us) := by
  obtain ⟨-, hname, hnodup, -⟩ := hr _ c hc
  obtain ⟨vs, hnames, hshape⟩ := shape_selfType (c := c) hname halias
  have hslots : (ofClass c.name xs).slots.length = xs.length := by
    rw [slots_ofClass, List.length_map]
  have hlenvs : vs.length = c.params.length := by
    simpa using congrArg List.length hnames
  unfold ownBindings at h
  -- A class without parameters, or a bare shape of it, binds nothing.
  split at h
  · rename_i hopen
    cases h
    rw [isParameterized_ofClass] at hopen
    exact .inl ⟨by simpa [Class.isGeneric] using hopen, rfl⟩
  rename_i hclosed
  split at h
  · cases h
  rename_i hlen
  have hlen : xs.length = c.params.length := by
    rw [← hslots]
    simpa using hlen
  refine .inr ⟨hlen, ?_⟩
  -- What the unifier gives is passed on; only its errors are told anew.
  have hunify : r.unify (ofClass c.name (vs.map ofVar)) (ofClass c.name xs) = .ok s := by
    have hseen : r.shapeSeen see c.selfType = ofClass c.name (vs.map ofVar) := hself.trans hshape
    rw [run_bind_seeing, run_shapeM, hseen] at h
    rcases hout : r.unify (ofClass c.name (vs.map ofVar)) (ofClass c.name xs) with e | bindings
    · rw [hout] at h
      cases e <;> cases h
    · rw [hout] at h
      exact h
  have hxs : xs ≠ [] := by
    rintro rfl
    simp at hclosed
  -- There are arguments, so both shapes are applied and the unifier compares their slots.
  have hvs : vs.map ofVar ≠ [] := by
    intro hnil
    have hlen' : vs.length = 0 := by simpa using congrArg List.length hnil
    exact hxs (List.length_eq_zero_iff.1 (by omega))
  have hclass : ∀ ys : List Shape, ys ≠ [] →
      ofClass c.name ys = .applied (.plain .nominal c.name) (ys.map .single) := by
    intro ys hys
    rw [ofClass, if_neg (by simpa using hys)]
  rw [hclass _ hvs, unify] at hunify
  obtain ⟨-, room, fail, hrun⟩ := unifyAt_applied (by decide) hunify
  rw [slots_ofClass] at hrun
  obtain ⟨us, hus, rfl⟩ := unifySlots_ofVar (by omega) (hnames ▸ hnodup) (by simp) hrun
  refine ⟨us, hus, ?_⟩
  rw [List.nil_append, hnames]
  rfl

end Registry

/-! ## What a visit is told by an expression -/

/-- An expression that is read off another: the expression of its shape.  A regular expression comes
back with the same shape and the same variables; only what shapes cannot say is lost. -/
structure TypeExpr.ReadOff (u t : TypeExpr) : Prop where
  expression : t.shape.expression = .ok u
  faithful : t.Regular → t.shape.same u.shape = true ∧ u.varOccurrences = t.shape.varOccurrences

/-- What is made of a shape is read off it. -/
theorem TypeExpr.ReadOff.of_expression {u t : TypeExpr} (h : t.shape.expression = .ok u) :
    u.ReadOff t := by
  refine ⟨h, fun hregular => ?_⟩
  obtain ⟨u', hu', hsame, hvars⟩ := hregular.shape.expression
  rw [h] at hu'
  cases hu'
  exact ⟨hsame, hvars⟩

/-- A visit to the class of an expression, with each parameter bound to what is read off the
argument in its place.  Without parameters or arguments, nothing is bound. -/
structure Visit.ReadOff (v : Visit) (t : TypeExpr) : Prop where
  name : t.className? = some v.cls.name
  bindings : ((v.cls.params = [] ∨ t.arguments = []) ∧ v.bindings = []) ∨
    (t.arguments.length = v.cls.params.length ∧
      ∃ us, List.Forall₂ TypeExpr.ReadOff us t.arguments ∧ v.bindings = v.cls.binding us)

/-- Whether a view shows the shape of an expression. -/
def View.Shows (see : View) (t : TypeExpr) : Prop :=
  (see t).shape = t.shape

namespace Registry

variable {r : Registry} {see : View}

/-- A visit that comes from a class expression is told by it. -/
theorem Enters.readOff (hr : r.WellDeclared) {t : TypeExpr} {name : Text}
    (hclass : t.className? = some name) (hknown : (r.class? name).isSome = true)
    (halias : r.alias? name = none) {v : Visit}
    (hself : see.Shows (r.expandAliases v.cls.selfType)) (h : r.Enters see t.shape v) :
    v.ReadOff t := by
  obtain ⟨c, hc⟩ := Option.isSome_iff_exists.1 hknown
  have hshape := TypeExpr.shape_of_className? hclass (hr name c hc).unreserved
  rw [hshape] at h
  -- The class that is entered is the one of the name, and so knows its own name.
  have hcls : r.class? name = some v.cls := by
    have hcls := h.cls
    rwa [classOf?, Shape.origin_ofClass] at hcls
  obtain rfl : v.cls.name = name := (hr _ _ hcls).name_eq
  refine ⟨hclass, ?_⟩
  -- Its own bindings are those of its arguments, unless there are no parameters or no arguments.
  obtain hopen | ⟨hlen, us, hus, hbindings⟩ :=
    ownBindings_ofClass hr hcls halias hself h.bindings
  · exact .inl (by simpa using hopen)
  · rw [List.forall₂_map_right_iff] at hus
    exact .inr ⟨by simpa using hlen, us, hus.imp fun _ _ => .of_expression, hbindings⟩

end Registry

namespace Engine

open Registry

/-- What a walk hands to a base.  The bindings of a visit are read off the base that it comes from,
with the parameters of the declaring class replaced and aliases expanded, as long as the name of the
base is no alias and the memo answers rightly.  Replacing the parameters is one pass of the bindings
exactly if for every variable in the base, the same comes of it in one pass; that holds if no
binding mentions a name that is bound. -/
theorem bindings_of_base (e : Engine) (hr : e.registry.Reachable) {s : Shape}
    {before after : List Visit} {v : Visit} (hbefore : before ≠ [])
    (hwalk : (e.run (e.registry.visitsM s)).1 = some (.ok (before ++ v :: after))) :
    let r := e.registry
    let see := (e.run (r.visitsM s)).2.memo.view
    ∃ u ∈ before, ∃ base ∈ u.cls.bases, ∃ name, base.className? = some name ∧
      (r.alias? name = none → see.Shows (r.expandAliases (base.apply u.bindings)) →
        see.Shows (r.expandAliases v.cls.selfType) →
        v.ReadOff (r.expandAliases (base.apply u.bindings))) ∧
      (base.apply u.bindings = base.mapVars u.bindings.value ↔
        ∀ x ∈ base.varOccurrences, u.bindings.applied x = u.bindings.value x) ∧
      (u.bindings.IsFlat → base.apply u.bindings = base.mapVars u.bindings.value) := by
  intro r see
  have hr := hr.wellDeclared
  have hvisits : r.visits see s = .ok (before ++ v :: after) := by
    rw [e.run_visitsM s] at hwalk
    exact Option.some.inj hwalk
  have htrail := Registry.trail_of_visits hvisits
  obtain ⟨u, hu, base, hbase, henters⟩ := htrail.exists_base hbefore
  have hucls : r.class? u.cls.name = some u.cls :=
    htrail.class? hr u (List.mem_append_left _ hu)
  obtain ⟨name, hname, -, hknown⟩ := (hr _ _ hucls).bases base hbase
  refine ⟨u, hu, base, hbase, name, hname, fun halias hshows hself => ?_,
    TypeExpr.apply_eq_value_iff _ _, fun hflat => hflat.apply_eq base⟩
  -- Neither the bindings nor the aliases change which class it is.
  obtain ⟨-, -, hclass, -⟩ :=
    Registry.expandAliases_class (TypeExpr.apply_class u.bindings hname).1 halias
  rw [Registry.shapeSeen, hshows] at henters
  exact henters.readOff hr hclass hknown halias hself

/-- The keys of a mapping of strings are what it is iterated over. -/
theorem mapping_bindings_of_base :
    let e : Engine := {}
    let s := (TypeExpr.app Name.mapping [.con Name.string, .con Name.int]).shape
    ∃ u v : Visit, (e.run (e.registry.visitsM s)).1 = some (.ok [u, v]) ∧
      ∃ base ∈ u.cls.bases, v.ReadOff (e.registry.expandAliases (base.apply u.bindings)) ∧
        base.apply u.bindings = base.mapVars u.bindings.value ∧
        v.bindings = [(elementVar.name, .con Name.string)] := by
  intro e s
  let base : TypeExpr := .app Name.iterable [keyVar.toExpr]
  let u : Visit := ⟨{ name := Name.mapping, params := [keyVar, valueVar], bases := [base] },
    [(keyVar.name, .con Name.string), (valueVar.name, .con Name.int)]⟩
  let v : Visit := ⟨{ name := Name.iterable, params := [elementVar] },
    [(elementVar.name, .con Name.string)]⟩
  -- The walk meets the mapping and then its base; it is evaluated.
  have hwalk : (e.run (e.registry.visitsM s)).1 = some (.ok ([u] ++ v :: [])) := rfl
  obtain ⟨w, hw, base', hbase', name, hname, hread, hpass, -⟩ :=
    e.bindings_of_base .builtin (by simp) hwalk
  obtain rfl := List.mem_singleton.1 hw
  obtain rfl := List.mem_singleton.1 hbase'
  cases hname
  have hsame : base.apply u.bindings = base.mapVars u.bindings.value :=
    hpass.2 (List.forall_mem_singleton.2 rfl)
  exact ⟨u, v, hwalk, base, hbase', hread rfl rfl rfl, hsame, rfl⟩

/-- An argument that is named like a parameter is replaced again. -/
theorem bindings_captured :
    let T : TypeVar := { name := text "T" }
    let A : TypeVar := { name := text "A" }
    let B : TypeVar := { name := text "B" }
    let base : TypeExpr := .app (text "Box") [A.toExpr]
    let box : Class := { name := text "Box", params := [T] }
    let pair : Class := { name := text "Pair", params := [A, B], bases := [base] }
    let r : Registry := { builtin with
      classes := builtin.classes ++ [(box.name, box), (pair.name, pair)]
      vars := builtin.vars ++ [T, A, B].map fun v => (v.name, v) }
    let e : Engine := { registry := r }
    let s := (TypeExpr.app pair.name [B.toExpr, .con Name.int]).shape
    let u : Visit := ⟨pair, [(A.name, B.toExpr), (B.name, .con Name.int)]⟩
    let v : Visit := ⟨box, [(T.name, .con Name.int)]⟩
    r.Reachable ∧ (e.run (r.visitsM s)).1 = some (.ok [u, v]) ∧
      base.mapVars u.bindings.value = .app box.name [B.toExpr] ∧
      ¬ v.ReadOff (r.expandAliases (base.mapVars u.bindings.value)) := by
  intro T A B base box pair r e s u v
  have hdeclared :
      r = (Declaring.after (Registry.declare pair)
        (Declaring.after (Registry.declare box) builtin).2).2 := rfl
  have hreach : r.Reachable := hdeclared ▸ .declare _ (.declare _ .builtin)
  have hwalk : (e.run (r.visitsM s)).1 = some (.ok [u, v]) := rfl
  refine ⟨hreach, hwalk, rfl, fun hread => ?_⟩
  -- The only argument is the variable, and what is read off a variable is the variable.
  obtain ⟨hopen, -⟩ | ⟨-, us, hus, hbindings⟩ := hread.bindings
  · obtain hparams | hargs := hopen
    · cases hparams
    · cases hargs
  · cases hus with
    | cons hu hus =>
      cases hus
      cases hu.expression
      cases hbindings

end Engine

end TypeShape
