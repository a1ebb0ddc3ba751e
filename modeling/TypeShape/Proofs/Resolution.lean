import Mathlib.Logic.Relation
import TypeShape.Proofs.SinglePass

/-!
# Resolving variables

Applying a substitution works on the bindings of the variables that it meets, and on the variables
in these in turn.  A variable whose binding is being worked on already stays as it is, so this ends
on every substitution, cyclic or not: on each path a variable is entered only once.  If no variable
leads back to itself, none is met while its own binding is being worked on, and then every variable
that is bound is replaced.

## Key results

- `TypeExpr.applies_apply`, `TypeExpr.Applies.unique`: applying a substitution ends, with one result,
  without a limit on the bindings that are followed
- `TypeExpr.Applies.unbound`: an acyclic substitution leaves none of its variables
- `TypeExpr.apply_resolves`: both together, and that applying it once more changes nothing
-/

namespace TypeShape

open Relation (TransGen)

/-! ## Free variables -/

namespace TypeExpr

/-- Leaving out repetitions adds no variable. -/
theorem mem_of_mem_distinctVars {v : TypeVar} {vs : List TypeVar} (h : v ∈ distinctVars vs) :
    v ∈ vs := by
  induction vs with
  | nil => exact h
  | cons w vs ih =>
    obtain rfl | h := List.mem_cons.1 h
    · exact List.mem_cons_self
    · exact List.mem_cons_of_mem w (ih (List.mem_filter.1 h).1)

/-- A variable that occurs is free, perhaps with another declaration of its name. -/
theorem exists_mem_distinctVars {v : TypeVar} {vs : List TypeVar} (h : v ∈ vs) :
    ∃ w ∈ distinctVars vs, w.name = v.name := by
  -- By induction on the list; the first occurrence of each name is kept.
  induction vs with
  | nil => cases h
  | cons u vs ih =>
    by_cases hname : u.name = v.name
    · exact ⟨u, List.mem_cons_self, hname⟩
    · obtain rfl | h := List.mem_cons.1 h
      · exact absurd rfl hname
      · obtain ⟨w, hw, hwv⟩ := ih h
        have hne : w.name ≠ u.name := fun heq => hname (heq.symm.trans hwv)
        exact ⟨w, List.mem_cons_of_mem u (List.mem_filter.2 ⟨hw, bne_iff_ne.2 hne⟩), hwv⟩

mutual

/-- The variables that occur after a replacement occur in what replaces some variable. -/
theorem varOccurrences_mapVars (f : TypeVar → TypeExpr) : ∀ t : TypeExpr,
    (t.mapVars f).varOccurrences = t.varOccurrences.flatMap fun v => (f v).varOccurrences
  | omitted => rfl
  | con _ => rfl
  | app head args => varOccurrencesAll_mapVarsAll f args
  | var name bound constraints => by simp
  | union members optional => varOccurrencesAll_mapVarsAll f members
  | callable params result ellipsis => by
    rw [mapVars, varOccurrences, varOccurrences, List.flatMap_append,
      varOccurrencesAll_mapVarsAll f params, varOccurrences_mapVars f result]
  | typeOf operand => varOccurrences_mapVars f operand
  | annotated inner metadata => varOccurrences_mapVars f inner
  | literal _ => rfl

/-- So do the variables that occur in a list. -/
theorem varOccurrencesAll_mapVarsAll (f : TypeVar → TypeExpr) : ∀ ts : List TypeExpr,
    varOccurrencesAll (mapVarsAll f ts) =
      (varOccurrencesAll ts).flatMap fun v => (f v).varOccurrences
  | [] => rfl
  | t :: ts => by
    rw [mapVarsAll, varOccurrencesAll, varOccurrencesAll, List.flatMap_append,
      varOccurrences_mapVars f t, varOccurrencesAll_mapVarsAll f ts]

end

end TypeExpr

/-! ## Following bindings -/

namespace Subst

/-- What comes of a variable, without a limit on the bindings that are followed.  `visited` are the
variables whose bindings are being worked on: one of these stays as it is, and so does a variable
that is not bound or bound to itself.  Any other variable becomes its binding, with what comes of
the variables in it. -/
inductive Resolves (s : Subst) : List Text → TypeVar → TypeExpr → Prop where
  | visited {visited : List Text} {v : TypeVar} : v.name ∈ visited → Resolves s visited v v.toExpr
  | unbound {visited : List Text} {v : TypeVar} : v.name ∉ visited → Table.find? s v.name = none →
    Resolves s visited v v.toExpr
  | itself {visited : List Text} {v : TypeVar} {t : TypeExpr} : v.name ∉ visited →
    Table.find? s v.name = some t → t.isVarNamed v.name = true → Resolves s visited v v.toExpr
  | bound {visited : List Text} {v : TypeVar} {t : TypeExpr} {f : TypeVar → TypeExpr} :
    v.name ∉ visited → Table.find? s v.name = some t → t.isVarNamed v.name = false →
    (∀ w ∈ t.varOccurrences, Resolves s (v.name :: visited) w (f w)) →
    Resolves s visited v (t.mapVars f)

variable {s : Subst}

/-- Only one thing comes of a variable. -/
theorem Resolves.unique {visited : List Text} {v : TypeVar} {t other : TypeExpr}
    (h : s.Resolves visited v t) (hother : s.Resolves visited v other) : other = t := by
  -- By induction on the first way; the conditions of the steps exclude each other.
  induction h generalizing other with
  | visited hmem =>
    cases hother with
    | visited _ => rfl
    | unbound hnew _ | itself hnew _ _ | bound hnew _ _ _ => exact absurd hmem hnew
  | unbound hnew hfind =>
    cases hother with
    | visited hmem => exact absurd hmem hnew
    | unbound _ _ => rfl
    | itself _ hfind' _ | bound _ hfind' _ _ => simp [hfind] at hfind'
  | itself hnew hfind hvar =>
    cases hother with
    | visited hmem => exact absurd hmem hnew
    | unbound _ hfind' => simp [hfind] at hfind'
    | itself _ _ _ => rfl
    | bound _ hfind' hvar' _ =>
      rw [hfind] at hfind'
      cases hfind'
      simp [hvar] at hvar'
  | bound hnew hfind hvar _ ih =>
    cases hother with
    | visited hmem => exact absurd hmem hnew
    | unbound _ hfind' => simp [hfind] at hfind'
    | itself _ hfind' hvar' =>
      rw [hfind] at hfind'
      cases hfind'
      simp [hvar] at hvar'
    | bound _ hfind' _ hrest' =>
      rw [hfind] at hfind'
      cases hfind'
      exact (TypeExpr.mapVars_eq_iff _ _ _).2 fun w hw => ih w hw (hrest' w hw)

/-- A substitution without some of its names. -/
def without (s : Subst) (visited : List Text) : Subst :=
  s.filter fun (n, _) => !visited.contains n

/-- A substitution without some variables binds the others as before. -/
theorem find?_without (s : Subst) (visited : List Text) (name : Text) :
    Table.find? (s.without visited) name =
      if name ∈ visited then none else Table.find? s name := by
  -- By induction on the substitution; leaving out a name hides all its bindings.
  induction s with
  | nil => simp [without, Table.find?]
  | cons e s ih =>
    obtain ⟨n, t⟩ := e
    unfold without at ih ⊢
    by_cases hn : n ∈ visited
    · rw [List.filter_cons_of_neg (by simp [hn]), ih, Table.find?_cons]
      by_cases hname : name = n
      · rw [if_pos (hname ▸ hn), if_pos (hname ▸ hn)]
      · rw [if_neg hname]
    · rw [List.filter_cons_of_pos (by simp [hn]), Table.find?_cons, Table.find?_cons, ih]
      by_cases hname : name = n
      · rw [if_pos hname, if_pos hname, if_neg (hname ▸ hn)]
      · rw [if_neg hname, if_neg hname]

/-- Variables are taken out one after the other. -/
theorem erase_without (s : Subst) (visited : List Text) (name : Text) :
    Table.erase (s.without visited) name = s.without (name :: visited) := by
  unfold without Table.erase
  rw [List.filter_filter]
  refine List.filter_congr fun (n, _) _ => ?_
  show (n != name && !visited.contains n) = !(name :: visited).contains n
  rw [List.contains_cons, Bool.not_or]
  rfl

/-- Following bindings ends: with the variables that are being worked on taken out of the
substitution, it gives what comes of a variable when that is applied. -/
theorem resolves_applied (s : Subst) (visited : List Text) (v : TypeVar) :
    s.Resolves visited v ((s.without visited).applied v) := by
  -- By induction on the length of the substitution that is left.
  induction hn : (s.without visited).length using Nat.strong_induction_on
    generalizing visited v with
  | _ n ih =>
    subst hn
    have hfind := s.find?_without visited v.name
    by_cases hmem : v.name ∈ visited
    · rw [if_pos hmem] at hfind
      simp only [applied, hfind]
      exact .visited hmem
    · rw [if_neg hmem] at hfind
      cases hbound : Table.find? s v.name with
      | none =>
        rw [hbound] at hfind
        simp only [applied, hfind]
        exact .unbound hmem hbound
      | some t =>
        rw [hbound] at hfind
        cases hvar : t.isVarNamed v.name with
        | true =>
          simp only [applied, hfind, hvar, if_true]
          exact .itself hmem hbound hvar
        | false =>
          -- The variable that is entered leaves the substitution, which gets shorter.
          have hshorter := Table.length_erase_lt hfind
          rw [erase_without] at hshorter
          simp only [applied, hfind, hvar, Bool.false_eq_true, if_false, erase_without,
            TypeExpr.apply_eq_mapVars]
          exact .bound hmem hbound hvar fun w _ => ih _ hshorter _ w rfl

/-- A variable leads to those that are free in its binding. -/
def Uses (s : Subst) (a b : Text) : Prop :=
  ∃ t, Table.find? s a = some t ∧ ∃ v ∈ t.freeVars, v.name = b

/-- No variable leads back to itself. -/
def IsAcyclic (s : Subst) : Prop := ∀ name, ¬ TransGen s.Uses name name

/-- A ranking that falls from every variable to those in its binding shows that none leads back. -/
theorem isAcyclic_of_ranking (ranking : Text → Nat)
    (h : ∀ a b, s.Uses a b → ranking b < ranking a) : s.IsAcyclic := by
  intro name hpath
  have hfalls : TransGen (· > ·) (ranking name) (ranking name) := hpath.lift ranking h
  rw [Relation.transGen_eq_self] at hfalls
  exact Nat.lt_irrefl _ hfalls

/-- A variable uses those that occur in its binding. -/
theorem uses_of_mem {name : Text} {t : TypeExpr} (h : Table.find? s name = some t) {w : TypeVar}
    (hw : w ∈ t.varOccurrences) : s.Uses name w.name :=
  ⟨t, h, TypeExpr.exists_mem_distinctVars hw⟩

/-- An acyclic substitution leaves none of its variables in what comes of a variable, if all whose
bindings are being worked on lead to it. -/
theorem Resolves.unbound_of_isAcyclic (hs : s.IsAcyclic) {visited : List Text} {v : TypeVar}
    {t : TypeExpr} (h : s.Resolves visited v t)
    (hleads : ∀ name ∈ visited, TransGen s.Uses name v.name) :
    ∀ w ∈ t.varOccurrences, Table.find? s w.name = none := by
  -- By induction on the way: a variable that was entered before would lead back to itself.
  induction h with
  | visited hmem => exact absurd (hleads _ hmem) (hs _)
  | unbound _ hfind =>
    intro w hw
    obtain rfl := List.mem_singleton.1 hw
    exact hfind
  | @itself _ v t _ hfind hvar =>
    -- A binding to itself is a cycle of one step.
    cases t with
    | var name bound constraints =>
      have hname : name = v.name := by simpa [TypeExpr.isVarNamed] using hvar
      have huses := uses_of_mem hfind (w := ⟨name, bound, constraints⟩) (List.mem_singleton_self _)
      exact absurd (.single (hname ▸ huses)) (hs v.name)
    | _ => cases hvar
  | @bound visited v t f _ hfind _ _ ih =>
    intro w hw
    rw [TypeExpr.varOccurrences_mapVars] at hw
    obtain ⟨u, hu, hw⟩ := List.mem_flatMap.1 hw
    have huses : s.Uses v.name u.name := uses_of_mem hfind hu
    refine ih u hu (List.forall_mem_cons.2 ⟨.single huses, fun name hname => ?_⟩) w hw
    exact (hleads name hname).tail huses

end Subst

/-! ## Applying a substitution -/

namespace TypeExpr

/-- How applying a substitution goes, without a limit on the bindings that are followed: every
variable is replaced by what comes of it. -/
def Applies (s : Subst) (visited : List Text) (t result : TypeExpr) : Prop :=
  ∃ f : TypeVar → TypeExpr,
    (∀ v ∈ t.varOccurrences, s.Resolves visited v (f v)) ∧ result = t.mapVars f

variable {s : Subst} {visited : List Text} {t result other : TypeExpr}

/-- Applying a substitution has one result only. -/
theorem Applies.unique (h : t.Applies s visited result) (hother : t.Applies s visited other) :
    other = result := by
  obtain ⟨f, hf, rfl⟩ := h
  obtain ⟨g, hg, rfl⟩ := hother
  exact (mapVars_eq_iff _ _ t).2 fun v hv => (hf v hv).unique (hg v hv)

/-- Applying a substitution ends. -/
theorem applies_apply (s : Subst) (t : TypeExpr) : t.Applies s [] (t.apply s) := by
  have hall : s.without [] = s := by simp [Subst.without]
  refine ⟨s.applied, fun v _ => ?_, apply_eq_mapVars s t⟩
  have hresolves := s.resolves_applied [] v
  rwa [hall] at hresolves

/-- Applying an acyclic substitution leaves none of its variables. -/
theorem Applies.unbound (hs : s.IsAcyclic) (h : t.Applies s [] result) :
    ∀ v ∈ result.varOccurrences, Table.find? s v.name = none := by
  obtain ⟨f, hf, rfl⟩ := h
  intro v hv
  rw [varOccurrences_mapVars] at hv
  obtain ⟨u, hu, hv⟩ := List.mem_flatMap.1 hv
  exact (hf u hu).unbound_of_isAcyclic hs (fun _ hname => absurd hname List.not_mem_nil) v hv

/-- Applying a substitution ends, with one result, on every substitution.  If no variable leads back
to itself, none of those that are bound is free in the result, and applying the substitution once
more changes nothing. -/
theorem apply_resolves (s : Subst) (t : TypeExpr) :
    t.Applies s [] (t.apply s) ∧ (∀ other, t.Applies s [] other → other = t.apply s) ∧
    (s.IsAcyclic →
      (∀ v ∈ (t.apply s).freeVars, Table.find? s v.name = none) ∧
      (t.apply s).apply s = t.apply s) := by
  have happlies := applies_apply s t
  refine ⟨happlies, fun _ hother => happlies.unique hother, fun hs => ?_⟩
  have hunbound := happlies.unbound hs
  exact ⟨fun v hv => hunbound v (mem_of_mem_distinctVars hv), apply_of_unbound hunbound⟩

/-- A substitution in which one binding uses the variable of another, twice.  It is worked on until
neither is left, and once more it changes nothing. -/
theorem apply_resolves_chain :
    let item : TypeExpr := .var (text "T") .omitted []
    let key : TypeExpr := .var (text "K") .omitted []
    let s : Subst := [(text "T", .app Name.map [key, .app Name.list [key]]),
      (text "K", .con Name.bytes)]
    let t : TypeExpr := .callable [item] key false
    let bytes : TypeExpr := .con Name.bytes
    s.IsAcyclic ∧
      t.apply s = .callable [.app Name.map [bytes, .app Name.list [bytes]]] bytes false ∧
      (∀ v ∈ (t.apply s).freeVars, Table.find? s v.name = none) ∧
      (t.apply s).apply s = t.apply s := by
  intro item key s t bytes
  have hacyclic : s.IsAcyclic := by
    refine Subst.isAcyclic_of_ranking (fun n => if n = text "T" then 1 else 0) ?_
    rintro a b ⟨u, hu, v, hv, rfl⟩
    -- Only `T` uses a variable, and that is `K`.
    obtain ⟨rfl, rfl⟩ | ⟨rfl, rfl⟩ : (a = text "T" ∧ u = .app Name.map [key, .app Name.list [key]]) ∨
        (a = text "K" ∧ u = bytes) := by
      simpa [s] using Table.mem_of_find? hu
    · obtain rfl := List.mem_singleton.1 hv
      decide
    · cases hv
  exact ⟨hacyclic, rfl, (apply_resolves s t).2.2 hacyclic⟩

/-- A variable that leads back to itself stays where it is met again. -/
example : (TypeExpr.var (text "T") .omitted []).apply
    [(text "T", .app Name.list [.var (text "T") .omitted []])] =
      .app Name.list [.var (text "T") .omitted []] := rfl

end TypeExpr

end TypeShape
