import TypeShape.Expr.Substitution
import TypeShape.Proofs.Occurrence

/-!
# What structural equality compares

Structural equality passes over the declarations of variables, the spelling of unions and the
difference between literals that print alike.  What is left is the core of an expression: two
expressions are the same exactly if their cores are equal.  So being the same is an equivalence, and
expressions that are the same name the same classes.

## Key results

- `TypeExpr.same_iff_core`: two expressions are the same exactly if their cores are equal
- `TypeExpr.mem_classNames_replaceClass`: the classes that are named once a class is replaced
-/

namespace TypeShape.TypeExpr

/-! ## Cores -/

mutual

/-- What structural equality compares. -/
@[simp] def core : TypeExpr → TypeExpr
  | omitted => omitted
  | con name => con name
  | app head args => app head (coreAll args)
  | var name _ _ => var name omitted []
  | union members _ => union (coreAll members) false
  | callable params result ellipsis => callable (coreAll params) (core result) ellipsis
  | typeOf operand => typeOf (core operand)
  | annotated inner metadata => annotated (core inner) metadata
  | literal values => literal [.string (literal values).render]

/-- What structural equality compares of a list of expressions. -/
@[simp] def coreAll : List TypeExpr → List TypeExpr
  | [] => []
  | t :: ts => core t :: coreAll ts

end

/-- The cores of a list are those of its expressions. -/
theorem coreAll_eq_map (ts : List TypeExpr) : coreAll ts = ts.map core := by
  induction ts with
  | nil => rfl
  | cons t ts ih => rw [coreAll, ih, List.map_cons]

/-- Lists are compared member by member. -/
theorem sameAll_iff_coreAll {ts : List TypeExpr}
    (h : ∀ t ∈ ts, ∀ u, t.same u = true ↔ t.core = u.core) (us : List TypeExpr) :
    sameAll ts us = true ↔ coreAll ts = coreAll us := by
  induction ts generalizing us with
  | nil => cases us <;> simp
  | cons t ts ih =>
    obtain ⟨ht, hts⟩ := List.forall_mem_cons.1 h
    cases us with
    | nil => simp
    | cons u us => simp [ht, ih hts]

/-- Two expressions are the same exactly if their cores are equal. -/
theorem same_iff_core (t u : TypeExpr) : t.same u = true ↔ t.core = u.core := by
  induction t using induct generalizing u with
  | omitted => cases u <;> simp
  | con name => cases u <;> simp
  | app head args ih => cases u <;> simp [sameAll_iff_coreAll ih]
  | var name bound constraints _ _ => cases u <;> simp
  | union members optional ih => cases u <;> simp [sameAll_iff_coreAll ih]
  | callable params result ellipsis ihp ihr =>
    cases u <;> grind [same, core, sameAll_iff_coreAll ihp]
  | typeOf operand ih => cases u <;> simp [ih]
  | annotated inner metadata ih => cases u <;> simp [ih, and_comm]
  | literal values => cases u <;> simp

/-- Every expression is the same as itself. -/
@[simp] theorem same_self (t : TypeExpr) : t.same t = true :=
  (same_iff_core t t).2 rfl

/-! ## The classes that an expression names -/

mutual

/-- The classes that an expression names; the declarations of variables are not entered. -/
@[simp] def classNames : TypeExpr → List Text
  | omitted => []
  | con name => [name]
  | app head args => head :: classNamesAll args
  | var _ _ _ => []
  | union members _ => classNamesAll members
  | callable params result _ => classNamesAll params ++ classNames result
  | typeOf operand => classNames operand
  | annotated inner _ => classNames inner
  | literal _ => []

/-- The classes that a list of expressions names. -/
@[simp] def classNamesAll : List TypeExpr → List Text
  | [] => []
  | t :: ts => classNames t ++ classNamesAll ts

end

/-- A list names the classes that its expressions name. -/
theorem mem_classNamesAll {n : Text} {ts : List TypeExpr} :
    n ∈ classNamesAll ts ↔ ∃ t ∈ ts, n ∈ t.classNames := by
  induction ts with
  | nil => simp
  | cons t ts ih => simp [ih]

mutual

/-- An expression and its core name the same classes. -/
theorem classNames_core (t : TypeExpr) : t.core.classNames = t.classNames := by
  match t with
  | .omitted | .con _ | .var .. | .literal _ => rfl
  | .app head args => rw [core, classNames, classNames, classNamesAll_coreAll args]
  | .union members _ => rw [core, classNames, classNames, classNamesAll_coreAll members]
  | .callable params result _ =>
    rw [core, classNames, classNames, classNamesAll_coreAll params, classNames_core result]
  | .typeOf operand => rw [core, classNames, classNames, classNames_core operand]
  | .annotated inner _ => rw [core, classNames, classNames, classNames_core inner]

/-- So do a list and its cores. -/
theorem classNamesAll_coreAll (ts : List TypeExpr) :
    classNamesAll (coreAll ts) = classNamesAll ts := by
  match ts with
  | [] => rfl
  | t :: ts =>
    rw [coreAll, classNamesAll, classNamesAll, classNames_core t, classNamesAll_coreAll ts]

end

/-- Expressions that are the same name the same classes. -/
theorem classNames_of_same {t u : TypeExpr} (h : t.same u = true) :
    t.classNames = u.classNames := by
  rw [← classNames_core t, (same_iff_core t u).1 h, classNames_core]

/-! ## Replacing a class -/

/-- Replacing a class in a list is replacing it in each expression. -/
theorem replaceClassAll_eq_map (name : Text) (expansion : TypeExpr) (ts : List TypeExpr) :
    replaceClassAll name expansion ts = ts.map (replaceClass name expansion) := by
  induction ts with
  | nil => rfl
  | cons t ts ih => rw [replaceClassAll, ih, List.map_cons]

/-- Where the class that is applied is another one, only the arguments change. -/
theorem replaceClass_app_of_ne {name head : Text} (h : head ≠ name) (expansion : TypeExpr)
    (args : List TypeExpr) : replaceClass name expansion (app head args) =
      app head (replaceClassAll name expansion args) := by
  unfold replaceClass
  rw [if_neg h]

/-- An expansion that is no bare class takes the place of the arguments as well. -/
theorem replaceClass_app_of_not_con {expansion : TypeExpr} (h : ∀ n, expansion ≠ con n)
    (name : Text) (args : List TypeExpr) :
    replaceClass name expansion (app name args) = expansion := by
  unfold replaceClass
  rw [if_pos rfl]
  split
  · rename_i n
    exact absurd rfl (h n)
  · rfl

/-- Once a class is replaced, an expression names the other classes that it named before, and those
of the expansion if there was something to replace. -/
theorem mem_classNames_replaceClass {n name : Text} {expansion t : TypeExpr}
    (h : n ∈ (replaceClass name expansion t).classNames) :
    n ∈ t.classNames ∧ n ≠ name ∨ name ∈ t.classNames ∧ n ∈ expansion.classNames := by
  -- What the induction gives of each member, told of all members of a list.
  have hall : ∀ {ts : List TypeExpr}, (∀ t ∈ ts, n ∈ (replaceClass name expansion t).classNames →
      n ∈ t.classNames ∧ n ≠ name ∨ name ∈ t.classNames ∧ n ∈ expansion.classNames) →
      n ∈ classNamesAll (replaceClassAll name expansion ts) →
      n ∈ classNamesAll ts ∧ n ≠ name ∨ name ∈ classNamesAll ts ∧ n ∈ expansion.classNames := by
    intro ts ih hn
    rw [replaceClassAll_eq_map, mem_classNamesAll] at hn
    obtain ⟨u, hu, hn⟩ := hn
    obtain ⟨t, ht, rfl⟩ := List.mem_map.1 hu
    obtain ⟨hmem, hne⟩ | ⟨hname, hmem⟩ := ih t ht hn
    · exact .inl ⟨mem_classNamesAll.2 ⟨t, ht, hmem⟩, hne⟩
    · exact .inr ⟨mem_classNamesAll.2 ⟨t, ht, hname⟩, hmem⟩
  -- By induction on the expression; a bare expansion of an applied class keeps the arguments.
  induction t using induct with
  | omitted => cases h
  | con m =>
    rw [replaceClass] at h
    split at h
    · rename_i heq
      exact .inr ⟨by simp [heq], h⟩
    · rename_i hne
      rw [classNames, List.mem_singleton] at h
      exact .inl ⟨by simp [h], h ▸ hne⟩
  -- The arguments are kept under every head but the replaced one, so this case splits twice.
  | app head args ih =>
    unfold replaceClass at h
    split at h
    · rename_i heq
      have hname : name ∈ (app head args).classNames := by simp [heq]
      split at h
      · -- Only a bare class keeps the arguments, and it is the one class of the expansion.
        rename_i m
        rw [classNames] at h
        obtain rfl | h := List.mem_cons.1 h
        · exact .inr ⟨hname, by simp⟩
        · obtain ⟨hmem, hne⟩ | ⟨-, hmem⟩ := hall ih h
          · exact .inl ⟨List.mem_cons_of_mem _ hmem, hne⟩
          · exact .inr ⟨hname, hmem⟩
      · exact .inr ⟨hname, h⟩
    · rename_i hne
      rw [classNames] at h
      obtain rfl | h := List.mem_cons.1 h
      · exact .inl ⟨List.mem_cons_self, hne⟩
      · obtain ⟨hmem, hne⟩ | ⟨hname, hmem⟩ := hall ih h
        · exact .inl ⟨List.mem_cons_of_mem _ hmem, hne⟩
        · exact .inr ⟨List.mem_cons_of_mem _ hname, hmem⟩
  | var m bound constraints _ _ => cases h
  | union members optional ih => exact hall ih h
  | callable params result ellipsis ihp ihr =>
    rw [replaceClass, classNames] at h
    rw [classNames, List.mem_append, List.mem_append]
    obtain h | h := List.mem_append.1 h
    · exact (hall ihp h).imp (And.imp_left .inl) (And.imp_left .inl)
    · exact (ihr h).imp (And.imp_left .inr) (And.imp_left .inr)
  | typeOf operand ih => exact ih h
  | annotated inner metadata ih => exact ih h
  | literal values => cases h

end TypeShape.TypeExpr
