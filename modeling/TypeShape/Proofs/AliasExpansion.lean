import Mathlib.Data.Finset.Card
import Mathlib.Logic.Relation
import TypeShape.Proofs.Histories
import TypeShape.Proofs.StructuralEquality
import TypeShape.Registry.Alias

/-!
# Alias expansion does not depend on the order

A pass replaces one alias after the other, in some order that may differ from pass to pass.  If no
alias leads back to itself, the order makes no difference: there is one way of expanding an
expression in full, every step of a pass leaves it what it was, and every pass lowers the highest
rank of an alias that is still named.  The rank of an alias is at most the number of aliases, so
the passes allowed are enough.

The order is that of the tables that a run is given, one for each pass.

## Key results

- `Registry.exists_isExpansion`, `Registry.IsExpansion.unique`: there is exactly one full expansion
- `Registry.IsExpansion.expandPass`: a pass does not change the full expansion
- `Registry.rank_of_expandPass`: a pass lowers the highest rank
- `Registry.expandAliases_confluent`: expanding aliases in any order gives the full expansion
-/

namespace TypeShape

/-! ## Replacing all classes at once -/

namespace TypeExpr

mutual

/-- Replaces every class for which `f` gives an expression.  A replaced class that has arguments
keeps them only when the expression is a bare class.  The declarations of variables are not
entered. -/
def mapClasses (f : Text → Option TypeExpr) : TypeExpr → TypeExpr
  | omitted => omitted
  | con name => (f name).getD (con name)
  | app head args =>
    match f head with
    | none => app head (mapClassesAll f args)
    | some (con name) => app name (mapClassesAll f args)
    | some t => t
  | var name bound constraints => var name bound constraints
  | union members optional => union (mapClassesAll f members) optional
  | callable params result ellipsis =>
    callable (mapClassesAll f params) (mapClasses f result) ellipsis
  | typeOf operand => typeOf (mapClasses f operand)
  | annotated inner metadata => annotated (mapClasses f inner) metadata
  | literal values => literal values

/-- Replaces the classes of every member of a list. -/
def mapClassesAll (f : Text → Option TypeExpr) : List TypeExpr → List TypeExpr
  | [] => []
  | t :: ts => mapClasses f t :: mapClassesAll f ts

end

/-- Replacing classes in a list is replacing them in each expression. -/
theorem mapClassesAll_eq_map (f : Text → Option TypeExpr) (ts : List TypeExpr) :
    mapClassesAll f ts = ts.map (mapClasses f) := by
  induction ts with
  | nil => rfl
  | cons t ts ih => rw [mapClassesAll, ih, List.map_cons]

variable {f g : Text → Option TypeExpr}

/-- Only the classes that are named count. -/
theorem mapClasses_congr {t : TypeExpr} (h : ∀ n ∈ t.classNames, f n = g n) :
    t.mapClasses f = t.mapClasses g := by
  -- What the induction gives of each member, told of all members of a list.
  have hall : ∀ {ts : List TypeExpr}, (∀ t ∈ ts, (∀ n ∈ t.classNames, f n = g n) →
      t.mapClasses f = t.mapClasses g) → (∀ n ∈ classNamesAll ts, f n = g n) →
      mapClassesAll f ts = mapClassesAll g ts := by
    intro ts ih h
    rw [mapClassesAll_eq_map, mapClassesAll_eq_map]
    exact List.map_congr_left fun t ht => ih t ht fun n hn => h n (mem_classNamesAll.2 ⟨t, ht, hn⟩)
  induction t using induct with
  | omitted => rfl
  | con name => rw [mapClasses, mapClasses, h name (List.mem_singleton_self name)]
  | app head args ih =>
    rw [classNames, List.forall_mem_cons] at h
    simp only [mapClasses, h.1, hall ih h.2]
  | var name bound constraints _ _ => rfl
  | union members optional ih => rw [mapClasses, mapClasses, hall ih h]
  | callable params result ellipsis ihp ihr =>
    rw [classNames, List.forall_mem_append] at h
    rw [mapClasses, mapClasses, hall ihp h.1, ihr h.2]
  | typeOf operand ih => rw [mapClasses, mapClasses, ih h]
  | annotated inner metadata ih => rw [mapClasses, mapClasses, ih h]
  | literal values => rfl

/-- Without replacements, nothing changes. -/
theorem mapClasses_none (t : TypeExpr) : t.mapClasses (fun _ => none) = t := by
  have hall : ∀ {ts : List TypeExpr}, (∀ t ∈ ts, t.mapClasses (fun _ => none) = t) →
      mapClassesAll (fun _ => none) ts = ts := by
    intro ts ih
    rw [mapClassesAll_eq_map]
    exact (List.map_congr_left ih).trans (List.map_id' ts)
  -- The lists in an expression are settled by the assumptions about their members.
  induction t using induct with
  | omitted => rfl
  | con name => rfl
  | app head args ih => rw [mapClasses, hall ih]
  | var name bound constraints _ _ => rfl
  | union members optional ih => rw [mapClasses, hall ih]
  | callable params result ellipsis ihp ihr => rw [mapClasses, hall ihp, ihr]
  | typeOf operand ih => rw [mapClasses, ih]
  | annotated inner metadata ih => rw [mapClasses, ih]
  | literal values => rfl

/-- Where no class that is named is replaced, nothing changes. -/
theorem mapClasses_of_unnamed {t : TypeExpr} (h : ∀ n ∈ t.classNames, f n = none) :
    t.mapClasses f = t :=
  (mapClasses_congr h).trans (mapClasses_none t)

/-- Only a bare class becomes a bare class. -/
theorem eq_con_of_mapClasses {t : TypeExpr} {name : Text} (h : t.mapClasses f = con name) :
    ∃ n, t = con n := by
  -- Only a class with arguments could become another form, which keeps its arguments.
  cases t with
  | con n => exact ⟨n, rfl⟩
  | app head args =>
    rw [mapClasses] at h
    split at h
    · cases h
    · cases h
    · rename_i t hnot _
      exact absurd h (hnot name)
  | _ => cases h

end TypeExpr

namespace Registry

open TypeExpr
open Relation (TransGen)

variable {r : Registry}

/-! ## The full expansion -/

/-- An alias uses the classes that its expansion names.  What the declarations of variables name
does not count. -/
def AliasUses (r : Registry) (a b : Text) : Prop :=
  ∃ expansion, r.alias? a = some expansion ∧ b ∈ expansion.classNames

/-- No alias leads back to itself. -/
def AcyclicAliases (r : Registry) : Prop :=
  ∀ a, ¬ TransGen r.AliasUses a a

/-- A ranking that falls from every alias to what it uses shows that no alias leads back. -/
theorem acyclicAliases_of_ranking (ranking : Text → Nat)
    (h : ∀ entry ∈ r.aliases, ∀ b ∈ entry.2.classNames, ranking b < ranking entry.1) :
    r.AcyclicAliases := by
  -- The ranking falls along every path, and so no path comes back.
  have hfalls : ∀ a b, TransGen r.AliasUses a b → ranking b < ranking a := by
    intro a b hpath
    induction hpath with
    | single huses =>
      obtain ⟨expansion, ha, hb⟩ := huses
      exact h _ (Table.mem_of_find? ha) _ hb
    | tail _ huses ih =>
      obtain ⟨expansion, ha, hb⟩ := huses
      exact (h _ (Table.mem_of_find? ha) _ hb).trans ih
  exact fun a hpath => Nat.lt_irrefl _ (hfalls a a hpath)

/-- A function that expands expressions in full: every alias stands for what its expansion becomes
in full. -/
def IsExpansion (r : Registry) (full : TypeExpr → TypeExpr) : Prop :=
  ∀ t, full t = t.mapClasses fun n => (r.alias? n).map full

open Classical in
/-- The aliases that an alias leads to. -/
noncomputable def aliasesBelow (r : Registry) (a : Text) : Finset Text :=
  r.aliases.names.toFinset.filter (TransGen r.AliasUses a)

/-- What is below an alias: the aliases that it leads to. -/
theorem mem_aliasesBelow {a b : Text} :
    b ∈ r.aliasesBelow a ↔ b ∈ r.aliases.names ∧ TransGen r.AliasUses a b := by
  simp only [aliasesBelow, Finset.mem_filter, List.mem_toFinset]

/-- The rank of a name: 0 if it is no alias, and else one more than the number of aliases that it
leads to. -/
noncomputable def rank (r : Registry) (a : Text) : Nat :=
  if (r.alias? a).isSome then (r.aliasesBelow a).card + 1 else 0

/-- The names without a rank are those that are no aliases. -/
theorem rank_eq_zero {a : Text} : r.rank a = 0 ↔ r.alias? a = none := by
  unfold rank
  cases r.alias? a <;> simp

/-- An alias stands in the table of aliases. -/
theorem mem_names_of_alias? {a : Text} {expansion : TypeExpr} (h : r.alias? a = some expansion) :
    a ∈ r.aliases.names :=
  List.mem_map_of_mem (f := Prod.fst) (Table.mem_of_find? h)

/-- What an alias uses has a lower rank. -/
theorem rank_lt_of_uses (hacyclic : r.AcyclicAliases) {a b : Text} (h : r.AliasUses a b) :
    r.rank b < r.rank a := by
  -- An alias has one more than it has aliases below it, a name that is none has zero.
  obtain ⟨expansion, ha, -⟩ := id h
  cases hb : r.alias? b with
  | none => simp [rank, ha, hb]
  | some expansion' =>
    have hproper : r.aliasesBelow b ⊂ r.aliasesBelow a := by
      refine ⟨fun n hn => ?_, fun hsub => ?_⟩
      · rw [mem_aliasesBelow] at hn ⊢
        exact ⟨hn.1, .head h hn.2⟩
      · -- The alias `b` itself is below `a`, but not below `b`.
        have hmem := hsub (mem_aliasesBelow.2 ⟨mem_names_of_alias? hb, .single h⟩)
        exact hacyclic b (mem_aliasesBelow.1 hmem).2
    simpa [rank, ha, hb] using Finset.card_lt_card hproper

/-- No rank is higher than the number of aliases. -/
theorem rank_le (hacyclic : r.AcyclicAliases) (a : Text) : r.rank a ≤ r.aliases.length := by
  cases ha : r.alias? a with
  | none => simp [rank, ha]
  | some expansion =>
    -- The aliases below `a` are aliases other than `a`.
    have hproper : r.aliasesBelow a ⊂ r.aliases.names.toFinset := by
      refine ⟨fun n hn => List.mem_toFinset.2 (mem_aliasesBelow.1 hn).1, fun hsub => ?_⟩
      have hmem := hsub (List.mem_toFinset.2 (mem_names_of_alias? ha))
      exact hacyclic a (mem_aliasesBelow.1 hmem).2
    calc r.rank a = (r.aliasesBelow a).card + 1 := by simp [rank, ha]
      _ ≤ r.aliases.names.toFinset.card := Finset.card_lt_card hproper
      _ ≤ r.aliases.names.length := List.toFinset_card_le _
      _ = r.aliases.length := List.length_map _

/-- All classes that an expression names have at most a rank. -/
def RanksAtMost (r : Registry) (k : Nat) (t : TypeExpr) : Prop :=
  ∀ n ∈ t.classNames, r.rank n ≤ k

/-- An expression of rank zero names no alias. -/
theorem alias?_of_ranksAtMost_zero {t : TypeExpr} (h : r.RanksAtMost 0 t) :
    ∀ n ∈ t.classNames, r.alias? n = none :=
  fun n hn => rank_eq_zero.1 (Nat.le_zero.1 (h n hn))

/-- The expansion of an alias has a lower rank. -/
theorem RanksAtMost.expansion (hacyclic : r.AcyclicAliases) {k : Nat} {t : TypeExpr}
    (h : r.RanksAtMost (k + 1) t) {n : Text} (hn : n ∈ t.classNames) {expansion : TypeExpr}
    (halias : r.alias? n = some expansion) : r.RanksAtMost k expansion := by
  intro m hm
  have hlt := rank_lt_of_uses hacyclic ⟨expansion, halias, hm⟩
  have hle := h n hn
  omega

/-- The expansion that follows aliases up to a number of levels. -/
def expandLevels (r : Registry) : Nat → TypeExpr → TypeExpr
  | 0, t => t
  | k + 1, t => t.mapClasses fun n => (r.alias? n).map (r.expandLevels k)

/-- As many levels as the highest rank are enough. -/
theorem expandLevels_succ (hacyclic : r.AcyclicAliases) {k : Nat} {t : TypeExpr}
    (h : r.RanksAtMost k t) : r.expandLevels (k + 1) t = r.expandLevels k t := by
  -- By induction on the rank; without any rank no class of the expression is an alias.
  induction k generalizing t with
  | zero =>
    refine mapClasses_of_unnamed fun n hn => ?_
    rw [alias?_of_ranksAtMost_zero h n hn]
    rfl
  | succ k ih =>
    refine mapClasses_congr fun n hn => ?_
    cases halias : r.alias? n with
    | none => rfl
    | some expansion => exact congrArg some (ih (h.expansion hacyclic hn halias))

/-- Expressions can be expanded in full. -/
theorem exists_isExpansion (hacyclic : r.AcyclicAliases) : ∃ full, r.IsExpansion full := by
  refine ⟨r.expandLevels r.aliases.length, fun t => ?_⟩
  exact (expandLevels_succ hacyclic fun n _ => rank_le hacyclic n).symm

/-- There is only one full expansion. -/
theorem IsExpansion.unique (hacyclic : r.AcyclicAliases) {full other : TypeExpr → TypeExpr}
    (hfull : r.IsExpansion full) (hother : r.IsExpansion other) : other = full := by
  -- By induction on the highest rank of an alias that is named.
  have hranks : ∀ k t, r.RanksAtMost k t → other t = full t := by
    intro k
    induction k with
    | zero =>
      intro t h
      have hnone := alias?_of_ranksAtMost_zero h
      rw [hfull, hother]
      exact mapClasses_congr fun n hn => by rw [hnone n hn]; rfl
    | succ k ih =>
      intro t h
      rw [hfull, hother]
      refine mapClasses_congr fun n hn => ?_
      cases halias : r.alias? n with
      | none => rfl
      | some expansion => exact congrArg some (ih _ (h.expansion hacyclic hn halias))
  exact funext fun t => hranks _ t fun n _ => rank_le hacyclic n

/-- What names no alias is its own expansion. -/
theorem IsExpansion.of_unnamed {full : TypeExpr → TypeExpr} (hfull : r.IsExpansion full)
    {t : TypeExpr} (h : ∀ n ∈ t.classNames, r.alias? n = none) : full t = t := by
  rw [hfull]
  exact mapClasses_of_unnamed fun n hn => by rw [h n hn]; rfl

/-! ## One step of a pass -/

/-- Replacing an alias does not change the full expansion. -/
theorem IsExpansion.replaceClass {full : TypeExpr → TypeExpr} (hfull : r.IsExpansion full)
    {a : Text} {expansion : TypeExpr} (ha : r.alias? a = some expansion) (t : TypeExpr) :
    (full (TypeExpr.replaceClass a expansion t)).core = (full t).core := by
  have hall : ∀ {ts : List TypeExpr},
      (∀ t ∈ ts, (full (TypeExpr.replaceClass a expansion t)).core = (full t).core) →
      coreAll (mapClassesAll (fun n => (r.alias? n).map full) (replaceClassAll a expansion ts)) =
        coreAll (mapClassesAll (fun n => (r.alias? n).map full) ts) := by
    intro ts ih
    rw [replaceClassAll_eq_map, mapClassesAll_eq_map, mapClassesAll_eq_map, coreAll_eq_map,
      coreAll_eq_map, List.map_map, List.map_map, List.map_map]
    refine List.map_congr_left fun t ht => ?_
    have hstep := ih t ht
    rwa [hfull, hfull t] at hstep
  -- By induction on the expression: the alias is a full expansion away from its name, wherever it
  -- stands.
  induction t using induct with
  | omitted => rfl
  | con n =>
    rw [TypeExpr.replaceClass]
    split
    · rename_i heq
      rw [hfull (.con n), mapClasses, heq, ha]
      rfl
    · rfl
  | app head args ih =>
    have hargs := hall ih
    rw [hfull (.app head args), mapClasses]
    by_cases hhead : head = a
    · subst hhead
      rw [ha, Option.map_some]
      by_cases hbare : ∃ n, expansion = .con n
      · -- The arguments are kept for now; what becomes of them is up to the bare class.
        obtain ⟨n, rfl⟩ := hbare
        rw [TypeExpr.replaceClass, if_pos rfl, hfull (.app n _), hfull (.con n), mapClasses,
          mapClasses]
        cases (r.alias? n).map full with
        | none => simp only [Option.getD_none, core, hargs]
        | some t => cases t <;> simp only [Option.getD_some, core, hargs]
      · rw [replaceClass_app_of_not_con fun n heq => hbare ⟨n, heq⟩]
        split
        · rename_i heq
          cases heq
        · rename_i n heq
          rw [hfull] at heq
          exact absurd (eq_con_of_mapClasses (Option.some.inj heq)) hbare
        · rename_i heq
          rw [Option.some.inj heq]
    · rw [replaceClass_app_of_ne hhead, hfull, mapClasses]
      cases (r.alias? head).map full with
      | none => simp only [core, hargs]
      | some t => cases t <;> simp only [core, hargs]
  | var n bound constraints _ _ =>
    rw [TypeExpr.replaceClass, hfull, hfull (.var n bound constraints)]
    rfl
  | union members optional ih =>
    rw [TypeExpr.replaceClass, hfull, hfull (.union members optional), mapClasses, mapClasses, core,
      core, hall ih]
  | callable params result ellipsis ihp ihr =>
    rw [TypeExpr.replaceClass, hfull, hfull (.callable params result ellipsis), mapClasses,
      mapClasses, core, core, hall ihp, ← hfull, ← hfull, ihr]
  | typeOf operand ih =>
    rw [TypeExpr.replaceClass, hfull, hfull (.typeOf operand), mapClasses, mapClasses, core, core,
      ← hfull, ← hfull, ih]
  | annotated inner metadata ih =>
    rw [TypeExpr.replaceClass, hfull, hfull (.annotated inner metadata), mapClasses, mapClasses,
      core, core, ← hfull, ← hfull, ih]
  | literal values => rfl

/-- Replacing an alias takes its name away, and names nothing of the highest rank anew. -/
theorem RanksAtMost.replaceClass (hacyclic : r.AcyclicAliases) {k : Nat} {t : TypeExpr}
    (h : r.RanksAtMost (k + 1) t) {a : Text} {expansion : TypeExpr}
    (ha : r.alias? a = some expansion) :
    r.RanksAtMost (k + 1) (TypeExpr.replaceClass a expansion t) ∧
      ∀ n ∈ (TypeExpr.replaceClass a expansion t).classNames, k < r.rank n →
        n ∈ t.classNames ∧ n ≠ a := by
  -- A name either stood there before, or is one that the alias uses and ranks lower.
  have hnamed : ∀ n ∈ (TypeExpr.replaceClass a expansion t).classNames,
      n ∈ t.classNames ∧ n ≠ a ∨ r.rank n ≤ k := by
    intro n hn
    obtain hkept | ⟨hat, hne⟩ := mem_classNames_replaceClass hn
    · exact .inl hkept
    · exact .inr (h.expansion hacyclic hat ha n hne)
  constructor
  · intro n hn
    obtain hkept | hlow := hnamed n hn
    · exact h n hkept.1
    · omega
  · intro n hn hhigh
    exact (hnamed n hn).resolve_right (by omega)

/-! ## A pass -/

section

variable {order : Table TypeExpr} (horder : ∀ entry ∈ order, r.alias? entry.1 = some entry.2)

include horder

/-- A pass does not change the full expansion. -/
theorem IsExpansion.expandPass {full : TypeExpr → TypeExpr} (hfull : r.IsExpansion full)
    (t : TypeExpr) (changed : Bool) :
    (full (Registry.expandPass order (t, changed)).1).core = (full t).core := by
  -- By induction on the aliases of the pass; each replacement keeps the full expansion.
  induction order generalizing t changed with
  | nil => rfl
  | cons entry order ih =>
    obtain ⟨a, expansion⟩ := entry
    obtain ⟨ha, horder⟩ := List.forall_mem_cons.1 horder
    simp only [Registry.expandPass]
    split
    · exact ih horder t changed
    · exact (ih horder _ true).trans (hfull.replaceClass ha t)

/-- What a pass leaves of the highest rank was named before, by none of the aliases of the pass. -/
theorem RanksAtMost.expandPass (hacyclic : r.AcyclicAliases) {k : Nat} {t : TypeExpr}
    (h : r.RanksAtMost (k + 1) t) (changed : Bool) :
    r.RanksAtMost (k + 1) (Registry.expandPass order (t, changed)).1 ∧
      ∀ n ∈ (Registry.expandPass order (t, changed)).1.classNames, k < r.rank n →
        n ∈ t.classNames ∧ n ∉ Table.names order := by
  -- By induction on the order of the pass.
  induction order generalizing t changed with
  | nil => exact ⟨h, fun n hn _ => ⟨hn, List.not_mem_nil⟩⟩
  | cons entry order ih =>
    obtain ⟨a, expansion⟩ := entry
    obtain ⟨ha, horder⟩ := List.forall_mem_cons.1 horder
    obtain ⟨hnext, hkept⟩ := h.replaceClass hacyclic ha
    have hnames : ∀ n, n ≠ a → n ∉ Table.names order → n ∉ Table.names ((a, expansion) :: order) :=
      fun n hne hn hmem => (List.mem_cons.1 hmem).elim hne hn
    simp only [Registry.expandPass]
    split
    · -- A step that is dropped would have left the same names.
      rename_i hsame
      obtain ⟨hranks, hhigh⟩ := ih horder h changed
      refine ⟨hranks, fun n hn hrank => ?_⟩
      obtain ⟨hmem, hnew⟩ := hhigh n hn hrank
      rw [← classNames_of_same hsame] at hmem
      obtain ⟨hmem, hne⟩ := hkept n hmem hrank
      exact ⟨hmem, hnames n hne hnew⟩
    · obtain ⟨hranks, hhigh⟩ := ih horder hnext true
      refine ⟨hranks, fun n hn hrank => ?_⟩
      obtain ⟨hmem, hnew⟩ := hhigh n hn hrank
      obtain ⟨hmem, hne⟩ := hkept n hmem hrank
      exact ⟨hmem, hnames n hne hnew⟩

omit horder in
/-- Once a step has made a difference, the pass has. -/
theorem expandPass_true (t : TypeExpr) : (Registry.expandPass order (t, true)).2 = true := by
  induction order generalizing t with
  | nil => rfl
  | cons entry order ih =>
    simp only [Registry.expandPass]
    split <;> exact ih _

/-- A pass that makes no difference has met none of its aliases. -/
theorem not_mem_of_expandPass (hacyclic : r.AcyclicAliases) {t next : TypeExpr} {changed : Bool}
    (h : Registry.expandPass order (t, changed) = (next, false)) :
    next = t ∧ ∀ n ∈ Table.names order, n ∉ t.classNames := by
  induction order generalizing t changed with
  | nil =>
    cases h
    exact ⟨rfl, fun n hn => absurd hn List.not_mem_nil⟩
  | cons entry order ih =>
    obtain ⟨a, expansion⟩ := entry
    obtain ⟨ha, horder⟩ := List.forall_mem_cons.1 horder
    simp only [Registry.expandPass] at h
    split at h
    · rename_i hsame
      obtain ⟨rfl, hrest⟩ := ih horder h
      refine ⟨rfl, List.forall_mem_cons.2 ⟨fun hmem => ?_, hrest⟩⟩
      -- Replacing the alias would have taken its name away.
      rw [← classNames_of_same hsame] at hmem
      obtain ⟨-, hne⟩ | ⟨-, hself⟩ := mem_classNames_replaceClass hmem
      · exact hne rfl
      · exact hacyclic a (.single ⟨expansion, ha, hself⟩)
    · have hflag : (Registry.expandPass order (TypeExpr.replaceClass a expansion t, true)).2 =
          true := expandPass_true _
      rw [h] at hflag
      cases hflag

end

/-! ## A run of passes -/

/-- Repeats passes as long as they make a difference, each in an order of its own. -/
def expandInOrders : List (Table TypeExpr) → TypeExpr → TypeExpr
  | [], t => t
  | order :: orders, t =>
    match expandPass order (t, false) with
    | (next, true) => expandInOrders orders next
    | (next, false) => next

/-- No alias is entered twice. -/
def DistinctAliases (r : Registry) : Prop :=
  (Table.names r.aliases).Nodup

/-- Entering a thing enters no alias twice. -/
theorem Entry.distinctAliases {r' : Registry} (h : Entry r r') (hr : r.DistinctAliases) :
    r'.DistinctAliases := by
  cases h with
  | name h => cases h <;> exact hr
  | side h =>
    cases h with
    | aliasOf name t _ _ => exact Table.nodup_names_put hr name t
    | hostType => exact hr
    | typer => exact hr
  | ownParam => exact hr

/-- No registry of a history has an alias twice. -/
theorem distinctAliases_of_mem_pool (history : List Event) :
    ∀ r ∈ pool history, r.DistinctAliases :=
  pool_keeps (fun _ _ => Entry.distinctAliases) List.nodup_nil history

/-- Orders for the passes of a run: one more than there are aliases, and each goes through all
aliases. -/
structure Orders (r : Registry) (orders : List (Table TypeExpr)) : Prop where
  length_eq : orders.length = r.aliases.length + 1
  perm : ∀ order ∈ orders, order.Perm r.aliases

/-- Expanding in passes is expanding in the same order again and again. -/
theorem expandPasses_eq_expandInOrders (aliases : Table TypeExpr) (n : Nat) (t : TypeExpr) :
    expandPasses aliases n t = expandInOrders (List.replicate n aliases) t := by
  induction n generalizing t with
  | zero => rfl
  | succ n ih =>
    rw [expandPasses, List.replicate_succ, expandInOrders]
    rcases expandPass aliases (t, false) with ⟨next, _ | _⟩
    · rfl
    · exact ih next

/-- Aliases are expanded in the order of their table, pass after pass. -/
theorem exists_orders (r : Registry) :
    ∃ orders, r.Orders orders ∧ ∀ t, r.expandAliases t = expandInOrders orders t := by
  refine ⟨List.replicate (r.aliases.length + 1) r.aliases, ⟨List.length_replicate, ?_⟩, fun t => ?_⟩
  · intro order horder
    rw [List.eq_of_mem_replicate horder]
  · unfold expandAliases
    split
    · rename_i hempty
      rw [List.isEmpty_iff.1 hempty]
      rfl
    · exact expandPasses_eq_expandInOrders _ _ t

/-- An order of all aliases lists each with what it stands for. -/
theorem alias?_of_perm (hdistinct : r.DistinctAliases) {order : Table TypeExpr}
    (h : order.Perm r.aliases) : ∀ entry ∈ order, r.alias? entry.1 = some entry.2 :=
  fun _ hentry => Table.find?_of_mem hdistinct (h.subset hentry)

/-- A pass through all aliases lowers the highest rank. -/
theorem rank_of_expandPass (hdistinct : r.DistinctAliases) (hacyclic : r.AcyclicAliases)
    {order : Table TypeExpr} (h : order.Perm r.aliases) {k : Nat} {t : TypeExpr}
    (ht : r.RanksAtMost (k + 1) t) (changed : Bool) :
    r.RanksAtMost k (Registry.expandPass order (t, changed)).1 := by
  intro n hn
  by_contra hhigh
  have hrank : k < r.rank n := Nat.lt_of_not_le hhigh
  obtain ⟨-, hleft⟩ := ht.expandPass (alias?_of_perm hdistinct h) hacyclic changed
  -- A name that has a rank is an alias, and the pass goes through all of them.
  have halias : r.alias? n ≠ none := fun hnone => by
    rw [rank_eq_zero.2 hnone] at hrank
    cases hrank
  obtain ⟨expansion, hn'⟩ := Option.ne_none_iff_exists'.1 halias
  have hmem : n ∈ Table.names order := (h.map Prod.fst).symm.subset (mem_names_of_alias? hn')
  exact (hleft n hn hrank).2 hmem

section

variable (hdistinct : r.DistinctAliases) (hacyclic : r.AcyclicAliases)

include hdistinct hacyclic

/-- As many passes as the highest rank take all aliases away. -/
theorem alias?_of_expandInOrders {orders : List (Table TypeExpr)}
    (h : ∀ order ∈ orders, order.Perm r.aliases) {t : TypeExpr}
    (ht : r.RanksAtMost orders.length t) :
    ∀ n ∈ (expandInOrders orders t).classNames, r.alias? n = none := by
  induction orders generalizing t with
  | nil => exact alias?_of_ranksAtMost_zero ht
  -- By induction on the orders; a pass that makes no difference ends the run.
  | cons order orders ih =>
    obtain ⟨horder, horders⟩ := List.forall_mem_cons.1 h
    have hranks := rank_of_expandPass hdistinct hacyclic horder ht false
    rw [expandInOrders]
    split
    · rename_i next hpass
      rw [hpass] at hranks
      exact ih horders hranks
    · rename_i next hpass
      obtain ⟨rfl, hnone⟩ :=
        not_mem_of_expandPass (alias?_of_perm hdistinct horder) hacyclic hpass
      intro n hn
      by_contra halias
      obtain ⟨expansion, hn'⟩ := Option.ne_none_iff_exists'.1 halias
      exact hnone n ((horder.map Prod.fst).symm.subset (mem_names_of_alias? hn')) hn

/-- There are passes enough for the highest rank. -/
theorem alias?_of_orders {orders : List (Table TypeExpr)} (h : r.Orders orders) (t : TypeExpr) :
    ∀ n ∈ (expandInOrders orders t).classNames, r.alias? n = none := by
  refine alias?_of_expandInOrders hdistinct hacyclic h.perm fun n _ => ?_
  have hrank := rank_le hacyclic n
  rw [h.length_eq]
  omega

omit hacyclic in
/-- No run changes the full expansion. -/
theorem IsExpansion.expandInOrders {full : TypeExpr → TypeExpr} (hfull : r.IsExpansion full)
    {orders : List (Table TypeExpr)} (h : ∀ order ∈ orders, order.Perm r.aliases) (t : TypeExpr) :
    (full (Registry.expandInOrders orders t)).core = (full t).core := by
  -- By induction on the passes that are left.
  induction orders generalizing t with
  | nil => rfl
  | cons order orders ih =>
    obtain ⟨horder, horders⟩ := List.forall_mem_cons.1 h
    have hstep := hfull.expandPass (alias?_of_perm hdistinct horder) t false
    rw [Registry.expandInOrders]
    split
    · rename_i next hpass
      rw [hpass] at hstep
      exact (ih horders next).trans hstep
    · rename_i next hpass
      rwa [hpass] at hstep

/-- A run in any order gives the full expansion. -/
theorem IsExpansion.core_expandInOrders {full : TypeExpr → TypeExpr} (hfull : r.IsExpansion full)
    {orders : List (Table TypeExpr)} (h : r.Orders orders) (t : TypeExpr) :
    (Registry.expandInOrders orders t).core = (full t).core := by
  have hnone := alias?_of_orders hdistinct hacyclic h t
  calc (Registry.expandInOrders orders t).core
      = (full (Registry.expandInOrders orders t)).core := by rw [hfull.of_unnamed hnone]
    _ = (full t).core := hfull.expandInOrders hdistinct h.perm t

end

/-- If no alias leads back to itself, then there is exactly one full expansion, and it is what a run
gives, whatever the orders of its passes.  No alias is left, and another run changes nothing. -/
theorem expandAliases_confluent (r : Registry) (hdistinct : r.DistinctAliases)
    (hacyclic : r.AcyclicAliases) :
    (∃ orders, r.Orders orders ∧ ∀ t, r.expandAliases t = expandInOrders orders t) ∧
    ∃ full, r.IsExpansion full ∧ (∀ other, r.IsExpansion other → other = full) ∧
      ∀ orders, r.Orders orders → ∀ t,
        (expandInOrders orders t).same (full t) = true ∧
        (∀ n ∈ (expandInOrders orders t).classNames, r.alias? n = none) ∧
        ∀ orders', r.Orders orders' →
          (expandInOrders orders t).same (expandInOrders orders' t) = true ∧
          (expandInOrders orders' (expandInOrders orders t)).same (expandInOrders orders t) =
            true := by
  obtain ⟨full, hfull⟩ := exists_isExpansion hacyclic
  -- Whatever the orders, a run gives the full expansion up to what structural equality ignores.
  have hcore : ∀ orders, r.Orders orders → ∀ t, (expandInOrders orders t).core = (full t).core :=
    fun orders h t => hfull.core_expandInOrders hdistinct hacyclic h t
  have hnone : ∀ orders, r.Orders orders → ∀ t,
      ∀ n ∈ (expandInOrders orders t).classNames, r.alias? n = none :=
    fun orders h t => alias?_of_orders hdistinct hacyclic h t
  refine ⟨r.exists_orders, full, hfull, fun other hother => hfull.unique hacyclic hother,
    fun orders h t => ⟨?_, hnone orders h t, fun orders' h' => ⟨?_, ?_⟩⟩⟩
  · exact (same_iff_core _ _).2 (hcore orders h t)
  · exact (same_iff_core _ _).2 ((hcore orders h t).trans (hcore orders' h' t).symm)
  · -- What names no alias is its own full expansion.
    refine (same_iff_core _ _).2 ((hcore orders' h' _).trans ?_)
    rw [hfull.of_unnamed (hnone orders h t)]

/-- A list of rows, told by an alias for lists, with an optional type of cells. -/
theorem expandAliases_confluent_rows :
    let r : Registry := { builtin with aliases :=
      [(text "Rows", .app (text "Seq") [.con (text "Row")]),
        (text "Row", .app Name.map [.con Name.string, .con (text "Cell")]),
        (text "Seq", .con Name.list), (text "Cell", .optionalOf (.con Name.int))] }
    r.DistinctAliases ∧ r.AcyclicAliases ∧
      ∀ orders, r.Orders orders →
        (expandInOrders orders (.con (text "Rows"))).same
          (.app Name.list [.app Name.map [.con Name.string, .optionalOf (.con Name.int)]]) =
            true := by
  intro r
  have hdistinct : r.DistinctAliases := by
    unfold DistinctAliases
    decide
  have hacyclic : r.AcyclicAliases := by
    -- Three levels of aliases: `Rows` uses two others, of which `Row` uses the last.
    refine acyclicAliases_of_ranking (fun n => if n = text "Rows" then 3
      else if n = text "Row" then 2 else if r.aliases.has n then 1 else 0) ?_
    decide
  refine ⟨hdistinct, hacyclic, fun orders horders => ?_⟩
  obtain ⟨⟨orders', horders', htable⟩, _, -, -, hconfluent⟩ :=
    r.expandAliases_confluent hdistinct hacyclic
  have hsame := ((hconfluent orders horders (.con (text "Rows"))).2.2 orders' horders').1
  rw [← htable] at hsame
  exact hsame

end Registry

end TypeShape
