import Mathlib.Data.List.Count
import TypeShape.Value.Inference

/-!
# Shapes of host types

A pointer type has the shape of the type at the end of its chain of pointers.  A definition may lead
a chain back to where it has been, so following it keeps the types seen.  The limit on its steps is
never reached: a step leads to a type that a pointer spells out, in the first type or in a
definition, and there are no more of these than steps.  What the shape of a type is given of depth,
it spends one by one on containers, and every container has at most two levels of its own.

## Key results

- `HostType.chases_pointee`: following a chain of pointer types ends without a limit on its steps
- `Registry.depth_hostShape_le`: the depth of the shape of a host type
-/

namespace TypeShape

namespace HostType

variable {definitions : Table HostType}

/-! ## Identical types -/

mutual

/-- Every host type is identical to itself. -/
@[simp] theorem same_refl : ∀ t : HostType, t.same t = true
  | bool | complex | string | any | tuple | struct => rfl
  | int kind => by simp [same]
  | float width => by simp [same]
  | interface name | named name => by simp [same]
  | slice t | pointer t | channel t => by
    rw [same]
    exact same_refl t
  | array n t => by
    rw [same, same_refl t, beq_self_eq_true, Bool.and_self]
  | map k v => by
    rw [same, same_refl k, same_refl v, Bool.and_self]
  | func params results variadic => by
    rw [same, sameAll_refl params, sameAll_refl results, beq_self_eq_true, Bool.and_self,
      Bool.and_self]

/-- So is every list of them. -/
@[simp] theorem sameAll_refl : ∀ ts : List HostType, sameAll ts ts = true
  | [] => rfl
  | t :: ts => by
    rw [sameAll, same_refl t, sameAll_refl ts, Bool.and_self]

end

/-! ## Chains of pointer types -/

/-- How following a chain of pointer types goes: it ends at a type that is no pointer, or fails at a
type that was seen before.  There is no limit on its steps. -/
inductive Chases (definitions : Table HostType) :
    List HostType → HostType → Option HostType → Prop where
  | target {seen : List HostType} {t : HostType} : t.target? definitions = none →
    Chases definitions seen t (some t)
  | again {seen : List HostType} {t next : HostType} : t.target? definitions = some next →
    seen.any next.same = true → Chases definitions seen t none
  | next {seen : List HostType} {t next : HostType} {found : Option HostType} :
    t.target? definitions = some next → seen.any next.same = false →
    Chases definitions (next :: seen) next found → Chases definitions seen t found

/-- A chain ends in one way only. -/
theorem Chases.unique {seen : List HostType} {t : HostType} {found other : Option HostType}
    (h : Chases definitions seen t found) (h' : Chases definitions seen t other) :
    other = found := by
  -- By induction on the first chain; what a type points to decides the next step of both.
  induction h with
  | target hend =>
    cases h' with
    | target _ => rfl
    | again hnext _ | next hnext _ _ => rw [hend] at hnext; cases hnext
  | again hnext hseen =>
    cases h' with
    | target hend => rw [hend] at hnext; cases hnext
    | again _ _ => rfl
    | next hnext' hnew _ =>
      obtain rfl := Option.some.inj (hnext'.symm.trans hnext)
      rw [hseen] at hnew
      cases hnew
  | next hnext hnew _ ih =>
    cases h' with
    | target hend => rw [hend] at hnext; cases hnext
    | again hnext' hseen =>
      obtain rfl := Option.some.inj (hnext'.symm.trans hnext)
      rw [hseen] at hnew
      cases hnew
    | next hnext' _ h' =>
      obtain rfl := Option.some.inj (hnext'.symm.trans hnext)
      exact ih h'

/-- The types that the pointers spelled out in a type point to. -/
def targets : HostType → List HostType
  | pointer target => target :: targets target
  | _ => []

/-- A type spells out as many targets as it has pointers. -/
theorem length_targets (t : HostType) : t.targets.length = t.pointerSteps := by
  fun_induction targets t with
  | case1 target ih => rw [List.length_cons, ih, pointerSteps]
  | case2 t hne =>
    unfold pointerSteps
    split
    · exact absurd rfl (hne _)
    · rfl

/-- The target of a pointer type is spelled out in the type itself or in a definition. -/
theorem targets_of_target? {t next : HostType} (h : t.target? definitions = some next) :
    ∃ d, (d = t ∨ d ∈ definitions.map (·.2)) ∧ d.targets = next :: next.targets := by
  unfold target? at h
  split at h
  -- A named type stands for its definition, whose target is then spelled out there.
  · rename_i target hform
    cases h
    refine ⟨.pointer next, ?_, rfl⟩
    unfold form at hform
    split at hform
    · rename_i name
      cases hfind : definitions.find? name with
      | none => rw [hfind] at hform; cases hform
      | some d =>
        rw [hfind] at hform
        exact .inr (List.mem_map.2 ⟨(name, d), Table.mem_of_find? hfind, hform⟩)
    · exact .inl hform.symm
  · cases h

/-- The number of types that are identical to none of those seen. -/
def unseen (all seen : List HostType) : Nat :=
  all.countP fun t => !seen.any t.same

/-- A type that is seen for the first time is one fewer of those not seen. -/
theorem unseen_cons_lt {all seen : List HostType} {t : HostType} (ht : t ∈ all)
    (hnew : seen.any t.same = false) : unseen all (t :: seen) < unseen all seen := by
  have hle (ts : List HostType) : unseen ts (t :: seen) ≤ unseen ts seen :=
    List.countP_mono_left fun u _ hu => by simp_all
  obtain ⟨before, after, rfl⟩ := List.append_of_mem ht
  have hbefore := hle before
  have hafter := hle after
  simp only [unseen, List.countP_append, List.countP_cons, List.any_cons, same_refl, hnew] at *
  simp only [Bool.true_or, Bool.not_true, Bool.false_eq_true, if_false, Bool.not_false, if_true]
  omega

/-- With a step for each type that is spelled out and was not seen, a chain is followed to its
end. -/
theorem chases_pointeeFrom {all : List HostType}
    (hall : ∀ d ∈ definitions.map (·.2), d.targets ⊆ all) {fuel : Nat} {seen : List HostType}
    {t : HostType} (ht : t.targets ⊆ all) (hfuel : unseen all seen < fuel) :
    Chases definitions seen t (pointeeFrom definitions fuel seen t) := by
  -- By induction on the fuel.
  induction fuel generalizing seen t with
  | zero => omega
  | succ fuel ih =>
    rw [pointeeFrom]
    split
    · rename_i hend
      exact .target hend
    · rename_i next hnext
      split
      · rename_i hseen
        exact .again hnext hseen
      · rename_i hnew
        have hnew : seen.any next.same = false := by simpa using hnew
        obtain ⟨d, hd, htargets⟩ := targets_of_target? hnext
        -- The next type is spelled out, and so is all that its own pointers point to.
        have hsub : next :: next.targets ⊆ all := by
          rw [← htargets]
          obtain rfl | hd := hd
          · exact ht
          · exact hall d hd
        have hless := unseen_cons_lt (hsub List.mem_cons_self) hnew
        exact .next hnext hnew (ih (List.subset_of_cons_subset hsub) (by omega))

/-- Following a chain of pointer types ends without a limit on its steps. -/
theorem chases_pointee (definitions : Table HostType) (t : HostType) :
    Chases definitions [t] t (t.pointee definitions) := by
  let all := t.targets ++ definitions.flatMap (·.2.targets)
  have hall : ∀ d ∈ definitions.map (·.2), d.targets ⊆ all := by
    intro d hd u hu
    obtain ⟨entry, hentry, rfl⟩ := List.mem_map.1 hd
    exact List.mem_append_right _ (List.mem_flatMap.2 ⟨entry, hentry, hu⟩)
  -- The limit has one more step for each definition, and two for the type itself.
  have hlength : all.length ≤
      definitions.foldr (fun e n => e.2.pointerSteps + 1 + n) t.pointerSteps := by
    simp only [all, List.length_append, length_targets]
    clear hall
    induction definitions with
    | nil => simp
    | cons entry rest ih =>
      rw [List.flatMap_cons, List.length_append, length_targets, List.foldr_cons]
      omega
  have hcount : unseen all [t] ≤ all.length := List.countP_le_length
  have hfuel := Nat.lt_succ_of_le (Nat.le_succ_of_le (Nat.le_trans hcount hlength))
  exact chases_pointeeFrom hall (List.subset_append_left _ _) hfuel

end HostType

/-! ## Depths of shapes -/

namespace Shape

/-- A list is no deeper than its shapes. -/
theorem depthAll_le {ss : List Shape} {n : Nat} (h : ∀ s ∈ ss, s.depth ≤ n) : depthAll ss ≤ n := by
  induction ss with
  | nil => exact Nat.zero_le n
  | cons s ss ih =>
    obtain ⟨hs, hss⟩ := List.forall_mem_cons.1 h
    exact Nat.max_le.2 ⟨hs, ih hss⟩

/-- Slots that hold one shape each are as deep as the shapes. -/
theorem depthSlots_map_single (ss : List Shape) : depthSlots (ss.map .single) = depthAll ss := by
  induction ss with
  | nil => rfl
  | cons s ss ih => rw [List.map_cons, depthSlots, depthAll, ih]

/-- A class is one level deeper than its arguments. -/
theorem depth_ofClass_le (name : Text) {args : List Shape} {n : Nat}
    (h : ∀ s ∈ args, s.depth ≤ n) : (ofClass name args).depth ≤ n + 1 := by
  unfold ofClass
  split
  · exact Nat.le_add_left 1 n
  · rw [depth, depthSlots_map_single]
    exact Nat.succ_le_succ (depthAll_le h)

/-- A union is one level deeper than its branches. -/
theorem depth_unionOf_le {branches : List Shape} {n : Nat} (h : ∀ s ∈ branches, s.depth ≤ n) :
    (unionOf branches).depth ≤ n + 1 := by
  rw [unionOf, depth, depthSlots_map_single]
  exact Nat.succ_le_succ (depthAll_le h)

/-- A function is one level deeper than its parameters and its result. -/
theorem depth_callableOf_le {params : List Shape} {result : Shape} {n : Nat}
    (h : ∀ s ∈ params, s.depth ≤ n) (hresult : result.depth ≤ n) :
    (callableOf params result).depth ≤ n + 1 := by
  simp only [callableOf, depth, depthSlots]
  have hparams := depthAll_le h
  omega

end Shape

/-! ## Shapes of host types -/

namespace Registry

open Shape

/-- A layer has at most two levels of its own: that of a callable and that of the tuple of its
results. -/
theorem depth_hostLayer_le (r : Registry) (definitions : Table HostType)
    {inner : Option (HostType → Shape)} {n : Nat} (hn : 1 ≤ n)
    (hinner : ∀ f, inner = some f → ∀ t, (f t).depth + 2 ≤ n) (t : HostType) :
    (r.hostLayer definitions inner t).depth ≤ n := by
  have hparts {f : HostType → Shape} (hf : inner = some f) (ts : List HostType) :
      ∀ s ∈ ts.map f, s.depth ≤ n - 2 := by
    intro s hs
    obtain ⟨t, -, rfl⟩ := List.mem_map.1 hs
    have := hinner f hf t
    omega
  have hclass {f : HostType → Shape} (hf : inner = some f) (name : Text) (ts : List HostType) :
      (ofClass name (ts.map f)).depth + 1 ≤ n := by
    have hle := depth_ofClass_le name (hparts hf ts)
    have := hinner f hf .any
    omega
  unfold hostLayer
  split
  · exact hn
  split
  · exact hn
  cases t.form definitions with
  | slice elem | array _ elem =>
    cases inner with
    | none => exact hn
    | some f => exact Nat.le_of_succ_le (hclass rfl Name.list [elem])
  | map key value =>
    cases inner with
    | none => exact hn
    | some f => exact Nat.le_of_succ_le (hclass rfl Name.map [key, value])
  | func params results _ =>
    cases inner with
    | none => exact hn
    | some f =>
      have hpositive := hinner f rfl .any
      have hparams (s : Shape) (hs : s ∈ params.map f) : s.depth ≤ n - 1 :=
        Nat.le_trans (hparts rfl params s hs) (by omega)
      have hcallable {result : Shape} (hresult : result.depth + 1 ≤ n) :
          (callableOf (params.map f) result).depth ≤ n := by
        have hle := depth_callableOf_le hparams (Nat.le_sub_one_of_lt hresult)
        omega
      -- Only several results stand one level deeper than the parameters.
      match results with
      | [] =>
        have hleaf : (leaf Name.nil).depth + 1 ≤ n := by
          rw [leaf, depth]
          omega
        exact hcallable hleaf
      | [t] => exact hcallable (Nat.le_of_succ_le (hinner f rfl t))
      | t :: u :: ts => exact hcallable (hclass rfl Name.tuple (t :: u :: ts))
  | _ => exact hn

/-- The depth of the shape of a host type is at most twice the depth that it is given, and one. -/
theorem depth_hostShape_le (r : Registry) (definitions : Table HostType) (depth : Nat)
    (t : HostType) : (r.hostShape definitions depth t).depth ≤ 2 * depth + 1 := by
  -- A pointer type adds no level to the type at the end of its chain.
  have hstep {inner : Option (HostType → Shape)} {n : Nat} (hn : 1 ≤ n)
      (hinner : ∀ f, inner = some f → ∀ t, (f t).depth + 2 ≤ n) (t : HostType) :
      (r.hostShapeStep definitions inner t).depth ≤ n := by
    unfold hostShapeStep
    split
    · exact r.depth_hostLayer_le definitions hn hinner t
    split
    · exact hn
    split
    · exact hn
    · exact r.depth_hostLayer_le definitions hn hinner _
  -- By induction on the depth that is given: a layer takes one level of it and at most two of the
  -- shape.
  induction depth generalizing t with
  | zero => exact hstep (Nat.le_refl 1) (fun _ hnone => by cases hnone) t
  | succ depth ih =>
    refine hstep (by omega) ?_ t
    rintro f hf t
    cases hf
    have := ih t
    omega

end Registry

end TypeShape
