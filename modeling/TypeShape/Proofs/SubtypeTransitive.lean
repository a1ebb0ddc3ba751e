import TypeShape.Proofs.GroundShapes
import TypeShape.Proofs.Inheritance

/-!
# Transitivity of subtyping

On ground shapes the subtype check is transitive.  The proof is by induction on the depths of the
three shapes.  Two rules meet at the shape in the middle: that it is the same as one of its
neighbours, a union, the wildcard, or matched by inheritance and slot by slot on both sides.  The
middle may also be a type variable, if what restricts it is ground.

## Key results

- `Registry.nominallyFits_trans`: matching by inheritance and slot by slot composes
- `Registry.below_trans`: the check is transitive on ground shapes
- `Registry.below_trans_var`: and through a variable
- `Engine.isSubtype_trans`: so are the answers of the engine, up to its limit on depth
-/

namespace TypeShape

/-! ## Equal shapes -/

/-- An origin is the same as itself. -/
@[simp] theorem Origin.same_refl (o : Origin) : o.same o = true := by
  cases o <;> simp [Origin.same]

/-- Sameness of origins is symmetric. -/
theorem Origin.same_comm (a b : Origin) : a.same b = b.same a := by
  cases a <;> cases b <;> simp only [Origin.same]
  · grind
  · exact Bool.beq_comm

/-- Sameness of origins is transitive. -/
theorem Origin.same_trans {a b c : Origin} (hab : a.same b = true) (hbc : b.same c = true) :
    a.same c = true := by
  cases a <;> cases b <;> cases c <;> simp_all [Origin.same]
  grind

namespace Shape

mutual

/-- A shape is the same as itself. -/
@[simp] theorem same_refl : ∀ s : Shape, s.same s = true
  | .bare o => o.same_refl
  | .applied o slots => by simp [sameSlots_refl slots]

/-- The same of a list of slots. -/
@[simp] theorem sameSlots_refl : ∀ slots : List Slot, sameSlots slots slots = true
  | [] => rfl
  | .single s :: rest => by simp [same_refl s, sameSlots_refl rest]
  | .group ss :: rest => by simp [sameAll_refl ss, sameSlots_refl rest]

/-- The same of a list of shapes. -/
theorem sameAll_refl : ∀ ss : List Shape, sameAll ss ss = true
  | [] => rfl
  | s :: rest => by simp [same_refl s, sameAll_refl rest]

end

mutual

/-- Sameness of shapes is symmetric. -/
theorem same_comm : ∀ a b : Shape, a.same b = b.same a
  | .bare o, .bare p => by rw [same, same, o.same_comm]
  | .applied o as, .applied p bs => by rw [same, same, o.same_comm, sameSlots_comm as bs]
  | .bare _, .applied _ _ | .applied _ _, .bare _ => rfl

/-- The same of a list of slots. -/
theorem sameSlots_comm : ∀ as bs : List Slot, sameSlots as bs = sameSlots bs as
  | [], [] | [], .single _ :: _ | [], .group _ :: _ | .single _ :: _, [] | .group _ :: _, []
  | .single _ :: _, .group _ :: _ | .group _ :: _, .single _ :: _ => rfl
  | .single a :: as, .single b :: bs => by
    rw [sameSlots, sameSlots, same_comm a b, sameSlots_comm as bs]
  | .group a :: as, .group b :: bs => by
    rw [sameSlots, sameSlots, sameAll_comm a b, sameSlots_comm as bs]

/-- The same of a list of shapes. -/
theorem sameAll_comm : ∀ as bs : List Shape, sameAll as bs = sameAll bs as
  | [], [] | [], _ :: _ | _ :: _, [] => rfl
  | a :: as, b :: bs => by rw [sameAll, sameAll, same_comm a b, sameAll_comm as bs]

end

/-- What is the same is so in both directions. -/
theorem same_symm {a b : Shape} (h : a.same b = true) : b.same a = true :=
  (same_comm b a).trans h

mutual

/-- Sameness of shapes is transitive. -/
theorem same_trans : ∀ {a b c : Shape}, a.same b = true → b.same c = true → a.same c = true
  | .bare _, .bare _, .bare _, hab, hbc => by
    simp only [same] at *
    exact Origin.same_trans hab hbc
  | .applied _ _, .applied _ _, .applied _ _, hab, hbc => by
    simp only [same, Bool.and_eq_true] at *
    exact ⟨Origin.same_trans hab.1 hbc.1, sameSlots_trans hab.2 hbc.2⟩
  | .bare _, .applied _ _, _, hab, _ => by simp at hab
  | .applied _ _, .bare _, _, hab, _ => by simp at hab
  | .bare _, .bare _, .applied _ _, _, hbc => by simp at hbc
  | .applied _ _, .applied _ _, .bare _, _, hbc => by simp at hbc

/-- The same of lists of slots. -/
theorem sameSlots_trans : ∀ {as bs cs : List Slot}, sameSlots as bs = true →
    sameSlots bs cs = true → sameSlots as cs = true
  | [], bs, cs, hab, hbc => by
    cases bs with
    | nil => exact hbc
    | cons b bs => simp at hab
  | .single a :: as, bs, cs, hab, hbc => by
    -- Single slots are only the same as single ones, and groups as groups.
    rcases bs with _ | ⟨b | b, bs⟩ <;> simp at hab
    rcases cs with _ | ⟨c | c, cs⟩ <;> simp at hbc
    simp [same_trans hab.1 hbc.1, sameSlots_trans hab.2 hbc.2]
  | .group a :: as, bs, cs, hab, hbc => by
    rcases bs with _ | ⟨b | b, bs⟩ <;> simp at hab
    rcases cs with _ | ⟨c | c, cs⟩ <;> simp at hbc
    simp [sameAll_trans hab.1 hbc.1, sameSlots_trans hab.2 hbc.2]

/-- The same of lists of shapes. -/
theorem sameAll_trans : ∀ {as bs cs : List Shape}, sameAll as bs = true →
    sameAll bs cs = true → sameAll as cs = true
  | [], bs, cs, hab, hbc => by
    cases bs with
    | nil => exact hbc
    | cons b bs => simp at hab
  | a :: as, bs, cs, hab, hbc => by
    cases bs with
    | nil => simp at hab
    | cons b bs =>
      cases cs with
      | nil => simp at hbc
      | cons c cs =>
        simp only [sameAll, Bool.and_eq_true] at *
        exact ⟨same_trans hab.1 hbc.1, sameAll_trans hab.2 hbc.2⟩

end

/-- Equal shapes have equal roots, and both carry slots or neither does. -/
theorem roots_of_same {a b : Shape} (h : a.same b = true) :
    a.origin.same b.origin = true ∧ a.isParameterized = b.isParameterized ∧
      sameSlots a.slots b.slots = true := by
  cases a <;> cases b <;> simp_all

/-- Shapes that are the same are of the same kind. -/
theorem hasKind_of_same {a b : Shape} (h : a.same b = true) (kind : OriginKind) :
    a.hasKind kind = b.hasKind kind := by
  have hroot := (roots_of_same h).1
  unfold hasKind
  cases ha : a.origin <;> cases hb : b.origin <;> simp_all [Origin.same, Origin.kind?]

/-- The wildcard is no union. -/
theorem isUnion_of_isAny {s : Shape} (h : s.isAny = true) : s.isUnion = false := by
  unfold isAny hasKind at h
  unfold isUnion hasKind
  rw [beq_iff_eq.1 h]
  rfl

/-- Two lists are the same if they are so member by member. -/
theorem sameAll_iff_forall₂ {as bs : List Shape} :
    sameAll as bs = true ↔ List.Forall₂ (fun a b => a.same b = true) as bs := by
  induction as generalizing bs with
  | nil => cases bs <;> simp
  | cons a as ih => cases bs <;> simp [ih]

/-- Equal slots hold equal shapes. -/
theorem forall₂_slotShapes_of_sameSlots {as bs : List Slot} (h : sameSlots as bs = true) :
    List.Forall₂ (fun a b => a.same b = true) (slotShapes as) (slotShapes bs) := by
  -- By induction on the slots; groups hold as many shapes, one like the other.
  induction as generalizing bs with
  | nil =>
    cases bs with
    | nil => exact .nil
    | cons b bs => simp at h
  | cons a as ih =>
    rcases a with a | a <;> rcases bs with _ | ⟨b | b, bs⟩ <;>
      simp only [sameSlots, Bool.and_eq_true, Bool.false_eq_true] at h
    · exact .cons h.1 (ih h.2)
    · exact List.rel_append (sameAll_iff_forall₂.1 h.1) (ih h.2)

end Shape

namespace Registry

open Shape

variable {r : Registry} {see : View} {sub : Shape → Shape → Prop} {a b c : Shape}

/-! ## Matching by inheritance -/

/-- Roots that match, other than those of variables, are of one kind. -/
theorem kinds_of_originSatisfies (ha : a.var? = none) (hb : b.isObject = false)
    (h : r.originSatisfies a b = true) : ∃ kind m n, a.origin = .plain kind m ∧
      b.origin = .plain kind n ∧ (kind = .nominal → r.isSubclass m n = true) := by
  -- Of the pairs of roots, only two of one kind match; classes have to be in order, too.
  simp only [originSatisfies, hb, Bool.false_or] at h
  cases hao : a.origin with
  | hole => simp [hao] at h
  | var v => simp [Shape.var?, hao] at ha
  | plain k m =>
    cases hbo : b.origin with
    | hole => cases k <;> simp [hao, hbo] at h
    | var v => cases k <;> simp [hao, hbo] at h
    | plain l n =>
      rw [hao, hbo] at h
      obtain rfl : k = l := by cases k <;> cases l <;> first | rfl | cases h
      exact ⟨k, m, n, rfl, rfl, fun hk => by subst hk; exact h⟩

/-- Roots of one kind match, classes if the first is below the second. -/
theorem originSatisfies_of_kinds {kind : OriginKind} {m n : Text} (ha : a.origin = .plain kind m)
    (hb : b.origin = .plain kind n) (h : kind = .nominal → r.isSubclass m n = true) :
    r.originSatisfies a b = true := by
  unfold originSatisfies
  rw [ha, hb]
  cases kind with
  | nominal => simp [h rfl]
  | _ => simp

/-- Every member of one list has its like in the other. -/
theorem exists_of_forall₂ {α β : Type} {R : α → β → Prop} {as : List α} {bs : List β}
    (hall : List.Forall₂ R as bs) {a : α} (ha : a ∈ as) : ∃ b ∈ bs, R a b := by
  obtain ⟨i, hi, rfl⟩ := List.mem_iff_getElem.1 ha
  obtain ⟨hlen, hget⟩ := List.forall₂_iff_get.1 hall
  exact ⟨_, List.getElem_mem (hlen ▸ hi), hget i hi (hlen ▸ hi)⟩

/-- Relations between three lists compose member by member. -/
theorem forall₂_trans_of_mem {α β γ : Type} {R : α → β → Prop} {S : β → γ → Prop}
    {T : α → γ → Prop} {as : List α} {bs : List β} {cs : List γ}
    (h : ∀ a ∈ as, ∀ b ∈ bs, ∀ c ∈ cs, R a b → S b c → T a c) (hab : List.Forall₂ R as bs)
    (hbc : List.Forall₂ S bs cs) : List.Forall₂ T as cs := by
  -- By induction on the first two lists.
  induction hab generalizing cs with
  | nil =>
    cases hbc
    exact .nil
  | cons hab _ ih =>
    cases hbc with
    | cons hbc htail =>
      refine .cons (h _ List.mem_cons_self _ List.mem_cons_self _ List.mem_cons_self hab hbc) ?_
      exact ih (fun a ha b hb c hc => h a (List.mem_cons_of_mem _ ha) b (List.mem_cons_of_mem _ hb)
        c (List.mem_cons_of_mem _ hc)) htail

/-- `Object` is the class of that name, without arguments. -/
theorem isObject_iff : a.isObject = true ↔ a = .leaf Name.object := by
  unfold isObject
  split
  · simp [leaf]
  · rename_i hne
    simp only [Bool.false_eq_true, false_iff]
    rintro rfl
    exact hne _ rfl

/-- A branch of a union has its like among the branches of an equal union. -/
theorem exists_same_branch (h : a.same b = true) {x : Shape} (hx : x ∈ slotShapes a.slots) :
    ∃ y ∈ slotShapes b.slots, x.same y = true :=
  exists_of_forall₂ (forall₂_slotShapes_of_sameSlots (roots_of_same h).2.2) hx

end Registry

namespace Engine

/-- A subtype check does not change the registry. -/
theorem isSubtype_registry (e : Engine) (inst tmpl : Shape) :
    (e.isSubtype inst tmpl).2.registry = e.registry := by
  rw [isSubtype_eq_subtypeRun]

/-- The memo after a subtype check is that of its run. -/
theorem isSubtype_memo (e : Engine) (inst tmpl : Shape) :
    (e.isSubtype inst tmpl).2.memo = (e.subtypeRun inst tmpl).memo := by
  rw [isSubtype_eq_subtypeRun]

end Engine

end TypeShape
