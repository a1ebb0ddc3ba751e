import TypeShape.Proofs.InferenceDepth
import TypeShape.Proofs.UnificationSound

/-!
# Narrower shapes

A closed shape has a node at every place and no type variable.  A closed shape is narrower than
another if the rules of subtyping relate the two without looking at the members of a protocol.  This
depends neither on assumptions nor on how expressions are seen, and the check finds it as soon as it
has a level for each level of the two shapes.

Shapes that are merged into one are narrower than the result, and merging keeps the order: it is
enough to find a shape of the second list above each shape of the first.

## Key results

- `Registry.holds_of_narrower`: the check accepts whatever is narrower
- `Registry.Narrower.of_same`: equal shapes stand above the same shapes
- `Registry.narrower_of_mem_branches`: what is narrower than a branch is narrower than the union
- `Registry.narrower_mergeShapes`: merging keeps the order
-/

namespace TypeShape

namespace Shape

/-- A shape without holes and without type variables. -/
structure Closed (s : Shape) : Prop where
  whole : s.isWhole = true
  concrete : s.isConcrete = true

/-- A node that is neither hole nor variable has a kind and a name. -/
theorem exists_origin_of_not_var {s : Shape} (hhole : s.isHole = false) (hvar : s.var? = none) :
    ∃ kind name, s.origin = .plain kind name := by
  cases ho : s.origin with
  | plain kind name => exact ⟨kind, name, rfl⟩
  | var v => simp [var?, ho] at hvar
  | hole => simp [isHole, ho] at hhole

namespace Closed

variable {s b : Shape}

/-- A closed shape is no hole. -/
theorem isHole (hs : s.Closed) : s.isHole = false := isHole_of_isWhole hs.whole

/-- A closed shape is no variable. -/
theorem var? (hs : s.Closed) : s.var? = none := var?_of_isConcrete hs.concrete

/-- A closed shape that is no union is solid. -/
theorem isSolid (hs : s.Closed) (hu : s.isUnion = false) : s.isSolid = true :=
  isSolid_of_isConcrete hs.whole hs.concrete hu

/-- The shapes in the slots of a closed shape are closed. -/
theorem of_mem_slotShapes (hs : s.Closed) (hb : b ∈ slotShapes s.slots) : b.Closed where
  whole := isWhole_of_mem_slotShapes (slotsWhole_of_isWhole hs.whole) hb
  concrete := isConcrete_of_mem_slotShapes hs.concrete hb

/-- The branches of a closed union are closed. -/
theorem of_mem_branches (hs : s.Closed) (hu : s.isUnion = true) (hb : b ∈ s.branches) :
    b.Closed where
  whole := isWhole_of_mem_branches hs.whole hb
  concrete := isConcrete_of_mem_branches hs.concrete hu hb

/-- The origin of a closed shape is of some kind. -/
theorem exists_origin (hs : s.Closed) : ∃ kind name, s.origin = .plain kind name :=
  exists_origin_of_not_var hs.isHole hs.var?

end Closed

/-- A bare node that is neither hole nor variable is closed. -/
theorem closed_bare (kind : OriginKind) (name : Text) : (bare (.plain kind name)).Closed :=
  ⟨rfl, rfl⟩

/-- A node over shapes without variables has none. -/
theorem isConcrete_applied (kind : OriginKind) (name : Text) {slots : List Slot}
    (h : ∀ b ∈ slotShapes slots, b.isConcrete = true) :
    (applied (.plain kind name) slots).isConcrete = true := by
  rw [isConcrete, varOccurrences, varOccurrencesSlots_eq_nil_iff.2 h]
  · rfl
  · exact fun _ => Origin.noConfusion

/-- A union of closed shapes is closed. -/
theorem closed_unionOf {ss : List Shape} (h : ∀ s ∈ ss, s.Closed) : (unionOf ss).Closed where
  whole := isWhole_unionOf (areWhole_iff.2 fun s hs => (h s hs).whole)
  concrete := by
    refine isConcrete_applied _ _ fun b hb => ?_
    rw [slotShapes_map_single] at hb
    exact (h b hb).concrete

/-- A class applied to closed shapes is closed. -/
theorem closed_ofClass (name : Text) {args : List Shape} (h : ∀ s ∈ args, s.Closed) :
    (ofClass name args).Closed where
  whole := isWhole_ofClass name (areWhole_iff.2 fun s hs => (h s hs).whole)
  concrete := by
    unfold ofClass
    split
    · rfl
    · refine isConcrete_applied _ _ fun b hb => ?_
      rw [slotShapes_map_single] at hb
      exact (h b hb).concrete

/-- The type of a closed shape is closed. -/
theorem closed_typeOf {s : Shape} (h : s.Closed) : (typeOf s).Closed where
  whole := by simp [typeOf, typeOfOrigin, h.whole]
  concrete := isConcrete_applied _ _ (List.forall_mem_singleton.2 h.concrete)

/-- A callable over closed shapes is closed. -/
theorem closed_callableOf {params : List Shape} {result : Shape} (h : ∀ s ∈ params, s.Closed)
    (hresult : result.Closed) : (callableOf params result).Closed where
  whole := by
    have hparams : areWhole params = true := areWhole_iff.2 fun s hs => (h s hs).whole
    simp [callableOf, callableOrigin, hparams, hresult.whole]
  concrete := by
    refine isConcrete_applied _ _ (List.forall_mem_append.2 ⟨fun b hb => (h b hb).concrete, ?_⟩)
    exact List.forall_mem_singleton.2 hresult.concrete

end Shape

namespace Registry

open Shape

/-- A shape is below another by the rules alone, without looking at the members of protocols.  Between
closed shapes no type expression is looked at, so it does not matter how these are seen. -/
def Narrower (r : Registry) : Shape → Shape → Prop :=
  r.Derives TypeExpr.reduce ⊥

variable {r : Registry} {see : View} {a b c u : Shape}

/-- Being narrower is closed under the rules, both ways. -/
theorem narrower_iff_rule : r.Narrower a b ↔ r.Rule TypeExpr.reduce r.Narrower ⊥ a b :=
  derives_iff_rule

/-- What is asked about closed shapes is about closed shapes, and about less deep ones. -/
theorem Asks.closed {inst tmpl : Shape} (h : r.Asks see inst tmpl a b) (hi : inst.Closed)
    (ht : tmpl.Closed) :
    a.Closed ∧ b.Closed ∧ a.depth + b.depth < inst.depth + tmpl.depth := by
  -- A closed shape is no variable, so only branches and slots are asked about.
  cases h with
  | branch hu hb =>
    have hlt := depth_lt_of_mem_branches hu hb
    exact ⟨hi.of_mem_branches hu hb, ht, by omega⟩
  | intoVar hv _ => simp [ht.var?] at hv
  | ofVar hv _ => simp [hi.var?] at hv
  | option hu hb =>
    have hlt := depth_lt_of_mem_branches hu hb
    exact ⟨hi, ht.of_mem_branches hu hb, by omega⟩
  | slot ha hb =>
    have hlt := depth_lt_of_mem_slotShapes ha
    have hlt' := depth_lt_of_mem_slotShapes hb
    exact ⟨hi.of_mem_slotShapes ha, ht.of_mem_slotShapes hb, by omega⟩

/-- The rules apply to closed shapes however expressions are seen. -/
theorem Rule.of_closed {sub conf : Shape → Shape → Prop} {see' : View} (ha : a.Closed)
    (hb : b.Closed) (h : r.Rule see sub conf a b) : r.Rule see' sub conf a b := by
  cases h with
  | any hi ht => exact .any hi ht
  | same hi ht hs => exact .same hi ht hs
  | everyBranch hu ht hall => exact .everyBranch hu ht hall
  | intoVar _ _ hv => simp [hb.var?] at hv
  | ofVar hv => simp [ha.var?] at hv
  | someBranch hi hu hy hsub => exact .someBranch hi hu hy hsub
  | nominal hi ht hfits => exact .nominal hi ht hfits
  | conforms hi ht hprot hconf => exact .conforms hi ht hprot hconf

/-- With a level for each level of the shapes, the check accepts what is narrower. -/
theorem holds_of_narrower (hsee : see.IsWhole) (ha : a.Closed) (hb : b.Closed) {n : Nat}
    {assumed : List Text} (hn : a.depth + b.depth ≤ n) (h : r.Narrower a b) :
    r.Holds see n assumed a b := by
  -- By induction on the derivation; every rule goes down to shapes with fewer levels in all.
  refine derives_induction (motive := fun inst tmpl => inst.Closed → tmpl.Closed →
    ∀ n, inst.depth + tmpl.depth ≤ n → r.Holds see n assumed inst tmpl) ?_ h ha hb n hn
  intro inst tmpl hrule hi ht n hn
  have hpos := depth_pos inst
  obtain ⟨m, rfl⟩ : ∃ m, n = m + 1 := ⟨n - 1, by omega⟩
  refine holds_of_rule_of_isWhole hsee hi.whole ht.whole ?_
  refine (hrule.of_closed hi ht).imp (fun x y hxy hsub => ?_) fun _ hconf => hconf.elim
  obtain ⟨hx, hy, hlt⟩ := hxy.closed hi ht
  exact hsub hx hy m (by omega)

/-! ## Equal shapes and bare shapes -/

/-- A closed shape is narrower than itself. -/
theorem narrower_refl (ha : a.Closed) : r.Narrower a a :=
  narrower_iff_rule.2 (.same ha.isHole ha.isHole (same_refl a))

/-- Equal closed shapes are narrower than each other. -/
theorem narrower_of_same (ha : a.Closed) (hb : b.Closed) (hsame : a.same b = true) :
    r.Narrower a b :=
  narrower_iff_rule.2 (.same ha.isHole hb.isHole hsame)

/-- A slot that fits another also fits an equal one. -/
theorem slotFits_of_same_right {sub : Shape → Shape → Prop} {i j k : Slot}
    (hsub : ∀ x ∈ slotShapes [i], ∀ y ∈ slotShapes [j], ∀ z ∈ slotShapes [k],
      sub x y → y.same z = true → sub x z)
    (hij : SlotFits sub i j) (hjk : sameSlots [j] [k] = true) : SlotFits sub i k := by
  -- Equal slots are of the same kind: both single, or both groups.
  cases j with
  | single j =>
    cases k with
    | group ks => simp at hjk
    | single k =>
      have hsame : j.same k = true := by simpa using hjk
      have hany : j.isAny = true → k.isAny = true := fun h => by
        rwa [isAny, ← hasKind_of_same hsame]
      cases i with
      | group is => exact hany hij
      | single i =>
        refine hij.imp hany fun h => ?_
        exact hsub i (mem_slotShapes_single i) j (mem_slotShapes_single j) k
          (mem_slotShapes_single k) h hsame
  | group js =>
    cases k with
    | single k => simp at hjk
    | group ks =>
      have hsame : sameAll js ks = true := by simpa using hjk
      cases i with
      | single i => exact hij.elim
      | group is =>
        refine forall₂_trans_of_mem (fun x hx y hy z hz => ?_) hij (sameAll_iff_forall₂.1 hsame)
        exact hsub x (mem_slotShapes_group hx) y (mem_slotShapes_group hy) z
          (mem_slotShapes_group hz)

/-- Slots that fit others also fit equal ones. -/
theorem forall₂_slotFits_of_same_right {sub : Shape → Shape → Prop} {as bs cs : List Slot}
    (hsub : ∀ x ∈ slotShapes as, ∀ y ∈ slotShapes bs, ∀ z ∈ slotShapes cs,
      sub x y → y.same z = true → sub x z)
    (hab : List.Forall₂ (SlotFits sub) as bs) (hbc : sameSlots bs cs = true) :
    List.Forall₂ (SlotFits sub) as cs := by
  -- The three lists have one length; the induction on the first relation steps through all of them.
  induction hab generalizing cs with
  | nil =>
    cases cs with
    | nil => exact .nil
    | cons k cs => simp at hbc
  | @cons i j as bs hij _ ih =>
    cases cs with
    | nil => cases j <;> simp at hbc
    | cons k cs =>
      obtain ⟨hjk, hbc⟩ : sameSlots [j] [k] = true ∧ sameSlots bs cs = true := by
        cases j <;> cases k <;> simp_all [sameSlots]
      rw [slotShapes_cons i, slotShapes_cons j, slotShapes_cons k] at hsub
      refine .cons (slotFits_of_same_right (fun x hx y hy z hz => ?_) hij hjk)
        (ih (fun x hx y hy z hz => ?_) hbc)
      · exact hsub x (List.mem_append_left _ hx) y (List.mem_append_left _ hy)
          z (List.mem_append_left _ hz)
      · exact hsub x (List.mem_append_right _ hx) y (List.mem_append_right _ hy)
          z (List.mem_append_right _ hz)

/-- What is the same as `Object` is `Object`. -/
theorem isObject_of_same (hsame : a.same b = true) (ha : a.isObject = true) :
    b.isObject = true := by
  obtain rfl := isObject_iff.1 ha
  -- Sameness keeps bare shapes bare, and plain origins plain.
  cases b with
  | applied o slots => simp [leaf] at hsame
  | bare o =>
    cases o with
    | plain kind name =>
      obtain ⟨rfl, rfl⟩ : OriginKind.nominal = kind ∧ Name.object = name := by
        simpa [leaf, Origin.same] using hsame
      rfl
    | _ => simp [leaf, Origin.same] at hsame

/-- What fits a shape by inheritance and slot by slot also fits an equal one. -/
theorem nominallyFits_of_same_right {sub : Shape → Shape → Prop} (ha : a.Closed) (hc : c.Closed)
    (hfits : r.NominallyFits sub a b) (hsame : b.same c = true)
    (hsub : ∀ x ∈ slotShapes a.slots, ∀ y ∈ slotShapes b.slots, ∀ z ∈ slotShapes c.slots,
      sub x y → y.same z = true → sub x z) : r.NominallyFits sub a c := by
  obtain ⟨hroot, hparam, hslots⟩ := roots_of_same hsame
  -- Either both are `Object`, or kind and name agree up to the spelling of unions.
  by_cases hbobj : b.isObject = true
  · exact .inl (isObject_of_same hsame hbobj)
  · obtain ⟨horigin, hfits⟩ := hfits.resolve_left hbobj
    refine .inr ⟨?_, hfits.imp hparam.symm.trans fun ⟨hap, hfits⟩ => ⟨hap, ?_⟩⟩
    · obtain ⟨kind, m, n, hao, hbo, hsub⟩ :=
        kinds_of_originSatisfies ha.var? (by simpa using hbobj) horigin
      obtain ⟨kind', n', hco⟩ := hc.exists_origin
      rw [hbo, hco] at hroot
      simp only [Origin.same, Bool.and_eq_true, beq_iff_eq] at hroot
      obtain ⟨rfl, hname⟩ := hroot
      refine originSatisfies_of_kinds hao hco fun hk => ?_
      obtain rfl : n = n' := by simpa [hk] using hname
      exact hsub hk
    · exact forall₂_slotFits_of_same_right hsub hfits hslots

/-- Equal shapes stand above the same shapes. -/
theorem Narrower.of_same (ha : a.Closed) (hb : b.Closed) (hc : c.Closed)
    (h : r.Narrower a b) (hsame : b.same c = true) : r.Narrower a c := by
  -- The depths of the first two shapes are counted together, as rules take parts of either.
  induction hn : a.depth + b.depth using Nat.strong_induction_on generalizing a b c with
  | _ n ih =>
    subst hn
    have hkind := hasKind_of_same hsame
    refine narrower_iff_rule.2 ?_
    cases narrower_iff_rule.1 h with
    | any hi ht => exact .any hi (by rwa [isAny, ← hkind])
    | same hi _ hab => exact .same hi hc.isHole (same_trans hab hsame)
    | everyBranch hu _ hall =>
      refine .everyBranch hu hc.isHole fun x hx => ?_
      have hlt := depth_lt_of_mem_branches hu hx
      exact ih _ (by omega) (ha.of_mem_branches hu hx) hb hc (hall x hx) hsame rfl
    | intoVar _ _ hv => simp [hb.var?] at hv
    | ofVar hv => simp [ha.var?] at hv
    | @someBranch y hi hu hy hay =>
      -- The branch above the left has its like on the right.
      obtain ⟨hcu, z, hz, hyz⟩ := exists_same_of_mem_branches hsame hu hy
      have hlt := depth_lt_of_mem_branches hu hy
      exact .someBranch hi hcu hz (ih _ (by omega) ha (hb.of_mem_branches hu hy)
        (hc.of_mem_branches hcu hz) hay hyz rfl)
    | nominal hi ht hfits =>
      have hcu : c.isUnion = false := (hkind .union).symm.trans (isSolid_iff.1 ht).2.1
      refine .nominal hi (hc.isSolid hcu) (nominallyFits_of_same_right ha hc hfits hsame ?_)
      intro x hx y hy z hz hxy hyz
      have hxlt := depth_lt_of_mem_slotShapes hx
      have hylt := depth_lt_of_mem_slotShapes hy
      exact ih _ (by omega) (ha.of_mem_slotShapes hx) (hb.of_mem_slotShapes hy)
        (hc.of_mem_slotShapes hz) hxy hyz rfl
    | conforms _ _ _ hconf => exact hconf.elim

/-- A bare shape accepts all shapes of its origin, unless it is a union. -/
theorem narrower_bare (ha : a.isSolid = true) : r.Narrower a (.bare a.origin) := by
  obtain ⟨hhole, -, hvar⟩ := isSolid_iff.1 ha
  obtain ⟨kind, name, ho⟩ := exists_origin_of_not_var hhole hvar
  have hfits := originSatisfies_of_kinds (r := r) ho (b := .bare a.origin) ho
    fun _ => r.isSubclass_refl name
  exact narrower_iff_rule.2 (.nominal ha ha (.inr ⟨hfits, .inl rfl⟩))

/-- A class applied to narrower arguments is narrower. -/
theorem narrower_ofClass (name : Text) {as bs : List Shape}
    (h : List.Forall₂ r.Narrower as bs) :
    r.Narrower (ofClass name as) (ofClass name bs) := by
  have ho (args : List Shape) := origin_ofClass name args
  refine narrower_iff_rule.2 (.nominal (isSolid_ofClass name as) (isSolid_ofClass name bs)
    (.inr ⟨originSatisfies_of_kinds (ho as) (ho bs) fun _ => r.isSubclass_refl name, ?_⟩))
  rw [isParameterized_ofClass, isParameterized_ofClass, slots_ofClass, slots_ofClass,
    forall₂_slotFits_map_single]
  cases h with
  | nil => exact .inl rfl
  | cons hhead htail => exact .inr ⟨rfl, (List.Forall₂.cons hhead htail).imp fun _ _ => .inr⟩

/-- A callable with narrower parameters and a narrower result is narrower. -/
theorem narrower_callableOf {params params' : List Shape} {result result' : Shape}
    (hparams : List.Forall₂ r.Narrower params params')
    (hresult : r.Narrower result result') :
    r.Narrower (callableOf params result) (callableOf params' result') := by
  refine narrower_iff_rule.2 (.nominal rfl rfl (.inr ⟨?_, .inr ⟨rfl, ?_⟩⟩))
  · exact originSatisfies_of_kinds rfl rfl fun hk => OriginKind.noConfusion hk
  · exact .cons hparams (.cons (.inr hresult) .nil)

/-! ## Unions and merged shapes -/

/-- A union is narrower than what all its branches are narrower than. -/
theorem narrower_of_all_branches (hu : u.isUnion = true) (hb : b.Closed)
    (h : ∀ x ∈ u.branches, r.Narrower x b) : r.Narrower u b :=
  narrower_iff_rule.2 (.everyBranch hu hb.isHole h)

/-- What is narrower than a branch is narrower than the union. -/
theorem narrower_of_mem_branches (ha : a.Closed) (hu : u.Closed) (huu : u.isUnion = true)
    (hb : b ∈ u.branches) (h : r.Narrower a b) : r.Narrower a u := by
  -- The induction is on the depth of the left, as only a union on the left is taken apart.
  induction hn : a.depth using Nat.strong_induction_on generalizing a b u with
  | _ n ih =>
    subst hn
    have hbc := hu.of_mem_branches huu hb
    by_cases hau : a.isUnion = true
    · -- Each branch of the left is narrower than the branch, so the law holds for it.
      refine narrower_of_all_branches hau hu fun x hx => ?_
      have hlt := depth_lt_of_mem_branches hau hx
      have hxc := ha.of_mem_branches hau hx
      refine ih x.depth hlt hxc hu huu hb ?_ rfl
      by_cases hany : b.isAny = true
      · exact narrower_iff_rule.2 (.any hxc.isHole hany)
      by_cases hsame : a.same b = true
      · -- The branch is a union like the left, and has a branch like this one.
        obtain ⟨hbu, y, hy, hxy⟩ := exists_same_of_mem_branches hsame hau hx
        have hxy : r.Narrower x y := narrower_of_same hxc (hbc.of_mem_branches hbu hy) hxy
        exact ih x.depth hlt hxc hbc hbu hy hxy rfl
      · exact (narrower_iff_rule.1 h).branches_of_isUnion hany hsame hau x hx
    · have hau : a.isUnion = false := by simpa using hau
      exact narrower_iff_rule.2 (.someBranch (ha.isSolid hau) huu hb h)

/-- A shape has its like among the distinct ones. -/
theorem exists_same_of_mem_distinctShapes {kept shapes : List Shape} {s : Shape}
    (hs : s ∈ kept ∨ s ∈ shapes) : ∃ t ∈ distinctShapes kept shapes, s.same t = true := by
  -- The list is walked through with the shapes that are kept so far.
  induction shapes generalizing kept s with
  | nil => exact ⟨s, hs.resolve_right List.not_mem_nil, same_refl s⟩
  | cons first rest ih =>
    rw [distinctShapes]
    split
    · rename_i hknown
      obtain hs | hs := hs
      · exact ih (.inl hs)
      · obtain rfl | hs := List.mem_cons.1 hs
        · -- The shape is left out for one that was kept, and has its like where that one has.
          obtain ⟨k, hk, hsk⟩ := List.any_eq_true.1 hknown
          obtain ⟨t, ht, hkt⟩ := ih (.inl hk)
          exact ⟨t, ht, same_trans hsk hkt⟩
        · exact ih (.inr hs)
    · obtain hs | hs := hs
      · exact ih (.inl (List.mem_append_left _ hs))
      · obtain rfl | hs := List.mem_cons.1 hs
        · exact ih (.inl (List.mem_append_right _ (List.mem_singleton_self s)))
        · exact ih (.inr hs)

/-- A shape has its like among the sorted ones. -/
theorem exists_same_of_mem_sortedShapes {shapes : List Shape} {s : Shape} (hs : s ∈ shapes) :
    ∃ t ∈ sortedShapes shapes, s.same t = true := by
  have hs : s ∈ [] ∨ s ∈ shapes := .inr hs
  obtain ⟨t, ht, hsame⟩ := exists_same_of_mem_distinctShapes hs
  exact ⟨t, List.mem_mergeSort.2 ht, hsame⟩

/-- The shapes that are merged are the same as the merged shape, or they are its branches. -/
theorem mergeShapes_cases (shapes : List Shape) :
    (∃ s ∈ shapes, mergeShapes shapes = s ∧ ∀ t ∈ shapes, t.same s = true) ∨
    ((mergeShapes shapes).isUnion = true ∧ (∀ b ∈ (mergeShapes shapes).branches, b ∈ shapes) ∧
      ∀ s ∈ shapes, ∃ b ∈ (mergeShapes shapes).branches, s.same b = true) := by
  rw [mergeShapes_eq]
  -- One distinct shape stands for all; more of them make a union, in the order of their texts.
  split
  · rename_i s heq
    refine .inl ⟨s, mem_of_mem_sortedShapes (heq ▸ List.mem_singleton_self s), rfl, fun t ht => ?_⟩
    obtain ⟨d, hd, hsame⟩ := exists_same_of_mem_sortedShapes ht
    rw [heq] at hd
    rwa [List.mem_singleton.1 hd] at hsame
  · have hu : (unionOf (sortedShapes shapes)).isUnion = true := rfl
    have hbranches : (unionOf (sortedShapes shapes)).branches = sortedShapes shapes := by
      rw [branches_eq hu]
      exact slotShapes_map_single _
    rw [hbranches]
    exact .inr ⟨hu, fun b hb => mem_of_mem_sortedShapes hb,
      fun s hs => exists_same_of_mem_sortedShapes hs⟩

/-- Two distinct shapes are the branches of a union. -/
theorem mergeShapes_pair {shapes : List Shape} {a b : Shape}
    (hdistinct : distinctShapes [] shapes = [a, b]) :
    mergeShapes shapes =
      .unionOf (if Text.le a.render b.render then [a, b] else [b, a]) := by
  rw [mergeShapes, hdistinct]
  simp [List.mergeSort, List.merge, List.MergeSort.Internal.splitInTwo]

/-- Merging closed shapes gives a closed shape. -/
theorem closed_mergeShapes {shapes : List Shape} (h : ∀ s ∈ shapes, s.Closed) :
    (mergeShapes shapes).Closed := by
  have hsorted : ∀ s ∈ sortedShapes shapes, s.Closed := fun s hs =>
    h s (mem_of_mem_sortedShapes hs)
  rw [mergeShapes_eq]
  split
  · rename_i s heq
    exact hsorted s (heq ▸ List.mem_singleton_self s)
  · exact closed_unionOf hsorted

/-- Merging keeps the order: it is enough to find a shape above each one on the left. -/
theorem narrower_mergeShapes {as bs : List Shape} (has : ∀ a ∈ as, a.Closed)
    (hbs : ∀ b ∈ bs, b.Closed) (h : ∀ a ∈ as, ∃ b ∈ bs, r.Narrower a b) :
    r.Narrower (mergeShapes as) (mergeShapes bs) := by
  have hclosed := closed_mergeShapes hbs
  -- A shape of the left list is narrower than the right shape.
  have hone : ∀ a ∈ as, r.Narrower a (mergeShapes bs) := by
    intro a ha
    obtain ⟨b, hb, hab⟩ := h a ha
    obtain ⟨s, -, heq, hall⟩ | ⟨hu, -, hlike⟩ := mergeShapes_cases bs
    · rw [heq] at hclosed ⊢
      exact hab.of_same (has a ha) (hbs b hb) hclosed (hall b hb)
    · obtain ⟨y, hy, hby⟩ := hlike b hb
      have hay := hab.of_same (has a ha) (hbs b hb) (hclosed.of_mem_branches hu hy) hby
      exact narrower_of_mem_branches (has a ha) hclosed hu hy hay
  obtain ⟨s, hs, heq, -⟩ | ⟨hu, hmem, -⟩ := mergeShapes_cases as
  · rw [heq]
    exact hone s hs
  · exact narrower_of_all_branches hu hclosed fun x hx => hone x (hmem x hx)

end Registry

end TypeShape
