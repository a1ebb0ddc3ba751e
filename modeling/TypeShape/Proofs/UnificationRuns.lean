import TypeShape.Proofs.Rebuilding

/-!
# Runs of unification

Unifying two shapes is unifying the shapes in their slots one after the other, each with the
bindings that the ones before have made.  Which shapes meet is told by the slots alone: the
wildcard in a slot takes everything, other single slots and groups are compared shape by shape.  A
run enters bindings for the variables of its template, one for each, and leaves all others alone.

## Key results

- `Registry.exists_run_of_unifySlots`: unifying slots is a run over pairs of shapes
- `Registry.find?_of_unifyAt`: the names that are not in the template keep their bindings
- `Registry.bound_of_unifyAt`: the names in the template are bound, by expressions without variables
-/

namespace TypeShape.Registry

open Shape

variable {r : Registry}

/-! ## One step -/

/-- A variable is bound to the expression of the instance, whatever it was bound to before. -/
theorem unifyAt_ofVar {room : Nat} {v : TypeVar} {inst : Shape} {s s' : Subst}
    (h : r.unifyAt room (.ofVar v) inst s = .ok s') :
    ∃ t, inst.expression = .ok t ∧ s' = Table.put v.name t s := by
  -- Without room there is no answer; else the binding is the expression of the instance.
  rw [ofVar, unifyAt] at h
  split at h
  · cases h
  · cases hexpr : inst.expression with
    | error e =>
      rw [bindVar, hexpr] at h
      cases h
    | ok t =>
      rw [bindVar, hexpr] at h
      cases h
      exact ⟨t, rfl, rfl⟩

/-- A shape without slots binds nothing. -/
theorem unifyAt_bare {room : Nat} {kind : OriginKind} {name : Text} {inst : Shape} {s s' : Subst}
    (hkind : kind ≠ .any) (h : r.unifyAt room (.bare (.plain kind name)) inst s = .ok s') :
    r.rootMismatch? (.bare (.plain kind name)) inst = none ∧ s' = s := by
  have hany : ∀ n, Origin.plain kind name ≠ .plain .any n := by simp [hkind]
  -- Of the equations of `unifyAt`, this one is for templates that are neither variables nor
  -- wildcards.
  rw [unifyAt] at h
  · split at h
    · cases h
    · split at h
      · cases h
      · rename_i hroot
        cases h
        exact ⟨hroot, rfl⟩
  · simp
  · exact hany

/-- Under matching origins a shape is unified slot by slot. -/
theorem unifyAt_applied {room : Nat} {kind : OriginKind} {name : Text} {slots : List Slot}
    {inst : Shape} {s s' : Subst} (hkind : kind ≠ .any)
    (h : r.unifyAt room (.applied (.plain kind name) slots) inst s = .ok s') :
    r.rootMismatch? (.applied (.plain kind name) slots) inst = none ∧
      ∃ room' fail, r.unifySlots room' fail 0 slots inst.slots s = .ok s' := by
  -- The wildcard is excluded, and a plain origin is no variable.
  have hany : ∀ n, Origin.plain kind name ≠ .plain .any n := by simp [hkind]
  rw [unifyAt] at h
  · split at h
    · cases h
    · split at h
      · cases h
      · rename_i hroot
        exact ⟨hroot, _, _, h⟩
  · simp
  · exact hany

/-- The roots of two shapes match. -/
theorem roots_of_rootMismatch? {tmpl inst : Shape} (h : r.rootMismatch? tmpl inst = none) :
    r.originSatisfies inst tmpl = true ∧ (tmpl.isParameterized = true →
      inst.isParameterized = true ∧ tmpl.slots.length = inst.slots.length) := by
  unfold rootMismatch? at h
  repeat' split at h
  any_goals cases h
  · rename_i hroot hbare
    exact ⟨by simpa using hroot, fun hparam => by simp [hparam] at hbare⟩
  · rename_i hroot _ hparam hlen
    exact ⟨by simpa using hroot, fun _ => ⟨by simpa using hparam, by simpa using hlen⟩⟩

/-! ## Runs -/

/-- Shapes are unified pair by pair, a template on the left and an instance on the right. -/
inductive UnifyRun (r : Registry) : List (Shape × Shape) → Subst → Subst → Prop where
  | nil {s : Subst} : UnifyRun r [] s s
  | cons {room : Nat} {tmpl inst : Shape} {pairs : List (Shape × Shape)} {s s₁ s₂ : Subst} :
    r.unifyAt room tmpl inst s = .ok s₁ → UnifyRun r pairs s₁ s₂ →
    UnifyRun r ((tmpl, inst) :: pairs) s s₂

/-- Runs one after the other are a run over the pairs of both. -/
theorem UnifyRun.append {ps qs : List (Shape × Shape)} {s s₁ s₂ : Subst} (h : r.UnifyRun ps s s₁)
    (h' : r.UnifyRun qs s₁ s₂) : r.UnifyRun (ps ++ qs) s s₂ := by
  induction h with
  | nil => exact h'
  | cons hstep _ ih => exact .cons hstep (ih h')

/-- Which shapes in the slots of a template and an instance meet. -/
structure Meet (ts is : List Slot) (pairs : List (Shape × Shape)) : Prop where
  fits : List.Forall₂ (SlotFits fun inst tmpl => (tmpl, inst) ∈ pairs) is ts
  mem : ∀ p ∈ pairs, p.1 ∈ slotShapes ts ∧ p.2 ∈ slotShapes is
  vars : pairs.flatMap (·.1.varOccurrences) = varOccurrencesSlots ts

/-- Shapes of a group are unified one after the other. -/
theorem run_of_unifyAll {room : Nat} {ts is : List Shape} {s s' : Subst}
    (hlen : ts.length = is.length) (h : r.unifyAll room ts is s = .ok s') :
    r.UnifyRun (ts.zip is) s s' := by
  -- By induction on the groups, from any bindings made before.
  induction ts generalizing is s with
  | nil =>
    simp only [unifyAll] at h
    cases h
    exact .nil
  | cons t ts ih =>
    cases is with
    | nil => cases hlen
    | cons i is =>
      simp only [unifyAll] at h
      obtain ⟨s₁, hstep, h⟩ := bind_eq_ok.1 h
      exact .cons hstep (ih (Nat.succ.inj hlen) h)

/-- No slots meet in no pairs. -/
theorem Meet.nil : Meet [] [] [] := ⟨.nil, by simp, rfl⟩

/-- Slots that fit by some pairs fit by more of them. -/
theorem slotFits_of_subset {ps qs : List (Shape × Shape)} (h : ps ⊆ qs) {is ts : List Slot}
    (hfits : List.Forall₂ (SlotFits fun inst tmpl => (tmpl, inst) ∈ ps) is ts) :
    List.Forall₂ (SlotFits fun inst tmpl => (tmpl, inst) ∈ qs) is ts :=
  forall₂_slotFits_imp (fun _ _ _ _ hmem => h hmem) hfits

/-- The pairs of one slot stand in front of those of the rest. -/
theorem Meet.cons {t i : Slot} {ts is : List Slot} {ps qs : List (Shape × Shape)}
    (hslot : Meet [t] [i] ps) (hrest : Meet ts is qs) : Meet (t :: ts) (i :: is) (ps ++ qs) := by
  have hshapes : ∀ (a : Slot) (as : List Slot),
      slotShapes (a :: as) = slotShapes [a] ++ slotShapes as := by
    intro a as
    cases a <;> simp
  have hvars : varOccurrencesSlots (t :: ts) =
      varOccurrencesSlots [t] ++ varOccurrencesSlots ts := by
    cases t <;> simp
  -- Of the pairs, those of the first slot come first, and they are met in that order.
  refine ⟨?_, fun p hp => ?_, ?_⟩
  · obtain hfirst | ⟨hfirst, -⟩ := slotFits_of_subset (List.subset_append_left ps qs) hslot.fits
    exact .cons hfirst (slotFits_of_subset (List.subset_append_right ps qs) hrest.fits)
  · rw [hshapes t, hshapes i]
    obtain hp | hp := List.mem_append.1 hp
    · obtain ⟨ht, hi⟩ := hslot.mem p hp
      exact ⟨List.mem_append_left _ ht, List.mem_append_left _ hi⟩
    · obtain ⟨ht, hi⟩ := hrest.mem p hp
      exact ⟨List.mem_append_right _ ht, List.mem_append_right _ hi⟩
  · rw [List.flatMap_append, hslot.vars, hrest.vars, hvars]

/-- The variables of a list are those of its shapes. -/
theorem varOccurrencesAll_eq_flatMap (xs : List Shape) :
    varOccurrencesAll xs = xs.flatMap varOccurrences := by
  induction xs with
  | nil => rfl
  | cons x xs ih => rw [varOccurrencesAll, ih, List.flatMap_cons]

/-- The wildcard in a slot meets nothing. -/
theorem Meet.wildcard (i : Slot) : Meet [.single .any] [i] [] := by
  refine ⟨.cons ?_ .nil, by simp, rfl⟩
  cases i with
  | single i => exact .inl rfl
  | group is => exact rfl

/-- Two single slots meet in one pair. -/
theorem Meet.single (t i : Shape) : Meet [.single t] [.single i] [(t, i)] := by
  refine ⟨.cons (.inr (by simp)) .nil, ?_, ?_⟩
  · rintro p hp
    rw [List.mem_singleton.1 hp]
    simp
  · simp

/-- Two groups of one length meet in the pairs of their shapes. -/
theorem Meet.group {ts is : List Shape} (hlen : ts.length = is.length) :
    Meet [.group ts] [.group is] (ts.zip is) := by
  refine ⟨.cons ?_ .nil, fun p hp => ?_, ?_⟩
  · have hzip : List.Forall₂ (fun t i => (t, i) ∈ ts.zip is) ts is :=
      List.forall₂_iff_zip.2 ⟨hlen, id⟩
    exact hzip.flip
  · obtain ⟨ht, hi⟩ := List.of_mem_zip hp
    simp [ht, hi]
  -- The first shapes of the pairs are those of the template, since the lists have one length.
  · have hfst : (ts.zip is).map Prod.fst = ts := List.map_fst_zip (Nat.le_of_eq hlen)
    have hmap : (ts.zip is).flatMap (·.1.varOccurrences) =
        ((ts.zip is).map Prod.fst).flatMap varOccurrences := by
      rw [List.flatMap_map]
    rw [hmap, hfst, varOccurrencesSlots, varOccurrencesAll_eq_flatMap]
    simp

/-- Unifying slots is a run over the pairs of shapes that meet. -/
theorem exists_run_of_unifySlots {room : Nat} {fail : MismatchReason → Error} {index : Nat}
    {ts is : List Slot} {s s' : Subst} (htidy : ∀ t ∈ slotShapes ts, t.Tidy)
    (hlen : ts.length = is.length) (h : r.unifySlots room fail index ts is s = .ok s') :
    ∃ pairs, Meet ts is pairs ∧ r.UnifyRun pairs s s' := by
  -- By induction on the slots of the template; the wildcard adds no pair, a single slot one, a
  -- group one for each of its shapes.
  induction ts generalizing index is s with
  | nil =>
    cases is with
    | nil =>
      simp only [unifySlots] at h
      cases h
      exact ⟨[], .nil, .nil⟩
    | cons i is => cases hlen
  | cons t ts ih =>
    cases is with
    | nil => cases hlen
    | cons i is =>
      have hlen' := Nat.succ.inj hlen
      cases t with
      | single t =>
        obtain ⟨ht, hts⟩ := List.forall_mem_cons.1 htidy
        simp only [unifySlots] at h
        split at h
        · cases h
        split at h
        · rename_i hany
          obtain ⟨pairs, hmeet, hrun⟩ := ih hts hlen' h
          obtain rfl := ht.eq_any hany
          exact ⟨pairs, Meet.cons (Meet.wildcard i) hmeet, hrun⟩
        · cases i with
          | group is => cases h
          | single i =>
            obtain ⟨s₁, hstep, h⟩ := bind_eq_ok.1 h
            obtain ⟨pairs, hmeet, hrun⟩ := ih hts hlen' h
            exact ⟨_, Meet.cons (Meet.single t i) hmeet, .cons hstep hrun⟩
      | group ps =>
        obtain ⟨-, hts⟩ := List.forall_mem_append.1 htidy
        cases i with
        | single i => cases h
        | group qs =>
          simp only [unifySlots] at h
          split at h
          · cases h
          · rename_i hgroup
            have hgroup' : ps.length = qs.length := by simpa using hgroup
            obtain ⟨s₁, hall, h⟩ := bind_eq_ok.1 h
            obtain ⟨pairs, hmeet, hrun⟩ := ih hts hlen' h
            exact ⟨_, Meet.cons (Meet.group hgroup') hmeet,
              (run_of_unifyAll hgroup' hall).append hrun⟩

/-- Unifying a template that has slots is a run over the shapes in the slots. -/
theorem exists_run_of_unifyAt {room : Nat} {kind : OriginKind} {name : Text} {slots : List Slot}
    {inst : Shape} {s s' : Subst} (hkind : kind ≠ .any) (htidy : ∀ t ∈ slotShapes slots, t.Tidy)
    (h : r.unifyAt room (.applied (.plain kind name) slots) inst s = .ok s') :
    r.originSatisfies inst (.applied (.plain kind name) slots) = true ∧
      inst.isParameterized = true ∧
      ∃ pairs, Meet slots inst.slots pairs ∧ r.UnifyRun pairs s s' := by
  obtain ⟨hmismatch, room', fail, hslots⟩ := unifyAt_applied hkind h
  obtain ⟨horigin, hparam⟩ := roots_of_rootMismatch? hmismatch
  obtain ⟨hinst, hlen⟩ := hparam rfl
  exact ⟨horigin, hinst, exists_run_of_unifySlots htidy hlen hslots⟩

/-! ## What a run binds -/

/-- A name that no step binds anew keeps its binding. -/
theorem UnifyRun.find?_eq {pairs : List (Shape × Shape)} {s s' : Subst}
    (h : r.UnifyRun pairs s s') {n : Text}
    (hstep : ∀ p ∈ pairs, ∀ room s s', r.unifyAt room p.1 p.2 s = .ok s' →
      Table.find? s' n = Table.find? s n) : Table.find? s' n = Table.find? s n := by
  induction h with
  | nil => rfl
  | cons hfirst _ ih =>
    obtain ⟨hp, hps⟩ := List.forall_mem_cons.1 hstep
    exact (ih hps).trans (hp _ _ _ hfirst)

/-- A name that is not in the template keeps its binding. -/
theorem find?_of_unifyAt {tmpl : Shape} (ht : tmpl.Tidy) {n : Text}
    (hn : ∀ v ∈ tmpl.varOccurrences, v.name ≠ n) {room : Nat} {inst : Shape} {s s' : Subst}
    (h : r.unifyAt room tmpl inst s = .ok s') : Table.find? s' n = Table.find? s n := by
  -- By induction on the template; in a shape with slots, the name is in none of the pairs.
  induction ht generalizing room inst s s' with
  | any =>
    rw [any, unifyAt] at h
    split at h
    · cases h
    · cases h
      rfl
  | ofVar v =>
    obtain ⟨t, -, rfl⟩ := unifyAt_ofVar h
    exact Table.find?_put_of_ne (hn v (List.mem_singleton_self v)).symm t s
  | bare name hkind _ =>
    obtain ⟨-, rfl⟩ := unifyAt_bare hkind h
    rfl
  | applied name hkind htidy ih =>
    obtain ⟨-, -, pairs, hmeet, hrun⟩ := exists_run_of_unifyAt hkind htidy h
    refine hrun.find?_eq fun p hp room s s' hstep => ih p.1 (hmeet.mem p hp).1 ?_ hstep
    intro v hv
    refine hn v ?_
    rw [varOccurrences_applied, ← hmeet.vars]
    exact List.mem_flatMap.2 ⟨p, hp, hv⟩

/-- If every step binds the names in its template, so does the run: later steps bind a name again or
leave it alone. -/
theorem UnifyRun.bound {P : TypeExpr → Prop} {pairs : List (Shape × Shape)} {s s' : Subst}
    (h : r.UnifyRun pairs s s') (htidy : ∀ p ∈ pairs, p.1.Tidy)
    (hstep : ∀ p ∈ pairs, ∀ room s s', r.unifyAt room p.1 p.2 s = .ok s' →
      ∀ v ∈ p.1.varOccurrences, ∃ t, Table.find? s' v.name = some t ∧ P t) :
    ∀ p ∈ pairs, ∀ v ∈ p.1.varOccurrences, ∃ t, Table.find? s' v.name = some t ∧ P t := by
  -- By induction on the run: what the first step has bound is bound again by a later one or kept to
  -- the end.
  induction h with
  | nil => simp
  | @cons room tmpl inst pairs s s₁ s₂ hfirst hrest ih =>
    obtain ⟨-, htidy⟩ := List.forall_mem_cons.1 htidy
    obtain ⟨hbinds, hstep⟩ := List.forall_mem_cons.1 hstep
    have hlater := ih htidy hstep
    refine List.forall_mem_cons.2 ⟨fun v hv => ?_, hlater⟩
    by_cases hagain : ∃ q ∈ pairs, ∃ w ∈ q.1.varOccurrences, w.name = v.name
    · obtain ⟨q, hq, w, hw, hname⟩ := hagain
      rw [← hname]
      exact hlater q hq w hw
    · have hkept : Table.find? s₂ v.name = Table.find? s₁ v.name :=
        hrest.find?_eq fun q hq _ _ _ hq' => find?_of_unifyAt (htidy q hq)
          (fun w hw hname => hagain ⟨q, hq, w, hw, hname⟩) hq'
      rw [hkept]
      exact hbinds _ _ _ hfirst v hv

/-- Every name in the template is bound, by an expression without variables. -/
theorem bound_of_unifyAt {tmpl : Shape} (ht : tmpl.Tidy) {room : Nat} {inst : Shape}
    (hi : inst.Regular) (hconcrete : inst.isConcrete = true) {s s' : Subst}
    (h : r.unifyAt room tmpl inst s = .ok s') :
    ∀ v ∈ tmpl.varOccurrences, ∃ t, Table.find? s' v.name = some t ∧ t.varOccurrences = [] := by
  induction ht generalizing room inst s s' with
  | any => exact fun v hv => absurd hv List.not_mem_nil
  | ofVar w =>
    intro v hv
    obtain ⟨t, hexpr, rfl⟩ := unifyAt_ofVar h
    -- The expression of a concrete shape has no variables, because it has those of the shape.
    obtain ⟨t', hexpr', -, hvars⟩ := hi.expression
    rw [hexpr] at hexpr'
    cases hexpr'
    rw [List.mem_singleton.1 hv, Table.find?_put_self]
    exact ⟨t, rfl, hvars.trans (by simpa [isConcrete] using hconcrete)⟩
  | bare name hkind _ => exact fun v hv => absurd hv List.not_mem_nil
  | applied name hkind htidy ih =>
    intro v hv
    obtain ⟨-, -, pairs, hmeet, hrun⟩ := exists_run_of_unifyAt hkind htidy h
    rw [varOccurrences_applied, ← hmeet.vars] at hv
    obtain ⟨p, hp, hv⟩ := List.mem_flatMap.1 hv
    have hpairs : ∀ q ∈ pairs, q.1.Tidy := fun q hq => htidy _ (hmeet.mem q hq).1
    refine hrun.bound hpairs (fun q hq room s s' hstep => ?_) p hp v hv
    obtain ⟨htmpl, hinst⟩ := hmeet.mem q hq
    exact ih q.1 htmpl (hi.of_mem_slotShapes hinst)
      (isConcrete_of_mem_slotShapes hconcrete hinst) hstep

/-- In a run over templates that share no names, the names of each template keep the bindings that
its own step has given them. -/
theorem UnifyRun.exists_step {pairs : List (Shape × Shape)} {s s' : Subst}
    (h : r.UnifyRun pairs s s') (htidy : ∀ p ∈ pairs, p.1.Tidy)
    (hnodup : ((pairs.flatMap (·.1.varOccurrences)).map (·.name)).Nodup) :
    ∀ p ∈ pairs, ∃ room s₁ s₂, r.unifyAt room p.1 p.2 s₁ = .ok s₂ ∧
      ∀ v ∈ p.1.varOccurrences, Table.find? s' v.name = Table.find? s₂ v.name := by
  -- By induction on the run: the names of the first template are in none of the later ones, so they
  -- keep their bindings.
  induction h with
  | nil => simp
  | @cons room tmpl inst pairs s s₁ s₂ hfirst hrest ih =>
    obtain ⟨-, htidy⟩ := List.forall_mem_cons.1 htidy
    rw [List.flatMap_cons, List.map_append, List.nodup_append] at hnodup
    obtain ⟨-, hnodup, hdisjoint⟩ := hnodup
    refine List.forall_mem_cons.2 ⟨⟨room, s, s₁, hfirst, fun v hv => ?_⟩, ih htidy hnodup⟩
    refine hrest.find?_eq fun q hq _ _ _ hstep => find?_of_unifyAt (htidy q hq) ?_ hstep
    intro w hw hname
    have hmem : w.name ∈ (pairs.flatMap (·.1.varOccurrences)).map (·.name) :=
      List.mem_map_of_mem (List.mem_flatMap.2 ⟨q, hq, hw⟩)
    exact hdisjoint v.name (List.mem_map_of_mem hv) w.name hmem hname.symm

end TypeShape.Registry
