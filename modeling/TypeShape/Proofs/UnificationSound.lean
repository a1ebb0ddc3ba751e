import TypeShape.Proofs.RoundTrip
import TypeShape.Proofs.Substitutions
import TypeShape.Proofs.SubtypeUnions
import TypeShape.Proofs.UnificationRuns

/-!
# Unification and subtyping

What unification lets through, the subtype check accepts: an instance is below the template with the
bindings that were found put in.  The two walk differently.  Unification pairs the branches of two
unions by position; the check opens the union of the instance first, and only then looks for a
branch of the template.  A union that was bound to a variable is opened on both sides, one level for
each union that it is made of, so the check may need more levels than the template and the instance
have together.

## Key results

- `Registry.holds_of_unifyAt`: how many levels suffice for a yes
- `Engine.isSubtype_of_unify`: what unification lets through is accepted
-/

namespace TypeShape

/-! ## Unions in unions -/

namespace Shape

mutual

/-- The number of unions that stand directly in one another, from the root. -/
def unionRun : Shape → Nat
  | applied (.plain .union _) slots => unionRunSlots slots + 1
  | _ => 0

/-- The longest run of unions from the shapes in a list of slots. -/
def unionRunSlots : List Slot → Nat
  | [] => 0
  | .single s :: rest => max s.unionRun (unionRunSlots rest)
  | .group ss :: rest => max (unionRunAll ss) (unionRunSlots rest)

/-- The longest run of unions from the shapes in a list. -/
def unionRunAll : List Shape → Nat
  | [] => 0
  | s :: rest => max s.unionRun (unionRunAll rest)

end

/-- The run from a shape in a list is no longer than that from the list. -/
theorem unionRun_le_unionRunAll {ss : List Shape} {s : Shape} (h : s ∈ ss) :
    s.unionRun ≤ unionRunAll ss := by
  induction ss with
  | nil => exact absurd h List.not_mem_nil
  | cons t ss ih =>
    unfold unionRunAll
    obtain rfl | h := List.mem_cons.1 h
    · exact Nat.le_max_left _ _
    · exact Nat.le_trans (ih h) (Nat.le_max_right _ _)

/-- So it is for the shapes in slots. -/
theorem unionRun_le_unionRunSlots {slots : List Slot} {s : Shape} (h : s ∈ slotShapes slots) :
    s.unionRun ≤ unionRunSlots slots := by
  -- By induction on the slots; the run of a list is the longest among its members.
  induction slots with
  | nil => exact absurd h List.not_mem_nil
  | cons slot rest ih =>
    cases slot with
    | single t =>
      unfold unionRunSlots
      obtain rfl | h := List.mem_cons.1 h
      · exact Nat.le_max_left _ _
      · exact Nat.le_trans (ih h) (Nat.le_max_right _ _)
    | group ts =>
      unfold unionRunSlots
      obtain h | h := List.mem_append.1 h
      · exact Nat.le_trans (unionRun_le_unionRunAll h) (Nat.le_max_left _ _)
      · exact Nat.le_trans (ih h) (Nat.le_max_right _ _)

/-- The run from a branch is shorter than that from its union. -/
theorem unionRun_lt_of_mem_branches {u b : Shape} (hu : u.isUnion = true) (hb : b ∈ u.branches) :
    b.unionRun < u.unionRun := by
  rw [branches_eq hu] at hb
  cases u with
  | bare o => exact absurd hb List.not_mem_nil
  | applied o slots =>
    cases o with
    | plain kind name =>
      obtain rfl : kind = .union := by simpa [isUnion, hasKind] using hu
      exact Nat.lt_succ_of_le (unionRun_le_unionRunSlots hb)
    | _ => cases hu

/-- A shape stands in another, under a number of unions. -/
inductive StandsIn (y : Shape) : Nat → Shape → Prop where
  | here : StandsIn y 0 y
  | branch {j : Nat} {u b : Shape} : u.isUnion = true → b ∈ u.branches → StandsIn y j b →
    StandsIn y (j + 1) u

/-- What is a branch of a shape stands in a union one level deeper than the shape. -/
theorem StandsIn.of_mem_branches {y z u : Shape} {j : Nat} (h : y.StandsIn j u)
    (hy : y.isUnion = true) (hz : z ∈ y.branches) : z.StandsIn (j + 1) u := by
  induction h with
  | here => exact .branch hy hz .here
  | branch hu hb _ ih => exact .branch hu hb ih

/-- What stands in a whole shape is whole. -/
theorem StandsIn.isWhole {y u : Shape} {j : Nat} (h : y.StandsIn j u) (hu : u.isWhole = true) :
    y.isWhole = true := by
  induction h with
  | here => exact hu
  | branch _ hb _ ih => exact ih (isWhole_of_mem_branches hu hb)

/-- A variable is a branch of a union somewhere in a shape. -/
inductive UnionVar (v : TypeVar) : Shape → Prop where
  | branch {u : Shape} : u.isUnion = true → .ofVar v ∈ u.branches → UnionVar v u
  | inside {s b : Shape} : b ∈ slotShapes s.slots → UnionVar v b → UnionVar v s

/-- Shapes without variables that are no unions are solid. -/
theorem isSolid_of_isConcrete {s : Shape} (hs : s.isWhole = true) (h : s.isConcrete = true)
    (hu : s.isUnion = false) : s.isSolid = true :=
  isSolid_iff.2 ⟨isHole_of_isWhole hs, hu, var?_of_isConcrete h⟩

/-- The branches of a concrete union are concrete. -/
theorem isConcrete_of_mem_branches {u b : Shape} (h : u.isConcrete = true) (hu : u.isUnion = true)
    (hb : b ∈ u.branches) : b.isConcrete = true := by
  rw [branches_eq hu] at hb
  exact isConcrete_of_mem_slotShapes h hb

end Shape

namespace Registry

open Shape

variable {r : Registry} {see : View} {a u y : Shape}

section Levels

variable (hsee : see.IsWhole)

include hsee

/-- What is below a shape is below every union it stands in, one level more for each union. -/
theorem holds_of_standsIn (ha : a.isWhole = true) (hsolid : a.isSolid = true)
    (hu : u.isWhole = true) {j n : Nat} (hy : y.StandsIn j u) (h : r.Holds see n [] a y) :
    r.Holds see (n + j) [] a u := by
  induction hy with
  | here => exact h
  | branch hunion hb _ ih =>
    exact holds_of_rule_of_isWhole hsee ha hu
      (.someBranch hsolid hunion hb (ih (isWhole_of_mem_branches hu hb)))

/-- A shape without variables is below a union if a shape stands in it that is the same, the
wildcard or `Object`. -/
theorem holds_of_accepts (ha : a.isWhole = true) (hconcrete : a.isConcrete = true)
    (hu : u.isWhole = true) {j : Nat} (hy : y.StandsIn j u)
    (h : a.same y = true ∨ y.isAny = true ∨ y.isObject = true) {n : Nat}
    (hn : a.depth + j + y.unionRun ≤ n) : r.Holds see n [] a u := by
  -- By induction on the depth of the instance, whose unions are opened first.
  induction hd : a.depth using Nat.strong_induction_on generalizing a y j n with
  | _ d ih =>
    subst hd
    have hwy := hy.isWhole hu
    have hpos := depth_pos a
    by_cases hau : a.isUnion = true
    · obtain ⟨n, rfl⟩ : ∃ m, n = m + 1 := ⟨n - 1, by omega⟩
      refine holds_of_rule_of_isWhole hsee ha hu (.everyBranch hau (isHole_of_isWhole hu) ?_)
      intro b hb
      have hlt := depth_lt_of_mem_branches hau hb
      have hwb := isWhole_of_mem_branches ha hb
      have hcb := isConcrete_of_mem_branches hconcrete hau hb
      obtain hsame | hwide := h
      · -- The branch has a partner among the branches of what is the same.
        obtain ⟨hyu, z, hz, hbz⟩ := exists_same_of_mem_branches hsame hau hb
        have hrun := unionRun_lt_of_mem_branches hyu hz
        exact ih _ hlt hwb hcb (hy.of_mem_branches hyu hz) (.inl hbz) (by omega) rfl
      · exact ih _ hlt hwb hcb hy (.inr hwide) (by omega) rfl
    · have hsolid := isSolid_of_isConcrete ha hconcrete (by simpa using hau)
      have hone : r.Holds see 1 [] a y := by
        refine holds_of_rule_of_isWhole hsee ha hwy ?_
        obtain hsame | hany | hobject := h
        · exact .same (isHole_of_isWhole ha) (isHole_of_isWhole hwy) hsame
        · exact .any (isHole_of_isWhole ha) hany
        · refine .nominal hsolid ?_ (.inl hobject)
          rw [isObject_iff.1 hobject]
          rfl
      exact (holds_of_standsIn hsee ha hsolid hu hy hone).mono hsee (by omega) ha hu

end Levels

/-! ## What unification lets through -/

/-- Nothing is put into the wildcard. -/
theorem isAny_substitute {t : Shape} (h : t.isAny = true) (s : Subst) :
    (t.substitute s).isAny = true := by
  cases t with
  | bare o =>
    cases o with
    | plain kind name => rwa [substitute_plain]
    | _ => cases h
  | applied o slots =>
    cases o with
    | plain kind name => rwa [substitute_applied]
    | _ => cases h

/-- The shapes in slots after replacing are those before, replaced. -/
theorem slotShapes_map_substitute (s : Subst) (slots : List Slot) :
    slotShapes (slots.map (Slot.substitute s)) = (slotShapes slots).map (·.substitute s) := by
  induction slots with
  | nil => rfl
  | cons slot slots ih => cases slot <;> simp [Slot.substitute, ih]

/-- Slots fit the slots of a template with bindings put in if their shapes do. -/
theorem forall₂_slotFits_substitute {sub : Shape → Shape → Prop} {s : Subst} {is ts : List Slot}
    (h : List.Forall₂ (SlotFits fun x t => sub x (t.substitute s)) is ts) :
    List.Forall₂ (SlotFits sub) is (ts.map (Slot.substitute s)) := by
  -- Putting bindings in keeps slots single or groups, and the wildcard as it is.
  refine List.forall₂_map_right_iff.2 (h.imp fun i t hslot => ?_)
  cases i with
  | single x =>
    cases t with
    | single t => exact hslot.imp_left fun hany => isAny_substitute hany s
    | group ts => exact hslot
  | group xs =>
    cases t with
    | single t => exact isAny_substitute hslot s
    | group ts => exact List.forall₂_map_right_iff.2 hslot

/-- Every shape in slots that fit has a partner in the slots of the template. -/
theorem exists_of_forall₂_slotFits {sub : Shape → Shape → Prop} {is ts : List Slot}
    (h : List.Forall₂ (SlotFits sub) is ts) {x : Shape} (hx : x ∈ slotShapes is) :
    ∃ t ∈ slotShapes ts, t.isAny = true ∨ sub x t := by
  -- By induction on the slots; a shape stands in the first of them or behind it.
  induction h with
  | nil => exact absurd hx List.not_mem_nil
  | @cons i t is ts hslot _ ih =>
    have hrest : x ∈ slotShapes is → ∃ u ∈ slotShapes (t :: ts), u.isAny = true ∨ sub x u := by
      intro hx
      obtain ⟨u, hu, hux⟩ := ih hx
      refine ⟨u, ?_, hux⟩
      cases t <;> simp [hu]
    cases i with
    | single i =>
      obtain rfl | hx := List.mem_cons.1 hx
      · cases t with
        | single t => exact ⟨t, List.mem_cons_self, hslot⟩
        | group ts => exact hslot.elim
      · exact hrest hx
    | group xs =>
      obtain hx | hx := List.mem_append.1 hx
      · cases t with
        | single t => exact ⟨t, List.mem_cons_self, .inl hslot⟩
        | group us =>
          obtain ⟨u, hu, hxu⟩ := exists_of_forall₂ hslot hx
          exact ⟨u, List.mem_append_left _ hu, .inr hxu⟩
      · exact hrest hx

/-- Bindings from a run, as far as the variables of a template go. -/
def AgreesOn (t : Shape) (s s' : Subst) : Prop :=
  ∀ v ∈ t.varOccurrences, Table.find? s v.name = Table.find? s' v.name

/-- Variables that are branches of unions are bound to short runs of unions. -/
def ShortRuns (k j : Nat) (t : Shape) (s : Subst) : Prop :=
  ∀ v, UnionVar v t ∨ (0 < j ∧ t = .ofVar v) → ∀ u, Table.find? s v.name = some u →
    u.shape.unionRun ≤ k + 1

/-- What unification lets through is below the template with the bindings put in, and below every
union this stands in.  It takes as many levels as the template and the instance have, one for every
union on the way, and `k` more for the unions that are bound to branches of unions. -/
theorem holds_of_unifyAt (hsee : see.IsWhole) {tmpl : Shape} (ht : tmpl.Tidy) {s : Subst}
    {room : Nat} {inst : Shape} {s₀ s₁ : Subst} (h : r.unifyAt room tmpl inst s₀ = .ok s₁)
    (hagrees : AgreesOn tmpl s s₁) (hnodup : (tmpl.varOccurrences.map (·.name)).Nodup)
    (hi : inst.Regular) (hconcrete : inst.isConcrete = true) {j : Nat} {u : Shape}
    (hy : (tmpl.substitute s).StandsIn j u) (hu : u.isWhole = true) {k : Nat}
    (hruns : ShortRuns k j tmpl s) {n : Nat} (hn : inst.depth + tmpl.depth + j + k ≤ n) :
    r.Holds see n [] inst u := by
  -- By induction on the template, for every union that it stands in: the union of an instance is
  -- opened before the union around the template, so the levels of both have to be counted.
  induction ht generalizing room inst s₀ s₁ j u n with
  | any =>
    rw [Shape.any, substitute_plain] at hy
    exact holds_of_accepts hsee hi.isWhole hconcrete hu hy (.inr (.inl rfl))
      (by simp only [unionRun]; omega)
  | ofVar v =>
    obtain ⟨t, hexpr, rfl⟩ := unifyAt_ofVar h
    obtain ⟨t', hexpr', hsame, -⟩ := hi.expression
    obtain rfl : t = t' := by simpa [hexpr] using hexpr'
    have hfind : Table.find? s v.name = some t := by
      rw [hagrees v (List.mem_singleton_self v), Table.find?_put_self]
    rw [substitute_ofVar, Subst.value, hfind, Option.getD_some] at hy
    have hdepth : (ofVar v).depth = 1 := rfl
    by_cases hj : 0 < j
    · have hrun := hruns v (.inr ⟨hj, rfl⟩) t hfind
      exact holds_of_accepts hsee hi.isWhole hconcrete hu hy (.inl hsame) (by omega)
    · -- Under no union, the instance and its binding are compared at once.
      obtain rfl : j = 0 := by omega
      obtain ⟨n, rfl⟩ : ∃ m, n = m + 1 := ⟨n - 1, by omega⟩
      cases hy
      exact holds_of_rule_of_isWhole hsee hi.isWhole hu
        (.same (isHole_of_isWhole hi.isWhole) (isHole_of_isWhole hu) hsame)
  | @bare kind name hany hunion =>
    rw [substitute_plain] at hy
    obtain ⟨hroot, rfl⟩ := unifyAt_bare hany h
    obtain ⟨horigin, -⟩ := roots_of_rootMismatch? hroot
    by_cases hobject : (bare (.plain kind name)).isObject = true
    · refine holds_of_accepts hsee hi.isWhole hconcrete hu hy (.inr (.inr hobject)) ?_
      rw [isObject_iff.1 hobject]
      simp only [unionRun, leaf]
      omega
    · obtain ⟨kind', m, n', hio, hto, -⟩ :=
        kinds_of_originSatisfies (var?_of_isConcrete hconcrete) (by simpa using hobject) horigin
      obtain ⟨rfl, rfl⟩ : kind = kind' ∧ name = n' := by simpa using hto
      have hiu : inst.isUnion = false := by simp [isUnion, hasKind, hio, hunion]
      have hsolid := isSolid_of_isConcrete hi.isWhole hconcrete hiu
      have hsolid' : (bare (.plain kind name)).isSolid = true := by
        simp [isSolid, isHole, isUnion, hasKind, Shape.var?, hunion]
      have hone : r.Holds see 1 [] inst (bare (.plain kind name)) :=
        holds_of_rule_of_isWhole hsee hi.isWhole (hy.isWhole hu)
          (.nominal hsolid hsolid' (.inr ⟨horigin, .inl rfl⟩))
      have hpos := depth_pos inst
      exact (holds_of_standsIn hsee hi.isWhole hsolid hu hy hone).mono hsee (by omega) hi.isWhole hu
  | @applied kind name slots hany htidy ih =>
    rw [substitute_applied] at hy
    obtain ⟨horigin, hparam, pairs, hmeet, hrun⟩ := exists_run_of_unifyAt hany htidy h
    obtain ⟨kind', m, n', hio, hto, hsub⟩ :=
      kinds_of_originSatisfies (var?_of_isConcrete hconcrete) rfl horigin
    obtain ⟨rfl, rfl⟩ : kind = kind' ∧ name = n' := by simpa using hto
    rw [varOccurrences_applied, ← hmeet.vars] at hnodup
    have hpairs : ∀ p ∈ pairs, p.1.Tidy := fun p hp => htidy _ (hmeet.mem p hp).1
    -- The induction hypothesis for shapes that meet, wherever the template stands.
    have hpair : ∀ {t x : Shape}, (t, x) ∈ pairs → ∀ {j' : Nat} {u' : Shape} {m : Nat},
        (t.substitute s).StandsIn j' u' → u'.isWhole = true → (0 < j' → kind = .union) →
        x.depth + t.depth + j' + k ≤ m → r.Holds see m [] x u' := by
      intro t x hp j' u' m hstands hwhole hkind hm
      obtain ⟨htmem, hxmem⟩ := hmeet.mem _ hp
      obtain ⟨room', s₂, s₃, hstep, hkept⟩ := hrun.exists_step hpairs hnodup _ hp
      refine ih t htmem hstep (fun v hv => ?_) ?_ (hi.of_mem_slotShapes hxmem)
        (isConcrete_of_mem_slotShapes hconcrete hxmem) hstands hwhole ?_ hm
      · refine (hagrees v ?_).trans (hkept v hv)
        rw [varOccurrences_applied, ← hmeet.vars]
        exact List.mem_flatMap.2 ⟨_, hp, hv⟩
      · rw [List.map_flatMap] at hnodup
        exact (List.nodup_flatMap.1 hnodup).1 _ hp
      · rintro v (hv | ⟨hj', rfl⟩)
        · exact hruns v (.inl (.inside htmem hv))
        · obtain rfl := hkind hj'
          refine hruns v (.inl (.branch rfl ?_))
          rwa [branches_eq rfl]
    have hmem : ∀ {t : Shape}, t ∈ slotShapes slots →
        t.substitute s ∈ slotShapes (slots.map (Slot.substitute s)) := by
      intro t ht
      rw [slotShapes_map_substitute]
      exact List.mem_map_of_mem ht
    by_cases hunion : kind = .union
    · -- The union of the instance is opened before the template is looked at.
      subst hunion
      have hiu : inst.isUnion = true := by simp [isUnion, hasKind, hio]
      obtain ⟨n, rfl⟩ : ∃ m, n = m + 1 := ⟨n - 1, by have := depth_pos inst; omega⟩
      refine holds_of_rule_of_isWhole hsee hi.isWhole hu
        (.everyBranch hiu (isHole_of_isWhole hu) fun b hb => ?_)
      have hlt := depth_lt_of_mem_branches hiu hb
      have hwb := isWhole_of_mem_branches hi.isWhole hb
      have hcb := isConcrete_of_mem_branches hconcrete hiu hb
      rw [branches_eq hiu] at hb
      obtain ⟨t, ht, hfits⟩ := exists_of_forall₂_slotFits hmeet.fits hb
      have hstands := hy.of_mem_branches rfl (by rw [branches_eq rfl]; exact hmem ht)
      have hlt' : t.depth < (applied (.plain .union name) slots).depth :=
        depth_lt_of_mem_slotShapes ht
      obtain hwild | hp := hfits
      · obtain rfl := (htidy t ht).eq_any hwild
        rw [Shape.any, substitute_plain] at hstands
        exact holds_of_accepts hsee hwb hcb hu hstands (.inr (.inl rfl))
          (by simp only [unionRun]; omega)
      · exact hpair hp hstands hu (fun _ => rfl) (by omega)
    · have hiu : inst.isUnion = false := by simp [isUnion, hasKind, hio, hunion]
      have hsolid := isSolid_of_isConcrete hi.isWhole hconcrete hiu
      have hwy := hy.isWhole hu
      have hsolid' :
          (applied (.plain kind name) (slots.map (Slot.substitute s))).isSolid = true := by
        simp [isSolid, isHole, isUnion, hasKind, Shape.var?, hunion]
      obtain ⟨m, rfl⟩ : ∃ m, n = m + 1 + j := ⟨n - j - 1, by have := depth_pos inst; omega⟩
      have hslots : List.Forall₂ (SlotFits (r.Holds see m [])) inst.slots
          (slots.map (Slot.substitute s)) := by
        refine forall₂_slotFits_substitute (forall₂_slotFits_imp ?_ hmeet.fits)
        intro x hx t ht hp
        have hlt := depth_lt_of_mem_slotShapes hx
        have hlt' : t.depth < (applied (.plain kind name) slots).depth :=
          depth_lt_of_mem_slotShapes ht
        have hwt := isWhole_of_mem_slotShapes (slotsWhole_of_isWhole hwy) (hmem ht)
        exact hpair hp .here hwt (fun h => absurd h (Nat.lt_irrefl 0)) (by omega)
      have hroot : r.Holds see (m + 1) [] inst
          (applied (.plain kind name) (slots.map (Slot.substitute s))) :=
        holds_of_rule_of_isWhole hsee hi.isWhole hwy (.nominal hsolid hsolid'
          (.inr ⟨originSatisfies_of_kinds hio rfl hsub, .inr ⟨hparam, hslots⟩⟩))
      exact holds_of_standsIn hsee hi.isWhole hsolid hu hy hroot

end Registry

namespace Engine

/-- If a template in which no variable occurs twice unifies with an instance without variables, then
the variables of the template are bound, by expressions without variables, and nothing else is.  The
instance is a subtype of the template with the bindings put in, if there is a level for every level
of the two, and one more for every union but one that a variable among the branches of a union is
bound to. -/
theorem isSubtype_of_unify (e : Engine) (hmemo : e.memo.IsWhole)
    (haliases : e.registry.aliases = []) {source source' : Text} {tmpl inst : TypeExpr}
    (htmpl : e.registry.parse source = .ok tmpl) (hinst : e.registry.parse source' = .ok inst)
    (hnodup : (tmpl.shape.varOccurrences.map (·.name)).Nodup)
    (hconcrete : inst.shape.isConcrete = true) {s : Subst}
    (h : e.registry.unify tmpl.shape inst.shape = .ok s) :
    (∀ n, (Table.find? s n).isSome = true ↔ ∃ v ∈ tmpl.shape.varOccurrences, v.name = n) ∧
    (∀ n t, Table.find? s n = some t → t.varOccurrences = []) ∧
    (tmpl.shape.depth + inst.shape.depth ≤ maxRecursion →
      (∀ v, tmpl.shape.UnionVar v → ∀ t, Table.find? s v.name = some t →
        tmpl.shape.depth + inst.shape.depth + t.shape.unionRun ≤ maxRecursion + 2) →
      (e.isSubtype inst.shape (tmpl.shape.substitute s)).1 = true) := by
  have ht := (Registry.regular_of_parse haliases htmpl).shape
  have hi := (Registry.regular_of_parse haliases hinst).shape
  have hbound := Registry.bound_of_unifyAt ht.tidy hi hconcrete h
  -- A name that is not in the template is not bound, because nothing was bound before.
  have hnames : ∀ n, (Table.find? s n).isSome = true →
      ∃ v ∈ tmpl.shape.varOccurrences, v.name = n := by
    intro n hn
    by_contra hnone
    have hkept := Registry.find?_of_unifyAt ht.tidy
      (fun v hv hname => hnone ⟨v, hv, hname⟩) h
    rw [hkept] at hn
    cases hn
  refine ⟨fun n => ⟨hnames n, ?_⟩, fun n t hn => ?_, fun hdepth hruns => ?_⟩
  · rintro ⟨v, hv, rfl⟩
    obtain ⟨t, hfind, -⟩ := hbound v hv
    rw [hfind]
    rfl
  · obtain ⟨v, hv, rfl⟩ := hnames n (by rw [hn]; rfl)
    obtain ⟨t', hfind, hclosed⟩ := hbound v hv
    rw [hn] at hfind
    cases hfind
    exact hclosed
  · have hsee := (e.subtypeRun_isWhole hmemo inst.shape (tmpl.shape.substitute s)).view
    rw [e.isSubtype_iff_holds _ _ (Memo.view_agrees _)]
    -- The levels that are left over are those that the bound unions may take.
    refine Registry.holds_of_unifyAt (k := maxRecursion + 1 - (tmpl.shape.depth + inst.shape.depth))
      hsee ht.tidy h (fun _ _ => rfl) hnodup hi hconcrete .here (ht.isWhole_substitute s) ?_ ?_
    · rintro v (hv | ⟨hj, -⟩) t hfind
      · have hrun := hruns v hv t hfind
        omega
      · exact absurd hj (Nat.lt_irrefl 0)
    · omega

/-- A map unifies with a mapping, and is a subtype of what comes of it. -/
theorem map_isSubtype_of_unify :
    let e : Engine := {}
    let tmpl := TypeExpr.app Name.mapping
      [Registry.keyVar.toExpr, .optionalOf Registry.valueVar.toExpr]
    let inst := TypeExpr.app Name.map [.con Name.string, .optionalOf (.con Name.int)]
    let s : Subst := [(Registry.keyVar.name, .con Name.string),
      (Registry.valueVar.name, .con Name.int)]
    e.registry.parse (text "Mapping[_K, Optional[_V]]") = .ok tmpl ∧
      e.registry.parse (text "Map[String, Optional[Int]]") = .ok inst ∧
      e.registry.unify tmpl.shape inst.shape = .ok s ∧
      (e.isSubtype inst.shape (tmpl.shape.substitute s)).1 = true := by
  intro e tmpl inst s
  have htmpl : e.registry.parse (text "Mapping[_K, Optional[_V]]") = .ok tmpl := rfl
  have hinst : e.registry.parse (text "Map[String, Optional[Int]]") = .ok inst := rfl
  have hunify : e.registry.unify tmpl.shape inst.shape = .ok s := rfl
  -- Neither binding has a union in it.
  have hruns : ∀ n t, Table.find? s n = some t → t.shape.unionRun = 0 := by
    intro n t hfind
    rw [Table.find?_cons, Table.find?_cons] at hfind
    split at hfind
    · cases hfind
      rfl
    split at hfind
    · cases hfind
      rfl
    · cases hfind
  refine ⟨htmpl, hinst, hunify, ?_⟩
  refine (isSubtype_of_unify e Memo.isWhole_nil rfl htmpl hinst (by decide) (by decide) hunify).2.2
    (by decide) fun v _ t hfind => ?_
  rw [hruns _ t hfind]
  decide

/-- `Int` in a number of unions with `String`. -/
def unions : Nat → TypeExpr
  | 0 => .con Name.int
  | n + 1 => .union [unions n, .con Name.string] false

/-- A name is written for what it stands for. -/
theorem written_name {scope : Scope} {n : Text} {t : TypeExpr} (hn : Token.isIdentifier n = true)
    (hkeyword : Name.isKeyword n = false) (hlookup : scope n = some t)
    (homitted : t.isOmitted = false) (hrender : t.render = n) : Written scope t := by
  subst hrender
  exact ⟨homitted, _, .name hn, .plain hkeyword hlookup⟩

/-- These unions can be written. -/
theorem written_unions (n : Nat) : Written Registry.builtin.lookup (unions n) := by
  induction n with
  | zero => exact written_name (n := Name.int) (by decide) (by decide) rfl rfl rfl
  | succ n ih =>
    refine written_union (Nat.le_refl 2) (List.forall_mem_cons.2 ⟨ih, ?_⟩)
    exact List.forall_mem_singleton.2
      (written_name (n := Name.string) (by decide) (by decide) rfl rfl rfl)

/-- A union of unions that was bound to a branch of a union takes more levels than there are. -/
theorem unify_not_isSubtype :
    let e : Engine := {}
    ∃ source source' tmpl inst s, e.registry.aliases = [] ∧ e.registry.parse source = .ok tmpl ∧
      e.registry.parse source' = .ok inst ∧ (tmpl.shape.varOccurrences.map (·.name)).Nodup ∧
      inst.shape.isConcrete = true ∧ tmpl.shape.depth + inst.shape.depth ≤ maxRecursion ∧
      e.registry.unify tmpl.shape inst.shape = .ok s ∧
      (e.isSubtype inst.shape (tmpl.shape.substitute s)).1 = false := by
  intro e
  have hparse : ∀ t : TypeExpr, Written Registry.builtin.lookup t →
      e.registry.parse t.render = .ok t := by
    intro t ht
    obtain ⟨ss, hss, hterm⟩ := ht.term
    exact Registry.parse_of_produces hss.lexes (.single hterm)
  have hvar : Written Registry.builtin.lookup Registry.elementVar.toExpr :=
    written_name (n := text "_T") (by decide) (by decide) rfl rfl rfl
  have hsequence : Written Registry.builtin.lookup (.con Name.sequence) :=
    written_name (n := Name.sequence) (by decide) (by decide) rfl rfl rfl
  have hlist : Written Registry.builtin.lookup (.con Name.list) :=
    written_name (n := Name.list) (by decide) (by decide) rfl rfl rfl
  let tmpl := TypeExpr.union [Registry.elementVar.toExpr, .con Name.sequence] false
  let inst := TypeExpr.union [unions 128, .con Name.list] false
  have htmpl := hparse tmpl (written_union (Nat.le_refl 2)
    (List.forall_mem_cons.2 ⟨hvar, List.forall_mem_singleton.2 hsequence⟩))
  have hinst := hparse inst (written_union (Nat.le_refl 2)
    (List.forall_mem_cons.2 ⟨written_unions 128, List.forall_mem_singleton.2 hlist⟩))
  have hcheck : (match e.registry.unify tmpl.shape inst.shape with
      | .ok s => !(e.isSubtype inst.shape (tmpl.shape.substitute s)).1
      -- Whether unification lets the two through and the check refuses them can be computed.
      | .error _ => false) = true := by
    decide +kernel
  cases hunify : e.registry.unify tmpl.shape inst.shape with
  | error e =>
    rw [hunify] at hcheck
    cases hcheck
  | ok s =>
    rw [hunify] at hcheck
    exact ⟨_, _, tmpl, inst, s, rfl, htmpl, hinst, by decide, by decide +kernel, by decide +kernel,
      hunify, by simpa using hcheck⟩

end Engine

end TypeShape
