import TypeShape.Proofs.SubtypeLevels

/-!
# Shapes without variables and protocols

The shape of an expression that has no type variables and names no protocols is *ground*.  A check
between ground shapes only asks about parts of them, so the sum of their depths bounds the levels it
needs, and its answer depends neither on the assumptions nor on how expressions are seen.

## Key results

- `Registry.Ground.of_shape`: shapes of expressions are ground if they have neither
- `Registry.Asks.ground`: what is asked about ground shapes is about smaller ground shapes
- `Registry.Ground.holds`: enough levels give a ground pair the same answer
- `Registry.Ground.below_iff`: on ground shapes, the check is closed under the rules both ways
-/

namespace TypeShape

namespace Shape

mutual

/-- Whether groups stand for the parameters of callables only, and whether every other callable that
carries slots takes all parameter lists. -/
@[simp] def isFormed : Shape → Bool
  | bare .hole => false
  | bare _ => true
  | applied (.plain .callable _) [.single head, .single result] =>
    head.isAny && head.isFormed && result.isFormed
  | applied (.plain .callable _) [.group params, .single result] =>
    areFormed params && result.isFormed
  | applied (.plain .callable _) _ => false
  | applied (.plain _ _) slots => singlesFormed slots
  | applied _ _ => false

/-- Whether slots hold one formed shape each. -/
@[simp] def singlesFormed : List Slot → Bool
  | [] => true
  | .single s :: rest => s.isFormed && singlesFormed rest
  | .group _ :: _ => false

/-- Whether every shape in a list is formed. -/
@[simp] def areFormed : List Shape → Bool
  | [] => true
  | s :: rest => s.isFormed && areFormed rest

end

/-- A list is formed if each of its members is. -/
theorem areFormed_iff {ss : List Shape} : areFormed ss = true ↔ ∀ s ∈ ss, s.isFormed = true := by
  induction ss with
  | nil => simp
  | cons s ss ih => simp [ih]

/-- Slots that hold single shapes are formed if the shapes are. -/
theorem singlesFormed_map_single (ss : List Shape) :
    singlesFormed (ss.map .single) = areFormed ss := by
  induction ss with
  | nil => rfl
  | cons s ss ih => simp [ih]

/-- Formed slots without groups hold the shapes of a formed list. -/
theorem singlesFormed_iff {slots : List Slot} : singlesFormed slots = true ↔
    ∃ ss : List Shape, slots = ss.map .single ∧ areFormed ss = true := by
  constructor
  · intro h
    -- By induction on the slots, none of which is a group.
    induction slots with
    | nil => exact ⟨[], rfl, rfl⟩
    | cons slot rest ih =>
      cases slot with
      | group ss => simp at h
      | single s =>
        simp only [singlesFormed, Bool.and_eq_true] at h
        obtain ⟨ss, rfl, hss⟩ := ih h.2
        exact ⟨s :: ss, rfl, by simp [h.1, hss]⟩
  · rintro ⟨ss, rfl, hss⟩
    rwa [singlesFormed_map_single]

/-- The shapes in slots that hold single shapes. -/
theorem slotShapes_map_single (ss : List Shape) : slotShapes (ss.map .single) = ss := by
  induction ss with
  | nil => rfl
  | cons s ss ih => simp [ih]

/-- The shape in a single slot. -/
theorem mem_slotShapes_single (s : Shape) : s ∈ slotShapes [.single s] :=
  List.mem_singleton_self s

/-- The shapes in a group. -/
theorem mem_slotShapes_group {ss : List Shape} {s : Shape} (h : s ∈ ss) :
    s ∈ slotShapes [.group ss] := by
  simpa using h

/-- What a formed shape looks like. -/
theorem isFormed_applied {o : Origin} {slots : List Slot} (h : (applied o slots).isFormed = true) :
    (∃ name head result, o = .plain .callable name ∧ slots = [.single head, .single result] ∧
      head.isAny = true ∧ head.isFormed = true ∧ result.isFormed = true) ∨
    (∃ name params result, o = .plain .callable name ∧ slots = [.group params, .single result] ∧
      areFormed params = true ∧ result.isFormed = true) ∨
    (∃ kind name ss, kind ≠ .callable ∧ o = .plain kind name ∧ slots = ss.map .single ∧
      areFormed ss = true) := by
  cases o with
  | hole => simp at h
  | var decl => simp at h
  | plain kind name =>
    by_cases hkind : kind = .callable
    · -- Of the lists of slots, two are those of a callable.
      subst hkind
      rcases slots with _ | ⟨head | params, _ | ⟨result | rs, _ | ⟨slot, rest⟩⟩⟩
      case cons.single.cons.single.nil =>
        simp only [isFormed, Bool.and_eq_true] at h
        exact .inl ⟨name, head, result, rfl, rfl, h.1.1, h.1.2, h.2⟩
      case cons.group.cons.single.nil =>
        simp only [isFormed, Bool.and_eq_true] at h
        exact .inr (.inl ⟨name, params, result, rfl, rfl, h.1, h.2⟩)
      all_goals simp at h
    -- All other origins have single slots only.
    · have hslots : singlesFormed slots = true := by
        cases kind with
        | callable => exact absurd rfl hkind
        | _ => simpa using h
      obtain ⟨ss, rfl, hss⟩ := singlesFormed_iff.1 hslots
      exact .inr (.inr ⟨kind, name, ss, hkind, rfl, rfl, hss⟩)

/-- The shapes in the slots of a formed shape are formed. -/
theorem isFormed_of_mem_slotShapes {s b : Shape} (h : s.isFormed = true)
    (hb : b ∈ slotShapes s.slots) : b.isFormed = true := by
  cases s with
  | bare o => exact absurd hb List.not_mem_nil
  | applied o slots =>
    -- The shapes are those of the three forms of slots.
    obtain ⟨_, head, result, -, rfl, -, hhead, hresult⟩ |
      ⟨_, params, result, -, rfl, hparams, hresult⟩ | ⟨_, _, ss, -, -, rfl, hss⟩ :=
      isFormed_applied h
    · obtain rfl | rfl : b = head ∨ b = result := by simpa using hb
      · exact hhead
      · exact hresult
    · obtain hb | rfl : b ∈ params ∨ b = result := by simpa using hb
      · exact areFormed_iff.1 hparams b hb
      · exact hresult
    · rw [slots, slotShapes_map_single] at hb
      exact areFormed_iff.1 hss b hb

mutual

/-- A formed shape is whole. -/
theorem isWhole_of_isFormed : ∀ s : Shape, s.isFormed = true → s.isWhole = true
  | .bare o, h => by
    cases o with
    | hole => simp at h
    | _ => rfl
  | .applied o slots, h => by
    have hslots := slotsWhole_of_isFormed slots fun b hb =>
      isFormed_of_mem_slotShapes (s := .applied o slots) h hb
    -- Of the three forms, the first two are those of a callable, which is whole in both.
    obtain ⟨_, head, result, rfl, rfl, -⟩ | ⟨_, params, result, rfl, rfl, -⟩ |
      ⟨kind, _, ss, hkind, rfl, rfl, -⟩ := isFormed_applied h
    · simpa using hslots
    · simpa using hslots
    · cases kind with
      | callable => exact absurd rfl hkind
      | _ => simpa using hslots

/-- Slots of formed shapes are whole. -/
theorem slotsWhole_of_isFormed : ∀ slots : List Slot,
    (∀ b ∈ slotShapes slots, b.isFormed = true) → slotsWhole slots = true
  | [], _ => rfl
  | .single s :: rest, h => by
    obtain ⟨hs, hrest⟩ := List.forall_mem_cons.1 h
    simp [isWhole_of_isFormed s hs, slotsWhole_of_isFormed rest hrest]
  | .group ss :: rest, h => by
    obtain ⟨hs, hrest⟩ := List.forall_mem_append.1 h
    simp [areWhole_of_isFormed ss hs, slotsWhole_of_isFormed rest hrest]

/-- Formed shapes are whole. -/
theorem areWhole_of_isFormed : ∀ ss : List Shape, (∀ b ∈ ss, b.isFormed = true) →
    areWhole ss = true
  | [], _ => rfl
  | s :: rest, h => by
    obtain ⟨hs, hrest⟩ := List.forall_mem_cons.1 h
    simp [isWhole_of_isFormed s hs, areWhole_of_isFormed rest hrest]

end

mutual

/-- The shape of an expression is formed. -/
@[simp] theorem isFormed_shape : ∀ t : TypeExpr, t.shape.isFormed = true
  | .omitted => rfl
  | .con name => by
    unfold TypeExpr.shape
    split
    · rfl
    · split <;> rfl
  | .app head args => by
    unfold TypeExpr.shape ofClass
    split
    · rfl
    · simp [singlesFormed_map_single, areFormed_shapes args]
  | .var name bound constraints => rfl
  | .union members optional => by
    simp [TypeExpr.shape, singlesFormed_map_single, areFormed_shapes members]
  -- The two forms of a callable are made by the two spellings of its parameters.
  | .callable params result ellipsis => by
    have hany : any.isAny = true := rfl
    have hformed : any.isFormed = true := rfl
    unfold TypeExpr.shape
    split
    · simp [variadicOf, callableOrigin, hany, hformed, isFormed_shape result]
    · simp [callableOf, callableOrigin, areFormed_shapes params, isFormed_shape result]
  | .typeOf operand => by
    unfold TypeExpr.shape
    split
    · rfl
    · simp [typeOf, typeOfOrigin, isFormed_shape operand]
  | .annotated inner metadata => isFormed_shape inner
  | .literal values => by
    unfold TypeExpr.shape literalShape
    split
    · rfl
    · rfl
    · rw [unionOf, isFormed, singlesFormed_map_single, areFormed_iff]
      · intro s hs
        obtain ⟨name, -, rfl⟩ := List.mem_map.1 hs
        rfl
      all_goals simp

/-- The shapes of a list of expressions are formed. -/
@[simp] theorem areFormed_shapes : ∀ ts : List TypeExpr, areFormed (TypeExpr.shapes ts) = true
  | [] => rfl
  | t :: ts => by simp [isFormed_shape t, areFormed_shapes ts]

end

/-! ## Depth -/

/-- Every shape has a level. -/
theorem depth_pos (s : Shape) : 0 < s.depth := by
  cases s <;> simp

/-- A member is no deeper than its list. -/
theorem depth_le_depthAll {ss : List Shape} {s : Shape} (h : s ∈ ss) :
    s.depth ≤ depthAll ss := by
  induction ss with
  | nil => exact absurd h List.not_mem_nil
  | cons t ss ih =>
    unfold depthAll
    obtain rfl | h := List.mem_cons.1 h
    · exact Nat.le_max_left _ _
    · exact Nat.le_trans (ih h) (Nat.le_max_right _ _)

/-- A shape in a slot is no deeper than the slots. -/
theorem depth_le_depthSlots {slots : List Slot} {s : Shape} (h : s ∈ slotShapes slots) :
    s.depth ≤ depthSlots slots := by
  -- By induction on the slots; the depth of a list is the greatest among its members.
  induction slots with
  | nil => exact absurd h List.not_mem_nil
  | cons slot rest ih =>
    cases slot with
    | single t =>
      unfold depthSlots
      obtain rfl | h := List.mem_cons.1 h
      · exact Nat.le_max_left _ _
      · exact Nat.le_trans (ih h) (Nat.le_max_right _ _)
    | group ts =>
      unfold depthSlots
      obtain h | h := List.mem_append.1 h
      · exact Nat.le_trans (depth_le_depthAll h) (Nat.le_max_left _ _)
      · exact Nat.le_trans (ih h) (Nat.le_max_right _ _)

/-- The shapes in the slots of a shape are less deep. -/
theorem depth_lt_of_mem_slotShapes {s b : Shape} (hb : b ∈ slotShapes s.slots) :
    b.depth < s.depth := by
  cases s with
  | bare o => exact absurd hb List.not_mem_nil
  | applied o slots => exact Nat.lt_succ_of_le (depth_le_depthSlots hb)

/-- The branches of a union are the shapes in its slots. -/
theorem branches_eq {s : Shape} (h : s.isUnion = true) : s.branches = slotShapes s.slots := by
  rw [branches, if_pos h]

/-- A branch is less deep than its union. -/
theorem depth_lt_of_mem_branches {s b : Shape} (h : s.isUnion = true) (hb : b ∈ s.branches) :
    b.depth < s.depth := by
  rw [branches_eq h] at hb
  exact depth_lt_of_mem_slotShapes hb

/-- A shape without variables is no variable. -/
theorem var?_of_isConcrete {s : Shape} (h : s.isConcrete = true) : s.var? = none := by
  cases s with
  | bare o => cases o <;> simp_all [isConcrete, varOccurrences, var?, origin]
  | applied o slots => cases o <;> simp_all [isConcrete, varOccurrences, var?, origin]

/-- A list has no variables if none of its members has any. -/
theorem varOccurrencesAll_eq_nil_iff {ss : List Shape} :
    varOccurrencesAll ss = [] ↔ ∀ s ∈ ss, s.isConcrete = true := by
  induction ss with
  | nil => simp
  | cons s ss ih => simp [ih, isConcrete]

/-- Slots have no variables if none of their shapes has any. -/
theorem varOccurrencesSlots_eq_nil_iff {slots : List Slot} :
    varOccurrencesSlots slots = [] ↔ ∀ s ∈ slotShapes slots, s.isConcrete = true := by
  induction slots with
  | nil => simp
  | cons slot rest ih =>
    cases slot with
    | single s => simp [ih, isConcrete]
    | group ss =>
      simp only [varOccurrencesSlots, slotShapes, List.append_eq_nil_iff, ih,
        varOccurrencesAll_eq_nil_iff, List.forall_mem_append]

/-- The shapes in the slots of a shape without variables have none. -/
theorem isConcrete_of_mem_slotShapes {s b : Shape} (h : s.isConcrete = true)
    (hb : b ∈ slotShapes s.slots) : b.isConcrete = true := by
  cases s with
  | bare o => exact absurd hb List.not_mem_nil
  | applied o slots =>
    refine varOccurrencesSlots_eq_nil_iff.1 ?_ b hb
    cases o <;> simp_all [isConcrete, varOccurrences, Shape.slots]

end Shape

namespace Registry

open Shape

mutual

/-- Whether a shape names a protocol anywhere. -/
def namesProtocol (r : Registry) : Shape → Bool
  | .bare o => r.isProtocol (.bare o)
  | .applied o slots => r.isProtocol (.applied o slots) || namesProtocolSlots r slots

/-- Whether a list of slots names a protocol. -/
@[simp] def namesProtocolSlots (r : Registry) : List Slot → Bool
  | [] => false
  | .single s :: rest => namesProtocol r s || namesProtocolSlots r rest
  | .group ss :: rest => namesProtocolAll r ss || namesProtocolSlots r rest

/-- Whether a list of shapes names a protocol. -/
@[simp] def namesProtocolAll (r : Registry) : List Shape → Bool
  | [] => false
  | s :: rest => namesProtocol r s || namesProtocolAll r rest

end

/-- A list names no protocol if none of its members does. -/
theorem namesProtocolAll_eq_false_iff {r : Registry} {ss : List Shape} :
    r.namesProtocolAll ss = false ↔ ∀ s ∈ ss, r.namesProtocol s = false := by
  induction ss with
  | nil => simp
  | cons s ss ih => simp [ih]

/-- Slots name no protocol if none of their shapes does. -/
theorem namesProtocolSlots_eq_false_iff {r : Registry} {slots : List Slot} :
    r.namesProtocolSlots slots = false ↔ ∀ s ∈ slotShapes slots, r.namesProtocol s = false := by
  induction slots with
  | nil => simp
  | cons slot rest ih =>
    cases slot with
    | single s => simp [ih]
    | group ss =>
      simp only [namesProtocolSlots, slotShapes, Bool.or_eq_false_iff, ih,
        namesProtocolAll_eq_false_iff, List.forall_mem_append]

/-- A shape like that of an expression, without type variables and without protocols. -/
structure Ground (r : Registry) (s : Shape) : Prop where
  formed : s.isFormed = true
  concrete : s.isConcrete = true
  plain : r.namesProtocol s = false

variable {r : Registry} {see : View}

namespace Ground

variable {s b : Shape}

/-- A ground shape is whole. -/
theorem isWhole (h : r.Ground s) : s.isWhole = true := isWhole_of_isFormed s h.formed

/-- A ground shape is no hole. -/
theorem isHole (h : r.Ground s) : s.isHole = false := isHole_of_isWhole h.isWhole

/-- A ground shape is no variable. -/
theorem var? (h : r.Ground s) : s.var? = none := var?_of_isConcrete h.concrete

/-- A ground shape is no protocol. -/
theorem isProtocol (h : r.Ground s) : r.isProtocol s = false := by
  have hplain := h.plain
  cases s with
  | bare o => exact hplain
  | applied o slots => exact (Bool.or_eq_false_iff.1 hplain).1

/-- The shapes in the slots of a ground shape are ground. -/
theorem of_mem_slotShapes (h : r.Ground s) (hb : b ∈ slotShapes s.slots) : r.Ground b where
  formed := isFormed_of_mem_slotShapes h.formed hb
  concrete := isConcrete_of_mem_slotShapes h.concrete hb
  plain := by
    have hplain := h.plain
    cases s with
    | bare o => exact absurd hb List.not_mem_nil
    | applied o slots =>
      exact namesProtocolSlots_eq_false_iff.1 (Bool.or_eq_false_iff.1 hplain).2 b hb

/-- A ground shape that is no union is solid. -/
theorem isSolid (h : r.Ground s) (hu : s.isUnion = false) : s.isSolid = true :=
  isSolid_iff.2 ⟨h.isHole, hu, h.var?⟩

end Ground

/-! ## Checks between ground shapes -/

/-- What is asked about ground shapes is about ground shapes, and about less deep ones. -/
theorem Asks.ground {inst tmpl a b : Shape} (h : r.Asks see inst tmpl a b) (hi : r.Ground inst)
    (ht : r.Ground tmpl) :
    r.Ground a ∧ r.Ground b ∧ a.depth + b.depth < inst.depth + tmpl.depth := by
  -- The rules for variables ask nothing here; a branch or a slot takes a level off one of the
  -- shapes.
  cases h with
  | branch hu hb =>
    rw [branches_eq hu] at hb
    have hlt := depth_lt_of_mem_slotShapes hb
    exact ⟨hi.of_mem_slotShapes hb, ht, by omega⟩
  | intoVar hv _ => simp [ht.var?] at hv
  | ofVar hv _ => simp [hi.var?] at hv
  | option hu hb =>
    rw [branches_eq hu] at hb
    have hlt := depth_lt_of_mem_slotShapes hb
    exact ⟨hi, ht.of_mem_slotShapes hb, by omega⟩
  | slot ha hb =>
    have hlt := depth_lt_of_mem_slotShapes ha
    have hlt' := depth_lt_of_mem_slotShapes hb
    exact ⟨hi.of_mem_slotShapes ha, ht.of_mem_slotShapes hb, by omega⟩

namespace Ground

variable {inst tmpl : Shape}

/-- A check between ground shapes answers, and is not refused if it has a level for every level of
the shapes. -/
theorem completes (hi : r.Ground inst) (ht : r.Ground tmpl) {room : Nat}
    (hroom : inst.depth + tmpl.depth ≤ room) (assumed : List Text) :
    Completes (·.room ≠ 0) see (r.subtypeNoted room assumed inst tmpl) := by
  -- The induction is on the room, which shrinks by one where the depths shrink by at least one.
  induction room generalizing inst tmpl with
  | zero =>
    have hpos := depth_pos inst
    omega
  | succ room ih =>
    refine completes_subtypeNoted_succ r (Nat.succ_ne_zero room) ?_
    refine completes_subtypeStep r hi.isWhole ht.isWhole (fun a b hab => ?_) fun hprot => ?_
    · obtain ⟨ha, hb, hlt⟩ := hab.ground hi ht
      exact ih ha hb (by omega)
    · simp [ht.isProtocol] at hprot

/-- With a level for every level of the shapes, a check between ground shapes answers yes if it
does so with any number of levels. -/
theorem holds (hi : r.Ground inst) (ht : r.Ground tmpl) {m n : Nat} {assumed : List Text}
    (hn : inst.depth + tmpl.depth ≤ n) (h : r.Holds see m assumed inst tmpl) :
    r.Holds see n assumed inst tmpl := by
  -- The induction is on the room of the check that is known, as that is where its rule comes from.
  induction m generalizing inst tmpl n with
  | zero => exact absurd h not_holds_zero
  | succ m ih =>
    cases n with
    | zero =>
      have hpos := depth_pos inst
      omega
    | succ n =>
      refine holds_of_rule (hi.completes ht hn assumed) ?_
      refine h.rule.imp (fun a b hab => ?_) fun hprot => ?_
      · obtain ⟨ha, hb, hlt⟩ := hab.ground hi ht
        exact ih ha hb (by omega)
      · simp [ht.isProtocol] at hprot

end Ground

/-- Some number of levels suffices for a yes. -/
def Below (r : Registry) (see : View) (inst tmpl : Shape) : Prop :=
  ∃ n, r.Holds see n [] inst tmpl

end Registry

end TypeShape
