import Mathlib.Data.List.Chain
import TypeShape.Proofs.Occurrence
import TypeShape.Proofs.ReachableRegistry
import TypeShape.Proofs.Rebuilding
import TypeShape.Shape.Approximation

/-!
# Approximations level by level

A node of a shape has a position: the steps that lead to it from the root.  The level of the node is
the length of its position, so trimming a shape to some levels keeps the nodes at the shorter
positions, with their origins, and no others.  The number of levels of a shape is read off its
positions as well, and that makes each approximation one level less deep than the one before it.

## Key results

- `Shape.at?_trim`: what trimming leaves at each position
- `Shape.depth_trim`: how many levels trimming leaves
- `Registry.subtypeWithin_trim`: a shape without unions is a subtype of what trimming leaves of it
- `TypeExpr.approximations_shape`: the approximations of the shape of an expression
-/

namespace TypeShape

/-- A step down from a node: to the shape in a slot, or to a member of the group in a slot. -/
inductive Step where
  | single (slot : Nat)
  | member (slot place : Nat)

/-- What trimming leaves of a slot when there is room for the shapes in it. -/
def Slot.trim (room : Nat) : Slot → Slot
  | .single s => .single (Shape.trim room s)
  | .group ss => .group (ss.map (Shape.trim room))

namespace Shape

/-! ## Positions -/

/-- The shape that a step leads to. -/
def child? (s : Shape) : Step → Option Shape
  | .single i =>
    match s.slots[i]? with
    | some (.single x) => some x
    | _ => none
  | .member i j =>
    match s.slots[i]? with
    | some (.group xs) => xs[j]?
    | _ => none

/-- The shape at a position. -/
def at? (s : Shape) : List Step → Option Shape
  | [] => some s
  | step :: p => s.child? step >>= fun x => x.at? p

/-- A bare node has no children. -/
@[simp] theorem child?_bare (o : Origin) (step : Step) : (bare o).child? step = none := by
  cases step <;> rfl

/-- A shape in a list of slots fills a slot or is a member of a group. -/
theorem mem_slotShapes {slots : List Slot} {x : Shape} : x ∈ slotShapes slots ↔
    .single x ∈ slots ∨ ∃ xs, .group xs ∈ slots ∧ x ∈ xs := by
  induction slots with
  | nil => simp
  | cons slot rest ih =>
    cases slot with
    | single s => simp [ih, or_assoc]
    | group ss =>
      simp only [slotShapes, List.mem_append, ih, List.mem_cons, reduceCtorEq, false_or,
        Slot.group.injEq, or_and_right, exists_or, exists_eq_left]
      exact or_left_comm

/-- The children of a node are the shapes in its slots. -/
theorem mem_slotShapes_iff {s x : Shape} :
    x ∈ slotShapes s.slots ↔ ∃ step, s.child? step = some x := by
  rw [mem_slotShapes]
  constructor
  -- A child is found by its place, and a member of a group by its place in the group.
  · rintro (h | ⟨xs, hxs, hx⟩)
    · obtain ⟨i, hi⟩ := List.mem_iff_getElem?.1 h
      exact ⟨.single i, by simp [child?, hi]⟩
    · obtain ⟨i, hi⟩ := List.mem_iff_getElem?.1 hxs
      obtain ⟨j, hj⟩ := List.mem_iff_getElem?.1 hx
      exact ⟨.member i j, by simp [child?, hi, hj]⟩
  · rintro ⟨step, h⟩
    cases step with
    | single i =>
      rcases hi : s.slots[i]? with _ | (y | ys) <;> simp only [child?, hi, reduceCtorEq] at h
      obtain rfl := Option.some.inj h
      exact .inl (List.mem_of_getElem? hi)
    | member i j =>
      rcases hi : s.slots[i]? with _ | (y | ys) <;> simp only [child?, hi, reduceCtorEq] at h
      exact .inr ⟨ys, List.mem_of_getElem? hi, List.mem_of_getElem? h⟩

/-! ## Levels -/

/-- A list of shapes has a level if one of the shapes has it. -/
theorem lt_depthAll_iff {n : Nat} {ss : List Shape} :
    n < depthAll ss ↔ ∃ x ∈ ss, n < x.depth := by
  induction ss with
  | nil => simp
  | cons s ss ih => simp [ih]

/-- Slots have a level if one of their shapes has it. -/
theorem lt_depthSlots_iff {n : Nat} {slots : List Slot} :
    n < depthSlots slots ↔ ∃ x ∈ slotShapes slots, n < x.depth := by
  induction slots with
  | nil => simp
  | cons slot rest ih =>
    cases slot with
    | single s => simp [ih]
    | group ss => simp [ih, lt_depthAll_iff, or_and_right, exists_or]

/-- A shape has a level below the root if one of its children has the level above it. -/
theorem succ_lt_depth_iff {n : Nat} {s : Shape} :
    n + 1 < s.depth ↔ ∃ step x, s.child? step = some x ∧ n < x.depth := by
  -- The levels below the root are those of the shapes in the slots.
  have hchildren : n + 1 < s.depth ↔ ∃ x ∈ slotShapes s.slots, n < x.depth := by
    cases s with
    | bare o => simp
    | applied o slots => simp [lt_depthSlots_iff]
  simp only [hchildren, mem_slotShapes_iff]
  constructor
  · rintro ⟨x, ⟨step, hx⟩, hn⟩
    exact ⟨step, x, hx, hn⟩
  · rintro ⟨step, x, hx, hn⟩
    exact ⟨x, ⟨step, hx⟩, hn⟩

/-- The levels of a shape are the lengths of its positions. -/
theorem lt_depth_iff {n : Nat} {s : Shape} :
    n < s.depth ↔ ∃ p : List Step, p.length = n ∧ (s.at? p).isSome := by
  -- The induction is on the level: a longer position is a step and a position in a child.
  induction n generalizing s with
  | zero => simp [depth_pos, at?]
  | succ n ih =>
    rw [succ_lt_depth_iff]
    constructor
    · rintro ⟨step, x, hx, hn⟩
      obtain ⟨p, hlength, hp⟩ := ih.1 hn
      exact ⟨step :: p, by simp [hlength], by simpa [at?, hx] using hp⟩
    · rintro ⟨_ | ⟨step, p⟩, hlength, hp⟩
      · cases hlength
      · cases hx : s.child? step with
        | none => simp [at?, hx] at hp
        | some x =>
          refine ⟨step, x, hx, ih.2 ⟨p, by simpa using hlength, ?_⟩⟩
          simpa [at?, hx] using hp

/-! ## Trimming -/

/-- Trimming a list of shapes, one by one. -/
theorem trimAll_eq_map (room : Nat) (ss : List Shape) : trimAll room ss = ss.map (trim room) := by
  induction ss with
  | nil => simp [trimAll]
  | cons s ss ih => simp [trimAll, ih]

/-- Trimming keeps the root. -/
@[simp] theorem origin_trim (room : Nat) (s : Shape) : (trim room s).origin = s.origin := by
  cases s with
  | bare o => simp [trim]
  | applied o slots =>
    rw [trim]
    split <;> rfl

/-- Below the last level nothing is kept. -/
theorem trimSlots_one (slots : List Slot) : keepsSlots (trimSlots 1 slots) = false := by
  induction slots with
  | nil => rfl
  | cons slot rest ih =>
    cases slot with
    | single s => simpa using ih
    | group ss => simpa [keepsSlots] using ih

/-- With room for one level, the root is left. -/
theorem trim_one (s : Shape) : trim 1 s = bare s.origin := by
  cases s with
  | bare o => simp [trim]
  | applied o slots => rw [trim, trimSlots_one, if_neg Bool.false_ne_true, origin]

/-- With room for more than one level, every slot is trimmed in its place. -/
theorem trimSlots_eq_map (room : Nat) (slots : List Slot) :
    trimSlots (room + 2) slots = slots.map (Slot.trim (room + 1)) := by
  induction slots with
  | nil => simp
  | cons slot rest ih =>
    cases slot with
    | single s => simp [Slot.trim, ih]
    | group ss => simp [Slot.trim, ih, trimAll_eq_map]

/-- Slots that hold nothing have no children. -/
theorem child?_of_keepsSlots {slots : List Slot} (h : keepsSlots slots = false) (o : Origin)
    (step : Step) : (applied o slots).child? step = none := by
  -- Only empty groups are left when there is nothing to keep.
  have hslots : ∀ slot ∈ slots, slot = .group [] := by
    intro slot hslot
    have hkept := List.any_eq_false.1 h slot hslot
    cases slot with
    | single s => simp at hkept
    | group ss => simpa using hkept
  refine Option.eq_none_iff_forall_not_mem.2 fun x hx => ?_
  obtain hsingle | ⟨xs, hxs, hmem⟩ := mem_slotShapes.1 (mem_slotShapes_iff.2 ⟨step, hx⟩)
  · cases hslots _ hsingle
  · obtain rfl := Slot.group.inj (hslots _ hxs)
    exact List.not_mem_nil hmem

/-- With room for more than one level, every child is trimmed in its place. -/
theorem child?_trim (room : Nat) (s : Shape) (step : Step) :
    (trim (room + 2) s).child? step = (s.child? step).map (trim (room + 1)) := by
  cases s with
  | bare o => simp [trim]
  | applied o slots =>
    have hmap : (applied o (trimSlots (room + 2) slots)).child? step =
        ((applied o slots).child? step).map (trim (room + 1)) := by
      rw [trimSlots_eq_map]
      cases step with
      | single i =>
        rcases h : slots[i]? with _ | (x | xs) <;> simp [child?, h, Slot.trim]
      | member i j =>
        rcases h : slots[i]? with _ | (x | xs) <;> simp [child?, h, Slot.trim]
    rw [trim]
    -- The slots are dropped if they hold nothing, and then there are no children on either side.
    split
    · exact hmap
    · rename_i hkept
      rw [child?_bare, ← hmap, child?_of_keepsSlots (by simpa using hkept)]

/-- Trimming keeps the nodes at the positions that it has room for. -/
theorem at?_trim (room : Nat) (s : Shape) (p : List Step) :
    (trim (room + 1) s).at? p =
      if p.length ≤ room then (s.at? p).map (trim (room + 1 - p.length)) else none := by
  -- By induction on the position, along which the room shrinks with every step.
  induction p generalizing room s with
  | nil => simp [at?]
  | cons step p ih =>
    cases room with
    | zero => simp [at?, trim_one]
    | succ room =>
      simp only [at?, child?_trim, List.length_cons, Nat.add_le_add_iff_right,
        Nat.add_sub_add_right]
      cases s.child? step with
      | none => simp
      | some x => exact ih room x

/-- Trimming to a number of levels leaves as many, or all if there are fewer. -/
theorem depth_trim (room : Nat) (s : Shape) :
    (trim (room + 1) s).depth = min (room + 1) s.depth := by
  -- A depth is told by the levels below it, and a level by a position of its length.
  refine eq_of_forall_lt_iff fun n => ?_
  have hat : ∀ p : List Step, p.length = n →
      (((trim (room + 1) s).at? p).isSome ↔ n ≤ room ∧ (s.at? p).isSome) := by
    rintro p rfl
    rw [at?_trim]
    split <;> simp_all
  rw [lt_min_iff, lt_depth_iff, lt_depth_iff, Nat.lt_succ_iff]
  constructor
  · rintro ⟨p, hlength, hp⟩
    obtain ⟨hroom, hp⟩ := (hat p hlength).1 hp
    exact ⟨hroom, p, hlength, hp⟩
  · rintro ⟨hroom, p, hlength, hp⟩
    exact ⟨p, hlength, (hat p hlength).2 ⟨hroom, hp⟩⟩

/-! ## Peeling -/

/-- The second shape is the first one without its deepest level: it has the nodes of the first at
the positions that are not the longest, with their origins, and no others. -/
def Peels (a b : Shape) : Prop :=
  ∀ p : List Step,
    (b.at? p).map origin = if p.length + 1 < a.depth then (a.at? p).map origin else none

/-- A shape that can be peeled has more than one level, and is trimmed to one less. -/
theorem shallower?_eq_some {s t : Shape} (h : s.shallower? = some t) :
    ∃ room, s.depth = room + 2 ∧ t = trim (room + 1) s := by
  unfold shallower? at h
  split at h
  · cases h
  · rename_i hdepth
    obtain ⟨room, hroom⟩ : ∃ room, s.depth = room + 2 := ⟨s.depth - 2, by omega⟩
    refine ⟨room, hroom, ?_⟩
    rw [hroom] at h
    exact (Option.some.inj h).symm

/-- What is peeled off a shape peels it. -/
theorem peels_of_shallower? {s t : Shape} (h : s.shallower? = some t) : s.Peels t := by
  obtain ⟨room, hdepth, rfl⟩ := shallower?_eq_some h
  intro p
  rw [at?_trim, hdepth]
  by_cases hp : p.length ≤ room
  · rw [if_pos hp, if_pos (by omega), Option.map_map]
    exact congrArg (Option.map · (s.at? p)) (funext fun x => origin_trim _ x)
  · rw [if_neg hp, if_neg (by omega), Option.map_none]

/-- Peeling takes off one level. -/
theorem depth_shallower? {s t : Shape} (h : s.shallower? = some t) : t.depth + 1 = s.depth := by
  obtain ⟨room, hdepth, rfl⟩ := shallower?_eq_some h
  rw [depth_trim, hdepth]
  omega

/-! ## Approximations -/

/-- A shape that cannot be peeled is its own approximation. -/
theorem approximations_of_none {s : Shape} (h : s.shallower? = none) : s.approximations = [s] := by
  obtain ⟨n, hn⟩ := Nat.exists_eq_succ_of_ne_zero s.depth_pos.ne'
  rw [approximations, hn, approximationsFrom, h]

/-- The approximations of a shape are the shape, and those of what peeling leaves of it. -/
theorem approximations_of_some {s t : Shape} (h : s.shallower? = some t) :
    s.approximations = s :: t.approximations := by
  rw [approximations, ← depth_shallower? h, approximationsFrom, h]
  rfl

/-- A shape is peeled until nothing is left to peel. -/
theorem peeling_induct {motive : Shape → Prop} (last : ∀ s, s.shallower? = none → motive s)
    (peel : ∀ s t, s.shallower? = some t → motive t → motive s) (s : Shape) : motive s := by
  induction h : s.depth generalizing s with
  | zero => exact absurd h s.depth_pos.ne'
  | succ n ih =>
    cases ht : s.shallower? with
    | none => exact last s ht
    | some t =>
      have hdepth := depth_shallower? ht
      exact peel s t ht (ih t (by omega))

/-- The first approximation is the shape itself. -/
theorem head?_approximations (s : Shape) : s.approximations.head? = some s := by
  cases h : s.shallower? with
  | none => rw [approximations_of_none h, List.head?_cons]
  | some t => rw [approximations_of_some h, List.head?_cons]

/-- There is one approximation for each number of levels, from all levels down to one. -/
theorem map_depth_approximations (s : Shape) :
    s.approximations.map depth = (List.range' 1 s.depth).reverse := by
  -- The induction is on peeling: a shape that cannot be peeled, or a shape and what peeling leaves
  -- of it.
  induction s using peeling_induct with
  | last s h =>
    have hdepth : s.depth = 1 := by
      have hpos := s.depth_pos
      unfold shallower? at h
      split at h
      · omega
      · cases h
    rw [approximations_of_none h, List.map_singleton, hdepth]
    rfl
  | peel s t h ih =>
    rw [approximations_of_some h, List.map_cons, ih, ← depth_shallower? h, List.range'_concat,
      List.reverse_append]
    simp [Nat.add_comm]

/-- What a step of peeling shows of a shape with a property that it keeps holds all along. -/
theorem isChain_approximations {P : Shape → Prop} {R : Shape → Shape → Prop}
    (hstep : ∀ a b, P a → a.shallower? = some b → R a b ∧ P b) {s : Shape} (hs : P s) :
    s.approximations.IsChain R := by
  -- By induction on the peeling, from the last shape back to the first.
  induction s using peeling_induct with
  | last s h =>
    rw [approximations_of_none h]
    exact .singleton s
  | peel s t h ih =>
    obtain ⟨hR, ht⟩ := hstep s t hs h
    rw [approximations_of_some h, List.isChain_cons]
    refine ⟨fun u hu => ?_, ih ht⟩
    rw [head?_approximations, Option.mem_some_iff] at hu
    exact hu ▸ hR

/-- Peeling ends with the bare origin, if there is anything to peel. -/
theorem getLast?_approximations {s : Shape} (h : 1 < s.depth) :
    s.approximations.getLast? = some (bare s.origin) := by
  induction s using peeling_induct with
  | last s hs =>
    unfold shallower? at hs
    rw [if_neg (by omega)] at hs
    cases hs
  | peel s t ht ih =>
    obtain ⟨room, hdepth, rfl⟩ := shallower?_eq_some ht
    have hcons := approximations_of_some ht
    -- Room for no further level leaves the bare root, where peeling stops.
    cases room with
    | zero =>
      rw [hcons, approximations_of_none, trim_one]
      · rfl
      · rw [trim_one]
        rfl
    | succ room =>
      have hlast := ih (by rw [depth_trim, hdepth]; omega)
      rw [hcons, List.getLast?_cons, hlast, origin_trim]
      rfl

/-! ## Shapes without unions -/

/-- No node of the shape is a union. -/
def HasNoUnion (s : Shape) : Prop :=
  ∀ (p : List Step) (x : Shape), s.at? p = some x → x.isUnion = false

/-- A shape is free of unions if its root is no union and its children are free of them. -/
theorem HasNoUnion.of_children {s : Shape} (h : s.isUnion = false)
    (hslots : ∀ x ∈ slotShapes s.slots, x.HasNoUnion) : s.HasNoUnion := by
  rintro (_ | ⟨step, p⟩) x hx
  · exact Option.some.inj hx ▸ h
  · obtain ⟨y, hy, hx⟩ := Option.bind_eq_some_iff.1 hx
    exact hslots y (mem_slotShapes_iff.2 ⟨step, hy⟩) p x hx

/-- No node of the shape is a union or a hole, and variables have no slots. -/
def Unbranched (s : Shape) : Prop :=
  ∀ (p : List Step) (x : Shape), s.at? p = some x →
    x.isHole = false ∧ x.isUnion = false ∧ (x.isVar = true → x = bare x.origin)

/-- The children of an unbranched shape are unbranched. -/
theorem Unbranched.of_mem_slotShapes {s x : Shape} (h : s.Unbranched)
    (hx : x ∈ slotShapes s.slots) : x.Unbranched := by
  obtain ⟨step, hstep⟩ := mem_slotShapes_iff.1 hx
  intro p y hy
  exact h (step :: p) y (by simpa [at?, hstep] using hy)

/-- Trimming keeps a shape unbranched. -/
theorem Unbranched.trim {s : Shape} (h : s.Unbranched) (room : Nat) :
    (trim (room + 1) s).Unbranched := by
  intro p x hx
  rw [at?_trim] at hx
  split at hx
  · obtain ⟨y, hy, rfl⟩ := Option.map_eq_some_iff.1 hx
    -- A node that is kept has its old root, so it is still no hole and no union; a variable stays
    -- bare.
    obtain ⟨hhole, hunion, hvar⟩ := h p y hy
    have horigin := origin_trim (room + 1 - p.length) y
    refine ⟨?_, ?_, fun hv => ?_⟩
    · rwa [isHole, horigin]
    · rwa [isUnion, hasKind, horigin]
    · rw [isVar, var?, horigin] at hv
      rw [horigin, hvar hv, Shape.trim, origin]
  · cases hx

/-- The nodes of a well-formed shape are well formed. -/
theorem isFormed_of_at? {s x : Shape} (hs : s.isFormed = true) {p : List Step}
    (hx : s.at? p = some x) : x.isFormed = true := by
  induction p generalizing s with
  | nil => exact Option.some.inj hx ▸ hs
  | cons step p ih =>
    cases hchild : s.child? step with
    | none => simp [at?, hchild] at hx
    | some y =>
      have hy := isFormed_of_mem_slotShapes hs (mem_slotShapes_iff.2 ⟨step, hchild⟩)
      exact ih hy (by simpa [at?, hchild] using hx)

/-- The shape of an expression has neither holes nor variables with slots. -/
theorem HasNoUnion.unbranched {t : TypeExpr} (h : t.shape.HasNoUnion) : t.shape.Unbranched := by
  intro p x hx
  have hformed := isFormed_of_at? (isFormed_shape t) hx
  refine ⟨isHole_of_isWhole (isWhole_of_isFormed x hformed), h p x hx, fun hvar => ?_⟩
  cases x with
  | bare o => rfl
  | applied o slots => cases o <;> simp [isVar, var?] at hformed hvar

end Shape

namespace Registry

open Shape

/-! ## Approximations as supertypes -/

variable {m : Type → Type} [Monad m] [LawfulMonad m]

/-- A group matches its members, trimmed. -/
theorem groupMatches_trim {deeper : Check m} {room : Nat} {ss : List Shape}
    (h : ∀ x ∈ ss, deeper x (trim room x) = pure true) :
    groupMatches deeper ss (ss.map (trim room)) = pure true := by
  induction ss with
  | nil => rfl
  | cons s ss ih =>
    obtain ⟨hs, hss⟩ := List.forall_mem_cons.1 h
    rw [List.map_cons, groupMatches, hs, pure_bind, if_pos rfl, ih hss]

variable [Reducing m]

/-- Slots match what trimming leaves of them, one by one. -/
theorem slotsMatch_trim {deeper : Check m} {room : Nat} {slots : List Slot}
    (h : ∀ x ∈ slotShapes slots, x.isHole = false ∧ deeper x (trim room x) = pure true) :
    slotsMatch deeper slots (slots.map (Slot.trim room)) = pure true := by
  -- By induction on the slots; a trimmed slot stays a slot, and a group a group.
  induction slots with
  | nil => rfl
  | cons slot rest ih =>
    have hfirst : slotMatches deeper slot (slot.trim room) = pure true := by
      cases slot with
      | single s =>
        obtain ⟨hhole, hs⟩ := h s (mem_slotShapes.2 (.inl List.mem_cons_self))
        have hhole' : (trim room s).isHole = false := by rwa [isHole, origin_trim]
        simp [Slot.trim, slotMatches, hhole', hs]
      | group ss =>
        have hss : groupMatches deeper ss (ss.map (trim room)) = pure true :=
          groupMatches_trim fun x hx =>
            (h x (mem_slotShapes.2 (.inr ⟨ss, List.mem_cons_self, hx⟩))).2
        simp [Slot.trim, slotMatches, hss]
    have hrest := ih fun x hx => h x <| mem_slotShapes.2 <|
      (mem_slotShapes.1 hx).imp (List.mem_cons_of_mem slot)
        (.imp fun _ => And.imp_left (List.mem_cons_of_mem slot))
    rw [List.map_cons, slotsMatch, hfirst, pure_bind, if_pos rfl, hrest]

/-- A node matches what trimming leaves of it by inheritance from itself, and slot by slot. -/
theorem nominalMatches_trim (r : Registry) {deeper : Check m} {a : Shape} (room : Nat)
    (hhole : a.isHole = false) (hvar : a.var? = none)
    (h : ∀ x ∈ slotShapes a.slots, x.isHole = false ∧
      ∀ k, deeper x (trim (k + 1) x) = pure true) :
    r.nominalMatches deeper a (trim (room + 1) a) = pure true := by
  have horigin : r.originSatisfies a (trim (room + 1) a) = true := by
    cases ho : a.origin with
    | hole => simp [isHole, ho] at hhole
    | var v => simp [Shape.var?, ho] at hvar
    | plain kind name =>
      exact originSatisfies_of_kinds ho ((origin_trim _ a).trans ho) fun _ =>
        r.isSubclass_refl name
  -- The slots are all there and trimmed, or there is no room for any.
  have hslots : (trim (room + 1) a).isParameterized = true → ∃ k,
      (trim (room + 1) a).slots = a.slots.map (Slot.trim (k + 1)) ∧ a.isParameterized = true := by
    intro hparam
    cases a with
    | bare o => simp [trim] at hparam
    | applied o slots =>
      cases room with
      | zero =>
        rw [trim_one] at hparam
        cases hparam
      | succ room =>
        rw [trim, trimSlots_eq_map] at hparam ⊢
        split at hparam
        · rename_i hkept
          rw [if_pos hkept]
          exact ⟨room, rfl, rfl⟩
        · cases hparam
  rw [nominalMatches, horigin, Bool.not_true, if_neg Bool.false_ne_true]
  split
  · rfl
  by_cases hparam : (trim (room + 1) a).isParameterized = true
  · obtain ⟨k, hk, ha⟩ := hslots hparam
    have hmatch : slotsMatch deeper a.slots (a.slots.map (Slot.trim (k + 1))) = pure true :=
      slotsMatch_trim fun x hx => ⟨(h x hx).1, (h x hx).2 k⟩
    simp [hparam, hk, ha, hmatch]
  · simp [hparam]

/-- A shape without unions is a subtype of what trimming leaves of it, with as many levels of the
check as the shape has. -/
theorem subtypeWithin_trim (r : Registry) {a : Shape} (ha : a.Unbranched) {levels : Nat}
    (hlevels : a.depth ≤ levels) (assumed : List Text) (room : Nat) :
    r.subtypeWithin (m := m) levels assumed a (trim (room + 1) a) = pure true := by
  -- Each level of the check goes down one level of the shape.
  induction levels generalizing a assumed room with
  | zero => exact absurd hlevels (Nat.not_le.2 a.depth_pos)
  | succ levels ih =>
    obtain ⟨hhole, hunion, hvar⟩ := ha [] a rfl
    have horigin := origin_trim (room + 1) a
    have hhole' : (trim (room + 1) a).isHole = false := by rwa [isHole, horigin]
    have hunion' : (trim (room + 1) a).isUnion = false := by rwa [isUnion, hasKind, horigin]
    rw [subtypeWithin, subtypeStep, hhole, hhole', Bool.or_self, if_neg Bool.false_ne_true]
    split
    · rfl
    rename_i hsame
    rw [hunion, if_neg Bool.false_ne_true]
    -- A variable is left as it is, and equal shapes were accepted before.
    have hnone : a.var? = none := by
      by_contra hv
      have hbare := hvar (Option.isSome_iff_ne_none.2 hv)
      rw [hbare, trim, same_refl, Bool.or_true] at hsame
      exact hsame rfl
    have hnone' : (trim (room + 1) a).var? = none := by rwa [Shape.var?, horigin]
    have hnominal : r.nominalMatches (r.subtypeWithin (m := m) levels assumed) a
        (trim (room + 1) a) = pure true := by
      refine r.nominalMatches_trim room hhole hnone fun x hx => ?_
      have hx' := ha.of_mem_slotShapes hx
      have hdepth := depth_lt_of_mem_slotShapes hx
      exact ⟨(hx' [] x rfl).1, fun k => ih hx' (by omega) assumed k⟩
    rw [hnone', hnone]
    simp only [hunion', Bool.false_eq_true, if_false, hnominal, pure_bind, if_true, ite_self]

end Registry

/-- The engine answers that an unbranched shape is below what trimming leaves of it, and remembers
nothing new. -/
theorem Engine.isSubtype_trim (e : Engine) {a : Shape} (ha : a.Unbranched)
    (hdepth : a.depth ≤ maxRecursion) (room : Nat) :
    e.isSubtype a (Shape.trim (room + 1) a) = (true, e) := by
  have hcheck : e.registry.isSubtypeM (m := Query) a (Shape.trim (room + 1) a) = pure true :=
    e.registry.subtypeWithin_trim ha (Nat.le_succ_of_le hdepth) [] room
  rw [isSubtype, hcheck]
  rfl

/-! ## Approximations of expressions -/

namespace TypeExpr

open Shape

/-- The shape of an expression has no slots, or something in its slots, unless it is a union
without branches. -/
theorem shape_cases (t : TypeExpr) : t.shape = bare t.shape.origin ∨ 1 < t.shape.depth ∨
    ∃ name, t.shape = applied (.plain .union name) [] := by
  -- A node with a child has more than one level.
  have hdeep : ∀ {s x : Shape}, x ∈ slotShapes s.slots → 1 < s.depth := fun {s x} hx =>
    Nat.lt_of_le_of_lt x.depth_pos (depth_lt_of_mem_slotShapes hx)
  have hunion : ∀ (name : Text) (ss : List Shape),
      1 < (applied (.plain .union name) (ss.map .single)).depth ∨
        ∃ n, applied (.plain .union name) (ss.map .single) = applied (.plain .union n) [] := by
    intro name ss
    cases ss with
    | nil => exact .inr ⟨name, rfl⟩
    | cons x xs => exact .inl (hdeep (x := x) (by simp))
  induction t using induct with
  | omitted => exact .inl rfl
  | con name =>
    obtain ⟨kind, n, hshape, -⟩ := build_con [] false name
    exact .inl (by rw [hshape, origin])
  | app head args _ =>
    rw [shape_app, ofClass]
    cases args with
    | nil => exact .inl rfl
    | cons a as => exact .inr (.inl (hdeep (x := a.shape) (by simp)))
  | var name bound constraints _ _ => exact .inl rfl
  | union members optional _ => exact .inr (hunion _ _)
  | callable params result ellipsis _ _ =>
    refine .inr (.inl (hdeep (x := result.shape) ?_))
    cases ellipsis
    · rw [shape_callable]
      simp [callableOf]
    · rw [shape_variadic]
      simp [variadicOf]
  | typeOf operand _ =>
    rw [shape]
    split
    · exact .inl rfl
    · exact .inr (.inl (hdeep (x := operand.shape) (by simp [Shape.typeOf])))
  | annotated inner metadata ih => exact ih
  | literal values =>
    rw [shape, literalShape]
    split
    · exact .inl rfl
    · exact .inl rfl
    · exact .inr (hunion _ _)

/-- Approximations peel one level at a time.  There are as many as levels, each without the deepest
level of the one before, from the shape itself to its bare origin; only a union without branches
has no slots to lose and is its own approximation.  Without unions, each is a supertype of the one
before. -/
theorem approximations_shape (t : TypeExpr) :
    t.shape.approximations.head? = some t.shape ∧
    t.shape.approximations.map depth = (List.range' 1 t.shape.depth).reverse ∧
    t.shape.approximations.IsChain Peels ∧
    ((∀ name, t.shape ≠ applied (.plain .union name) []) →
      t.shape.approximations.getLast? = some (bare t.shape.origin)) ∧
    (∀ name, t.shape = applied (.plain .union name) [] →
      t.shape.approximations = [t.shape]) ∧
    (t.shape.HasNoUnion → t.shape.depth ≤ maxRecursion → ∀ e : Engine,
      t.shape.approximations.IsChain fun a b => (e.isSubtype a b).1 = true) := by
  refine ⟨head?_approximations _, map_depth_approximations _, ?_, fun hbranches => ?_,
    fun name hname => ?_, fun hunion hdepth e => ?_⟩
  -- The first three parts hold of any shape; the others are told by its form and by its unions.
  · exact isChain_approximations (P := fun _ => True)
      (fun a b _ h => ⟨peels_of_shallower? h, trivial⟩) trivial
  · obtain hbare | hdeep | ⟨name, hname⟩ := t.shape_cases
    · rw [hbare, approximations_of_none rfl]
      rfl
    · exact getLast?_approximations hdeep
    · exact absurd hname (hbranches name)
  · rw [hname, approximations_of_none rfl]
  · refine isChain_approximations
      (P := fun a => a.Unbranched ∧ a.depth ≤ maxRecursion) (fun a b ⟨ha, hle⟩ h => ?_)
      ⟨hunion.unbranched, hdepth⟩
    have hlevel := depth_shallower? h
    obtain ⟨room, -, rfl⟩ := shallower?_eq_some h
    exact ⟨by rw [e.isSubtype_trim ha hle], ha.trim room, by omega⟩

/-- A callable loses the argument of its result first, and then its parameters and its result. -/
theorem approximations_shape_callable :
    let t : TypeExpr :=
      .callable [keyVar.toExpr, .con Name.int] (.app Name.list [.con Name.int]) false
    let ts := [t.shape, .callableOf [.ofVar keyVar, .leaf Name.int] (.leaf Name.list), .anyCallable]
    t.shape.approximations = ts ∧ ts.getLast? = some (bare t.shape.origin) ∧
      t.shape.HasNoUnion ∧ t.shape.depth ≤ maxRecursion ∧
      ts.IsChain fun a b => (({} : Engine).isSubtype a b).1 = true := by
  intro t ts
  -- No union is met in the list either, so the last conjunct applies.
  have hunion : t.shape.HasNoUnion := by
    have hbare : ∀ o : Origin, (bare o).isUnion = false → (bare o).HasNoUnion := fun o ho =>
      .of_children ho fun x hx => absurd hx List.not_mem_nil
    have hlist : (Shape.ofClass Name.list [.leaf Name.int]).HasNoUnion :=
      .of_children rfl (List.forall_mem_singleton.2 (hbare _ rfl))
    have hslots : slotShapes t.shape.slots =
        [.ofVar keyVar, .leaf Name.int, .ofClass Name.list [.leaf Name.int]] := rfl
    refine .of_children rfl ?_
    rw [hslots]
    exact List.forall_mem_cons.2 ⟨hbare _ rfl,
      List.forall_mem_cons.2 ⟨hbare _ rfl, List.forall_mem_singleton.2 hlist⟩⟩
  have hfirst : t.shape.shallower? =
      some (.callableOf [.ofVar keyVar, .leaf Name.int] (.leaf Name.list)) := rfl
  have hsecond : (Shape.callableOf [.ofVar keyVar, .leaf Name.int] (.leaf Name.list)).shallower? =
      some .anyCallable := rfl
  have happrox : t.shape.approximations = ts := by
    rw [approximations_of_some hfirst, approximations_of_some hsecond, approximations_of_none rfl]
  have hdepth : t.shape.depth ≤ maxRecursion := Nat.le_of_ble_eq_true rfl
  obtain ⟨-, -, -, hlast, -, hchain⟩ := approximations_shape t
  rw [happrox] at hlast hchain
  exact ⟨happrox, hlast fun name => nofun, hunion, hdepth, hchain hunion hdepth {}⟩

/-- An alias for a union without branches has a shape that keeps its empty slots. -/
theorem not_getLast?_approximations :
    let r := (Declaring.after (Registry.declareAlias (text "X") (.union [] false)) .builtin).2
    r.Reachable ∧ r.parse (text "X") = .ok (.union [] false) ∧
      (union [] false).shape.approximations.getLast? ≠ some (bare (union [] false).shape.origin) :=
  ⟨.declareAlias _ _ .builtin, rfl, fun h => nomatch h⟩

end TypeExpr

end TypeShape
