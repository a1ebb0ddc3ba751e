import Mathlib.Data.Finset.Card
import Mathlib.Data.Finset.Range
import Mathlib.Data.Finset.SDiff
import Mathlib.Logic.Relation
import TypeShape.Proofs.HostShapes

/-!
# The depth of inferred shapes

Values may contain themselves, through pointers, slices and maps.  Inference follows pointers without
spending depth until one is met that it is following already; whatever else a value contains costs a
level of depth.  So it ends on every heap: within a level the addresses that are not being followed
yet become fewer, and after that the depth that is left does.  A level of a container has at most two
levels in the shape, its own and that of the union of its elements.

## Key results

- `Registry.lands_land`: following pointers ends without a limit on their number
- `Registry.infers_shapeOf`: what is inferred, told without any such limit
- `Registry.Infers.depth_le`: the depth of what is inferred
- `Registry.inferM_depth_le`: the inference of the engine ends, within its depth
-/

namespace TypeShape

open Relation (ReflTransGen)

/-! ## Values that a value leads to -/

/-- The values that inference may look at after a value: what a pointer leads to, and the elements
of containers. -/
def Host.under (h : Host) : Value → List Value
  | .pointer _ (some a) => [h.valueAt a]
  | .slice _ a n | .tuple a n => h.itemsAt a n
  | .array _ items => items
  | .map _ _ a => (h.entriesAt a).flatMap fun (k, x) => [k, x]
  | _ => []

/-- A value leads to another one step further. -/
def Host.Leads (h : Host) (v w : Value) : Prop := w ∈ h.under v

namespace Registry

/-- Whether the type of a value is not read off the value: it is a type itself, declares its own
type, or is typed by a hook. -/
def isSelfTyped (r : Registry) : Value → Bool
  | .typeObject _ | .typed _ => true
  | .hooked _ _ => r.typers.contains .custom
  | .message _ _ _ => r.typers.contains .messages
  | _ => false

/-- No value that some value leads to has a type that is not read off it. -/
def IsPlain (r : Registry) (h : Host) (v : Value) : Prop :=
  ∀ w, ReflTransGen h.Leads v w → r.isSelfTyped w = false

variable {r : Registry} {h : Host} {maxSample : Int}

/-- What a plain value leads to is plain. -/
theorem IsPlain.of_leads {v w : Value} (hv : r.IsPlain h v) (hw : ReflTransGen h.Leads v w) :
    r.IsPlain h w :=
  fun u hu => hv u (hw.trans hu)

/-! ## Following pointers -/

/-- How following pointers goes: it ends at a value that is no pointer to follow, or at a pointer
that is being followed already.  There is no limit on its steps. -/
inductive Lands (r : Registry) (h : Host) : List Nat → Value → List Nat × Landing → Prop where
  | value {visiting : List Nat} {v : Value} : (∀ type a, v ≠ .pointer type (some a)) →
    Lands r h visiting v (visiting, .value v)
  | bound {visiting : List Nat} {type : HostType} {a : Nat} :
    (r.hostClass? type).isSome = true →
    Lands r h visiting (.pointer type (some a)) (visiting, .value (.pointer type (some a)))
  | repeated {visiting : List Nat} {type : HostType} {a : Nat} : r.hostClass? type = none →
    a ∈ visiting → Lands r h visiting (.pointer type (some a)) (visiting, .repeated type)
  | follow {visiting : List Nat} {type : HostType} {a : Nat} {landing : List Nat × Landing} :
    r.hostClass? type = none → a ∉ visiting → Lands r h (a :: visiting) (h.valueAt a) landing →
    Lands r h visiting (.pointer type (some a)) landing

/-- Following pointers ends in one way only. -/
theorem Lands.unique {visiting : List Nat} {v : Value} {landing other : List Nat × Landing}
    (hland : r.Lands h visiting v landing) (hother : r.Lands h visiting v other) :
    other = landing := by
  -- By induction on the first way; the conditions of the steps exclude each other.
  induction hland with
  | value hne =>
    cases hother with
    | value _ => rfl
    | bound _ | repeated _ _ | follow _ _ _ => exact absurd rfl (hne _ _)
  | bound hbound =>
    cases hother with
    | value hne => exact absurd rfl (hne _ _)
    | bound _ => rfl
    | repeated hnone _ | follow hnone _ _ => simp [hnone] at hbound
  | repeated hnone hmem =>
    cases hother with
    | value hne => exact absurd rfl (hne _ _)
    | bound hbound => simp [hnone] at hbound
    | repeated _ _ => rfl
    | follow _ hnew _ => exact absurd hmem hnew
  | follow hnone hnew _ ih =>
    cases hother with
    | value hne => exact absurd rfl (hne _ _)
    | bound hbound => simp [hnone] at hbound
    | repeated _ hmem => exact absurd hmem hnew
    | follow _ _ hother => exact ih hother

/-- A value that pointers end at is one that they lead to. -/
theorem Lands.leads {visiting visiting' : List Nat} {v w : Value}
    (hland : r.Lands h visiting v (visiting', .value w)) : ReflTransGen h.Leads v w := by
  generalize hlanding : (visiting', Landing.value w) = landing at hland
  induction hland with
  | value _ | bound _ =>
    cases hlanding
    exact .refl
  | repeated _ _ => cases hlanding
  | follow _ _ _ ih => exact .head (List.mem_singleton_self _) (ih hlanding)

/-- The number of addresses that are not being followed yet. -/
def unfollowed (h : Host) (visiting : List Nat) : Nat :=
  (Finset.range h.cells.size \ visiting.toFinset).card

/-- Following one more address leaves one fewer. -/
theorem unfollowed_cons {visiting : List Nat} {a : Nat} (ha : a < h.cells.size)
    (hnew : a ∉ visiting) : unfollowed h (a :: visiting) + 1 = unfollowed h visiting := by
  unfold unfollowed
  rw [List.toFinset_cons, Finset.sdiff_insert]
  exact Finset.card_erase_add_one (by simp [ha, hnew])

/-- A value that is no pointer, or a pointer to nothing, is where it lands. -/
theorem land_value (fuel : Nat) (visiting : List Nat) {v : Value}
    (hv : ∀ type a, v ≠ .pointer type (some a)) :
    r.land h fuel visiting v = (visiting, .value v) := by
  unfold land
  split
  · exact absurd rfl (hv _ _)
  · rfl

/-- With a step for each address that is not being followed, pointers are followed to the end. -/
theorem lands_land {fuel : Nat} {visiting : List Nat} (hfuel : unfollowed h visiting < fuel)
    (v : Value) : r.Lands h visiting v (r.land h fuel visiting v) := by
  -- By induction on the fuel.
  induction fuel generalizing visiting v with
  | zero => omega
  | succ fuel ih =>
    by_cases hv : ∃ type a, v = .pointer type (some a)
    · obtain ⟨type, a, rfl⟩ := hv
      rw [land]
      split
      · rename_i hbound
        exact .bound hbound
      · rename_i hnone
        have hnone : r.hostClass? type = none := by simpa using hnone
        split
        · rename_i hmem
          exact .repeated hnone (List.contains_iff_mem.1 hmem)
        · rename_i hnew
          have hnew : a ∉ visiting := mt List.contains_iff_mem.2 hnew
          refine .follow hnone hnew ?_
          by_cases ha : a < h.cells.size
          · -- The address is followed from here on, so one less is left.
            have hless := unfollowed_cons ha hnew
            exact ih (by omega) _
          · -- An address outside of the heap holds nothing, and nothing is no pointer.
            have hnil : h.valueAt a = .nil := by
              rw [Host.valueAt, Array.getElem?_eq_none (Nat.le_of_not_lt ha)]
            have hne : ∀ type a, Value.nil ≠ .pointer type (some a) := by simp
            rw [hnil, land_value fuel _ hne]
            exact .value hne
    · have hne : ∀ type a, v ≠ .pointer type (some a) := fun type a heq => hv ⟨type, a, heq⟩
      rw [land_value _ _ hne]
      exact .value hne

/-- Following pointers ends without a limit on their number. -/
theorem lands_land_size (visiting : List Nat) (v : Value) :
    r.Lands h visiting v (r.land h (h.cells.size + 1) visiting v) := by
  refine lands_land (Nat.lt_succ_of_le ?_) v
  calc unfollowed h visiting ≤ (Finset.range h.cells.size).card :=
        Finset.card_le_card Finset.sdiff_subset
    _ = h.cells.size := Finset.card_range _

/-- A step for each cell of the heap is enough. -/
theorem Lands.land_eq {visiting : List Nat} {v : Value} {landing : List Nat × Landing}
    (hland : r.Lands h visiting v landing) :
    r.land h (h.cells.size + 1) visiting v = landing :=
  hland.unique (lands_land_size visiting v)

/-! ## Entering containers -/

/-- The values that are looked at in a container, in order. -/
def Contents.parts (maxSample : Int) : Contents → List Value
  | .none => []
  | .positions items => items
  | .elements items => (sampleIndices items.length maxSample).filterMap fun i => items[i]?
  | .entries es => es.flatMap fun (k, x) => [k, x]

/-- The shape of a container that is entered, made of the shapes of the values in it. -/
def Contents.shape? (maxSample : Int) (f : Value → Shape) : Contents → Option Shape
  | .none => .none
  | .positions items => some (.ofClass Name.tuple (items.map f))
  | .elements items =>
    some (.ofClass Name.list [mergeShapes ((parts maxSample (.elements items)).map f)])
  | .entries es =>
    some (.ofClass Name.map [mergeShapes (es.map (f ·.1)), mergeShapes (es.map (f ·.2))])

/-- A container has a shape exactly if it is a container. -/
theorem Contents.shape?_eq_none {c : Contents} {f : Value → Shape} :
    c.shape? maxSample f = .none ↔ c = .none := by
  cases c <;> simp [shape?]

/-- The keys and the values of all entries are looked at. -/
theorem Contents.forall_mem_entries {es : List (Value × Value)} {P : Value → Prop} :
    (∀ x ∈ parts maxSample (.entries es), P x) ↔ (∀ e ∈ es, P e.1) ∧ ∀ e ∈ es, P e.2 := by
  simp only [parts, List.forall_mem_flatMap, List.forall_mem_cons, List.not_mem_nil,
    false_imp_iff, implies_true, and_true, imp_and, forall_and]

/-- The shape of a container depends on the shapes of the values that are looked at. -/
theorem Contents.shape?_congr {c : Contents} {f g : Value → Shape}
    (hsame : ∀ x ∈ c.parts maxSample, f x = g x) :
    c.shape? maxSample f = c.shape? maxSample g := by
  -- A tuple looks at its items, a list at its sample, a map at its keys and values.
  cases c with
  | none => rfl
  | positions items =>
    have hitems : ∀ x ∈ items, f x = g x := hsame
    rw [shape?, shape?, List.map_congr_left hitems]
  | elements items => rw [shape?, shape?, List.map_congr_left hsame]
  | entries es =>
    obtain ⟨hkey, hvalue⟩ := forall_mem_entries.1 hsame
    rw [shape?, shape?, List.map_congr_left hkey, List.map_congr_left hvalue]

/-- The values that are looked at in a container are those it leads to. -/
theorem leads_of_mem_parts {v x : Value} (hx : x ∈ (r.contents h v).parts maxSample) :
    h.Leads v x := by
  have hsample {items : List Value} (hx : x ∈ Contents.parts maxSample (.elements items)) :
      x ∈ items := by
    obtain ⟨i, -, hi⟩ := List.mem_filterMap.1 hx
    exact List.mem_of_getElem? hi
  -- Values of other kinds have no contents; empty and bound containers have none either.
  cases v with
  | tuple a n =>
    simp only [contents] at hx
    split at hx
    · cases hx
    · exact hx
  | slice elem a n =>
    simp only [contents] at hx
    split at hx
    · cases hx
    split at hx
    · cases hx
    · exact hsample hx
  | array elem items =>
    simp only [contents] at hx
    split at hx
    · cases hx
    split at hx
    · cases hx
    · exact hsample hx
  | map key value a =>
    simp only [contents] at hx
    split at hx
    · cases hx
    split at hx
    · cases hx
    · exact hx
  | _ =>
    simp only [contents, ite_self] at hx
    cases hx

/-- A distinct shape is one of those kept or of those that follow. -/
theorem mem_distinctShapes {kept shapes : List Shape} {s : Shape}
    (hs : s ∈ distinctShapes kept shapes) : s ∈ kept ∨ s ∈ shapes := by
  -- By induction on the shapes, for those kept so far.
  induction shapes generalizing kept with
  | nil => exact .inl hs
  | cons first rest ih =>
    rw [distinctShapes] at hs
    split at hs
    · exact (ih hs).imp_right (List.mem_cons_of_mem first)
    · obtain hs | hs := ih hs
      · obtain hs | hs := List.mem_append.1 hs
        · exact .inl hs
        · exact .inr (List.mem_singleton.1 hs ▸ List.mem_cons_self)
      · exact .inr (List.mem_cons_of_mem first hs)

/-- The distinct shapes of a list in the order of their texts. -/
def sortedShapes (shapes : List Shape) : List Shape :=
  (distinctShapes [] shapes).mergeSort fun a b => Text.le a.render b.render

/-- Sorting the distinct shapes adds none. -/
theorem mem_of_mem_sortedShapes {shapes : List Shape} {s : Shape} (hs : s ∈ sortedShapes shapes) :
    s ∈ shapes :=
  (mem_distinctShapes (List.mem_mergeSort.1 hs)).resolve_left List.not_mem_nil

/-- A single distinct shape stands for itself, and several make a union. -/
theorem mergeShapes_eq (shapes : List Shape) :
    mergeShapes shapes = match sortedShapes shapes with
      | [s] => s
      | sorted => .unionOf sorted := by
  unfold mergeShapes sortedShapes
  cases distinctShapes [] shapes with
  | nil => simp
  | cons a rest =>
    cases rest with
    -- Sorting keeps the number of shapes, so several stay several.
    | nil => simp
    | cons b rest =>
      have hlength := (List.mergeSort_perm (a :: b :: rest) fun a b =>
        Text.le a.render b.render).length_eq
      dsimp only
      split
      · rename_i hsingle
        simp [hsingle] at hlength
      · rfl

/-- Merging shapes may add the level of a union. -/
theorem depth_mergeShapes_le {shapes : List Shape} {n : Nat} (hn : ∀ s ∈ shapes, s.depth ≤ n) :
    (mergeShapes shapes).depth ≤ n + 1 := by
  have hsorted : ∀ s ∈ sortedShapes shapes, s.depth ≤ n := fun s hs =>
    hn s (mem_of_mem_sortedShapes hs)
  rw [mergeShapes_eq]
  split
  · rename_i s heq
    exact Nat.le_succ_of_le (hsorted s (heq ▸ List.mem_singleton_self s))
  · exact Shape.depth_unionOf_le hsorted

/-- A container adds at most two levels, its own and that of the union of its elements. -/
theorem Contents.depth_shape?_le {c : Contents} {f : Value → Shape} {s : Shape} {n : Nat}
    (hs : c.shape? maxSample f = some s) (hn : ∀ x ∈ c.parts maxSample, (f x).depth ≤ n) :
    s.depth ≤ n + 2 := by
  -- Positions make no union, so a tuple adds only the one level.
  cases c with
  | none => cases hs
  | positions items =>
    cases hs
    exact Nat.le_succ_of_le (Shape.depth_ofClass_le _ (List.forall_mem_map.2 hn))
  | elements items =>
    cases hs
    refine Shape.depth_ofClass_le _ (List.forall_mem_singleton.2 ?_)
    exact depth_mergeShapes_le (List.forall_mem_map.2 hn)
  | entries es =>
    cases hs
    obtain ⟨hkeys, hvalues⟩ := forall_mem_entries.1 hn
    refine Shape.depth_ofClass_le _ (List.forall_mem_cons.2 ⟨?_, List.forall_mem_singleton.2 ?_⟩)
    · exact depth_mergeShapes_le (List.forall_mem_map.2 hkeys)
    · exact depth_mergeShapes_le (List.forall_mem_map.2 hvalues)

/-! ## What is inferred -/

/-- How inference goes.  A container is entered if there is depth left, and each value that is looked
at has a shape of its own, with one level less.  There is no limit on the pointers that are
followed. -/
inductive Infers (r : Registry) (h : Host) (maxSample : Int) :
    Nat → List Nat → Value → Shape → Prop where
  | repeated {depth : Nat} {visiting visiting' : List Nat} {v : Value} {type : HostType} :
    r.Lands h visiting v (visiting', .repeated type) →
    Infers r h maxSample depth visiting v (r.hostShape h.definitions 0 type)
  | plain {depth : Nat} {visiting visiting' : List Nat} {v w : Value} :
    r.Lands h visiting v (visiting', .value w) → depth = 0 ∨ r.contents h w = .none →
    Infers r h maxSample depth visiting v (Id.run (r.inferPlain h depth w))
  | entered {depth : Nat} {visiting visiting' : List Nat} {v w : Value} {f : Value → Shape}
    {s : Shape} : r.Lands h visiting v (visiting', .value w) →
    (r.contents h w).shape? maxSample f = some s →
    (∀ x ∈ (r.contents h w).parts maxSample, Infers r h maxSample depth visiting' x (f x)) →
    Infers r h maxSample (depth + 1) visiting v s

/-- Inference has one result only. -/
theorem Infers.unique {depth : Nat} {visiting : List Nat} {v : Value} {s other : Shape}
    (hs : r.Infers h maxSample depth visiting v s)
    (hother : r.Infers h maxSample depth visiting v other) : other = s := by
  -- By induction on the first way; both land at the same value, and it is entered in both or in
  -- neither.
  induction hs generalizing other with
  | repeated hland =>
    cases hother with
    | repeated hland' =>
      cases hland.unique hland'
      rfl
    | plain hland' _ | entered hland' _ _ => cases hland.unique hland'
  | plain hland hplain =>
    cases hother with
    | repeated hland' => cases hland.unique hland'
    | plain hland' _ =>
      cases hland.unique hland'
      rfl
    | entered hland' hshape _ =>
      cases hland.unique hland'
      obtain hdepth | hnone := hplain
      · cases hdepth
      · rw [hnone] at hshape
        cases hshape
  | entered hland hshape _ ih =>
    cases hother with
    | repeated hland' => cases hland.unique hland'
    | plain hland' hplain =>
      cases hland.unique hland'
      obtain hdepth | hnone := hplain
      · cases hdepth
      · rw [hnone] at hshape
        cases hshape
    | entered hland' hshape' hparts' =>
      cases hland.unique hland'
      have hsame := Contents.shape?_congr fun x hx => ih x hx (hparts' x hx)
      rw [hsame, hshape] at hshape'
      exact (Option.some.inj hshape').symm

/-- The depth of a value that is not entered. -/
theorem depth_inferPlain_le {v : Value} (hv : r.isSelfTyped v = false) (depth : Nat) :
    (Id.run (r.inferPlain h depth v)).depth ≤ 2 * depth + 1 := by
  have hone {s : Shape} (hs : s.depth ≤ 1) : s.depth ≤ 2 * depth + 1 := by omega
  have hcoarse (t : HostType) : (r.hostShape h.definitions 0 t).depth ≤ 2 * depth + 1 :=
    hone (r.depth_hostShape_le h.definitions 0 t)
  -- Only the shapes of function types use the depth; all others are of one level.
  cases v with
  | typeObject t | typed t => cases hv
  | hooked hostType t =>
    rw [inferPlain, if_neg (by simpa [isSelfTyped] using hv)]
    exact hcoarse hostType
  | message hostType name descriptor =>
    rw [inferPlain, if_neg (by simpa [isSelfTyped] using hv)]
    exact hcoarse (.pointer hostType)
  | func type => exact r.depth_hostShape_le h.definitions depth type
  | pointer type a =>
    cases a with
    | none =>
      rw [inferPlain]
      split <;> exact hone (Nat.le_refl 1)
    | some a => exact hcoarse type
  | nil | bytes _ | tuple _ _ | slice _ _ _ | array _ _ | map _ _ _ => exact hone (Nat.le_refl 1)
  | _ =>
    simp only [inferPlain, Id.run_pure]
    exact hcoarse _

/-- The depth of what is inferred is at most twice the depth that is given, and one. -/
theorem Infers.depth_le {depth : Nat} {visiting : List Nat} {v : Value} {s : Shape}
    (hs : r.Infers h maxSample depth visiting v s) (hv : r.IsPlain h v) :
    s.depth ≤ 2 * depth + 1 := by
  induction hs with
  | @repeated depth _ _ _ type _ =>
    have hbase := r.depth_hostShape_le h.definitions 0 type
    omega
  | plain hland _ => exact depth_inferPlain_le (hv _ hland.leads) _
  | entered hland hshape _ ih =>
    -- One level of depth pays for the two levels of the container.
    refine Contents.depth_shape?_le hshape fun x hx => ih x hx (hv.of_leads ?_)
    exact hland.leads.tail (leads_of_mem_parts hx)

/-! ## The inference of the engine -/

section

variable {m : Type → Type} [Monad m] [Reducing m]
variable {depth : Nat} {visiting visiting' : List Nat} {v w : Value}

/-- At a pointer that is being followed already, inference takes the shape of its type. -/
theorem inferAt_repeated {type : HostType}
    (hland : r.land h (h.cells.size + 1) visiting v = (visiting', .repeated type)) (depth : Nat) :
    (r.inferAt h maxSample depth visiting v : m Shape) =
      pure (r.hostShape h.definitions 0 type) := by
  cases depth <;> simp only [inferAt, hland]

/-- A value that is not entered has the shape it has by itself. -/
theorem inferAt_plain (hland : r.land h (h.cells.size + 1) visiting v = (visiting', .value w))
    (hplain : depth = 0 ∨ r.contents h w = .none) :
    (r.inferAt h maxSample depth visiting v : m Shape) = r.inferPlain h depth w := by
  cases depth with
  | zero => simp only [inferAt, hland]
  | succ depth => simp only [inferAt, hland, hplain.resolve_left (Nat.succ_ne_zero depth)]

variable [LawfulMonad m]

omit [Reducing m] in
/-- Going through a list without effects is mapping. -/
theorem mapM_eq_pure {α β : Type} {as : List α} {f : α → m β} {g : α → β}
    (hf : ∀ a ∈ as, f a = pure (g a)) : as.mapM f = pure (as.map g) := by
  induction as with
  | nil => rw [List.mapM_nil, List.map_nil]
  | cons a as ih =>
    obtain ⟨ha, has⟩ := List.forall_mem_cons.1 hf
    rw [List.mapM_cons, ha, ih has, pure_bind, pure_bind, List.map_cons]

/-- A container is entered with one level less for what it contains. -/
theorem inferAt_entered (hland : r.land h (h.cells.size + 1) visiting v = (visiting', .value w))
    {f : Value → Shape} {s : Shape} (hshape : (r.contents h w).shape? maxSample f = some s)
    (hparts : ∀ x ∈ (r.contents h w).parts maxSample,
      (r.inferAt h maxSample depth visiting' x : m Shape) = pure (f x)) :
    (r.inferAt h maxSample (depth + 1) visiting v : m Shape) = pure s := by
  simp only [inferAt, hland]
  cases hcontents : r.contents h w with
  | none =>
    rw [hcontents] at hshape
    cases hshape
  | positions items =>
    rw [hcontents] at hshape hparts
    cases hshape
    have hitems : ∀ x ∈ items,
        (r.inferAt h maxSample depth visiting' x : m Shape) = pure (f x) := hparts
    dsimp only
    rw [mapM_eq_pure hitems, pure_bind]
  | elements items =>
    rw [hcontents] at hshape hparts
    cases hshape
    have hsample : ∀ x ∈ (sampleIndices items.length maxSample).filterMap fun i => items[i]?,
        (r.inferAt h maxSample depth visiting' x : m Shape) = pure (f x) := hparts
    dsimp only
    rw [mapM_eq_pure hsample, pure_bind]
    rfl
  | entries es =>
    rw [hcontents] at hshape hparts
    cases hshape
    -- A key and its value are inferred one after the other.
    have hpairs : ∀ e ∈ es, (do
        let key ← r.inferAt h maxSample depth visiting' e.1
        let value ← r.inferAt h maxSample depth visiting' e.2
        pure (key, value) : m (Shape × Shape)) = pure (f e.1, f e.2) := by
      intro e he
      rw [hparts e.1 (List.mem_flatMap.2 ⟨e, he, List.mem_cons_self⟩), pure_bind,
        hparts e.2 (List.mem_flatMap.2 ⟨e, he, by simp⟩), pure_bind]
    dsimp only
    rw [mapM_eq_pure hpairs, pure_bind, List.map_map, List.map_map]
    rfl

end

/-- The shape of a value that is not entered takes no reduction. -/
theorem inferPlain_eq_pure {m : Type → Type} [Monad m] [Reducing m] {v : Value}
    (hv : r.isSelfTyped v = false) (depth : Nat) :
    (r.inferPlain h depth v : m Shape) = pure (Id.run (r.inferPlain h depth v)) := by
  -- Only values with an expression in them are reduced, and those are excluded.
  cases v with
  | typeObject t | typed t => cases hv
  | hooked hostType t =>
    have hhook : ¬ r.typers.contains .custom = true := by simpa [isSelfTyped] using hv
    rw [inferPlain, inferPlain, if_neg hhook, if_neg hhook]
    rfl
  | message hostType name descriptor =>
    have hhook : ¬ r.typers.contains .messages = true := by simpa [isSelfTyped] using hv
    rw [inferPlain, inferPlain, if_neg hhook, if_neg hhook]
    rfl
  | pointer type a =>
    cases a with
    | none =>
      rw [inferPlain, inferPlain]
      split <;> rfl
    | some a => rfl
  | _ => rfl

/-- The shape that is inferred, if expressions are reduced plainly. -/
def shapeOf (r : Registry) (h : Host) (maxSample : Int) (depth : Nat) (visiting : List Nat)
    (v : Value) : Shape :=
  Id.run (r.inferAt h maxSample depth visiting v)

/-- What is inferred, told without a limit on the pointers that are followed. -/
theorem infers_shapeOf (depth : Nat) (visiting : List Nat) (v : Value) :
    r.Infers h maxSample depth visiting v (r.shapeOf h maxSample depth visiting v) := by
  have hlands := lands_land_size (r := r) (h := h) visiting v
  rcases hland : r.land h (h.cells.size + 1) visiting v with ⟨visiting', w | type⟩
  all_goals rw [hland] at hlands
  · have hplain (hstop : depth = 0 ∨ r.contents h w = .none) :
        r.Infers h maxSample depth visiting v (r.shapeOf h maxSample depth visiting v) := by
      rw [shapeOf, inferAt_plain hland hstop]
      exact .plain hlands hstop
    cases depth with
    | zero => exact hplain (.inl rfl)
    | succ depth =>
      -- The values in a container have one level less.
      cases hshape : (r.contents h w).shape? maxSample (r.shapeOf h maxSample depth visiting') with
      | none => exact hplain (.inr (Contents.shape?_eq_none.1 hshape))
      | some s =>
        -- The recursion is on the depth, which becomes one less in every container.
        rw [shapeOf, inferAt_entered hland hshape fun _ _ => rfl]
        exact .entered hlands hshape fun x _ => infers_shapeOf depth visiting' x
  · rw [shapeOf, inferAt_repeated hland]
    exact .repeated hlands

/-- What is inferred takes no reduction, if no type of the value is its own. -/
theorem Infers.inferAt_eq {m : Type → Type} [Monad m] [LawfulMonad m] [Reducing m] {depth : Nat}
    {visiting : List Nat} {v : Value} {s : Shape} (hs : r.Infers h maxSample depth visiting v s)
    (hv : r.IsPlain h v) : (r.inferAt h maxSample depth visiting v : m Shape) = pure s := by
  induction hs with
  | repeated hland => exact inferAt_repeated hland.land_eq _
  | plain hland hplain =>
    rw [inferAt_plain hland.land_eq hplain]
    exact inferPlain_eq_pure (hv _ hland.leads) _
  | entered hland hshape _ ih =>
    refine inferAt_entered hland.land_eq hshape fun x hx => ih x hx (hv.of_leads ?_)
    exact hland.leads.tail (leads_of_mem_parts hx)

/-- Inference ends on every heap, with one result, and so do the chains of pointer types that it
follows.  The result takes no reduction.  Its depth is at most twice the depth that is given, and
one; of the depth that is given, no more than `maxRecursion` levels count. -/
theorem inferM_depth_le (r : Registry) (h : Host) {v : Value} (maxDepth maxSample : Int)
    (hv : r.IsPlain h v) :
    let depth := min maxDepth.toNat maxRecursion
    (∀ t, HostType.Chases h.definitions [t] t (t.pointee h.definitions)) ∧
    ∃ s, r.Infers h maxSample depth [] v s ∧
      (∀ other, r.Infers h maxSample depth [] v other → other = s) ∧
      (∀ {m : Type → Type} [Monad m] [LawfulMonad m] [Reducing m],
        (r.inferM h v maxDepth maxSample : m Shape) = pure s) ∧
      s.depth ≤ 2 * depth + 1 := by
  -- The bounded inference gives a result, and the relation has no other.
  intro depth
  have hs : r.Infers h maxSample depth [] v (r.shapeOf h maxSample depth [] v) :=
    infers_shapeOf depth [] v
  exact ⟨HostType.chases_pointee h.definitions, _, hs, fun _ => hs.unique, hs.inferAt_eq hv,
    hs.depth_le hv⟩

/-- A pointer to a list that contains the pointer and a number.  With one level to enter, the pointer
is met again in the list, where it has the shape of its type. -/
theorem inferM_depth_le_cycle :
    let v : Value := .pointer (.pointer (.slice .any)) (some 0)
    let h : Host := { cells := #[.value (.slice .any 1 2), .items [v, .int .int 1]] }
    let s : Shape := .ofClass Name.list [mergeShapes [.leaf Name.list, .leaf Name.int]]
    builtin.IsPlain h v ∧ (builtin.inferM h v 1 0 : Id Shape) = s ∧ s.depth ≤ 3 := by
  intro v h s
  have hclosed (w : Value) (hw : ReflTransGen h.Leads v w) :
      w = v ∨ w = .slice .any 1 2 ∨ w = .int .int 1 := by
    induction hw with
    | refl => exact .inl rfl
    | tail _ hstep ih =>
      obtain rfl | rfl | rfl := ih
      · exact .inr (.inl (List.mem_singleton.1 hstep))
      · obtain rfl | hstep := List.mem_cons.1 hstep
        · exact .inl rfl
        · exact .inr (.inr (List.mem_singleton.1 hstep))
      · cases hstep
  have hplain : builtin.IsPlain h v := by
    intro w hw
    obtain rfl | rfl | rfl := hclosed w hw <;> rfl
  -- The two elements of the list, the pointer itself among them.
  have hparts : Contents.parts 0 (.elements [v, .int .int 1]) = [v, .int .int 1] := by
    have hsample : sampleIndices 2 0 = [0, 1] := rfl
    show (sampleIndices 2 0).filterMap _ = _
    rw [hsample]
    rfl
  have hshape : (builtin.contents h (.slice .any 1 2)).shape? 0 (builtin.shapeOf h 0 0 [0]) =
      some s := by
    have hcontents : builtin.contents h (.slice .any 1 2) = .elements [v, .int .int 1] := rfl
    rw [hcontents, Contents.shape?, hparts]
    rfl
  have hrun : (builtin.inferM h v 1 0 : Id Shape) = s :=
    inferAt_entered rfl hshape fun _ _ => rfl
  obtain ⟨-, s', -, -, hs', hdepth⟩ := builtin.inferM_depth_le h 1 0 hplain
  obtain rfl : s = s' := hrun.symm.trans hs'
  exact ⟨hplain, hrun, hdepth⟩

end Registry

end TypeShape
