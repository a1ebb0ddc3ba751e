import TypeShape.Proofs.Histories
import TypeShape.Proofs.Inheritance
import TypeShape.Proofs.Lineages

/-!
# Inherited members

The classes that a class inherits from are met in depth-first order: a class before its bases, and a
base with all that it leads to before the next base.  The order is told here without the limit on
steps that the walk over names has, and without its stack.  Both ways of collecting the members of a
class follow it, so a member is that of the first class in this order to declare its name.

## Key results

- `Registry.exists_preorder`: the lineage of a class is the depth-first order of its bases
- `Registry.Preorder.mem_iff`: the order has every class that can be reached, and no other
- `Registry.mem_firstMembers_flatMap`: a member is taken from the first class to declare its name
- `Registry.names_memberShapes`: the members of a class and its members as conformance works them out
  have the same names in the same order
- `Registry.members_of_preorder`: both collectors of members, in every registry of a history
-/

namespace TypeShape.Registry

open Relation (ReflTransGen)

variable {r : Registry}

/-! ## Depth-first order -/

/-- The names of the classes that some names lead to, in depth-first order: a class, then what its
bases lead to, then what the names after it lead to.  What was visited before is left out, and so
are names without a class. -/
inductive Preorder (r : Registry) : List Text → List Text → List Text → Prop where
  | nil {visited : List Text} : Preorder r visited [] []
  | again {visited names order : List Text} {name : Text} : name ∈ visited →
    Preorder r visited names order → Preorder r visited (name :: names) order
  | unknown {visited names order : List Text} {name : Text} : r.class? name = none →
    Preorder r visited names order → Preorder r visited (name :: names) order
  | enter {visited names below order : List Text} {name : Text} {c : Class} : name ∉ visited →
    r.class? name = some c → Preorder r (name :: visited) c.baseNames below →
    Preorder r (below ++ name :: visited) names order →
    Preorder r visited (name :: names) (name :: below ++ order)

namespace Preorder

variable {visited names order : List Text}

/-- Of the names visited before, those of classes count, not their order. -/
theorem congr (h : r.Preorder visited names order) {visited' : List Text}
    (hsame : ∀ n, (r.class? n).isSome = true → (n ∈ visited ↔ n ∈ visited')) :
    r.Preorder visited' names order := by
  -- By induction on the order: only names with a class are told apart from those visited before.
  induction h generalizing visited' with
  | nil => exact .nil
  | @again visited names order name hmem _ ih =>
    by_cases hknown : (r.class? name).isSome = true
    · exact .again ((hsame name hknown).1 hmem) (ih hsame)
    · exact .unknown (by simpa using hknown) (ih hsame)
  | unknown hnone _ ih => exact .unknown hnone (ih hsame)
  | @enter visited names below order name c hnew hc _ _ ihbelow ihorder =>
    have hknown : (r.class? name).isSome = true := by simp [hc]
    refine .enter (mt (hsame name hknown).2 hnew) hc (ihbelow fun n hn => ?_)
      (ihorder fun n hn => ?_)
    · simp [hsame n hn]
    · simp [hsame n hn]

/-- What one class leads to. -/
theorem one {below : List Text} {name : Text} {c : Class} (hnew : name ∉ visited)
    (hc : r.class? name = some c) (h : r.Preorder (name :: visited) c.baseNames below) :
    r.Preorder visited [name] (name :: below) := by
  simpa using enter hnew hc h .nil

/-- What two lists of names lead to, one after the other. -/
theorem append {names' order' : List Text} (h : r.Preorder visited names order)
    (h' : r.Preorder (order ++ visited) names' order') :
    r.Preorder visited (names ++ names') (order ++ order') := by
  induction h generalizing order' with
  | nil => exact h'
  | again hmem _ ih => exact .again hmem (ih h')
  | unknown hnone _ ih => exact .unknown hnone (ih h')
  | @enter visited names below order name c hnew hc hbelow _ _ ih =>
    -- The same names were visited before the names that follow, in another order.
    have hrest : r.Preorder (order ++ (below ++ name :: visited)) names' order' := by
      refine h'.congr fun n _ => ?_
      simp only [List.mem_append, List.mem_cons]
      tauto
    have hall := Preorder.enter hnew hc hbelow (ih hrest)
    rwa [← List.append_assoc] at hall

/-- A depth-first order of two lists of names falls into one of each. -/
theorem split {names' : List Text} (h : r.Preorder visited (names ++ names') order) :
    ∃ first rest, order = first ++ rest ∧ r.Preorder visited names first ∧
      r.Preorder (first ++ visited) names' rest := by
  -- By induction on the first list; a class that is entered takes what is below it along.
  induction names generalizing visited order with
  | nil => exact ⟨[], order, rfl, .nil, h⟩
  | cons name names ih =>
    cases h with
    | again hmem h =>
      obtain ⟨first, rest, heq, hfirst, hrest⟩ := ih h
      exact ⟨first, rest, heq, .again hmem hfirst, hrest⟩
    | unknown hnone h =>
      obtain ⟨first, rest, heq, hfirst, hrest⟩ := ih h
      exact ⟨first, rest, heq, .unknown hnone hfirst, hrest⟩
    | @enter _ _ below _ _ c hnew hc hbelow h =>
      obtain ⟨first, rest, rfl, hfirst, hrest⟩ := ih h
      refine ⟨name :: below ++ first, rest, by simp, .enter hnew hc hbelow hfirst, ?_⟩
      refine hrest.congr fun m _ => ?_
      simp only [List.mem_append, List.mem_cons]
      tauto

/-- There is only one depth-first order. -/
theorem unique (h : r.Preorder visited names order) {other : List Text}
    (h' : r.Preorder visited names other) : other = order := by
  -- By induction on the first order; the second one has to take the same steps.
  induction h generalizing other with
  | nil =>
    cases h'
    rfl
  | again hmem _ ih =>
    cases h' with
    | again _ h' => exact ih h'
    | unknown _ h' => exact ih h'
    | enter hnew _ _ _ => exact absurd hmem hnew
  | unknown hnone _ ih =>
    cases h' with
    | again _ h' => exact ih h'
    | unknown _ h' => exact ih h'
    | enter _ hc _ _ => rw [hnone] at hc; cases hc
  | enter hnew hc _ _ ihbelow ihorder =>
    cases h' with
    | again hmem _ => exact absurd hmem hnew
    | unknown hnone _ => rw [hnone] at hc; cases hc
    | enter _ hc' hbelow horder =>
      cases Option.some.inj (hc'.symm.trans hc)
      obtain rfl := ihbelow hbelow
      rw [ihorder horder]

/-- A depth-first order has no name twice, and none that was visited before. -/
theorem nodup (h : r.Preorder visited names order) :
    order.Nodup ∧ ∀ n ∈ order, n ∉ visited := by
  induction h with
  | nil => exact ⟨List.nodup_nil, by simp⟩
  | again _ _ ih => exact ih
  | unknown _ _ ih => exact ih
  | @enter visited names below order name c hnew _ _ _ ihbelow ihorder =>
    obtain ⟨hbelow, hbelow'⟩ := ihbelow
    obtain ⟨horder, horder'⟩ := ihorder
    -- What the bases lead to avoids the class, and what comes next avoids both.
    simp only [List.mem_append, List.mem_cons, not_or] at hbelow' horder'
    refine ⟨?_, ?_⟩
    · rw [List.cons_append, List.nodup_cons, List.nodup_append, List.mem_append]
      refine ⟨?_, hbelow, horder, fun n hn m hm heq => (horder' m hm).1 (heq ▸ hn)⟩
      rintro (hmem | hmem)
      · exact (hbelow' name hmem).1 rfl
      · exact (horder' name hmem).2.1 rfl
    · simp only [List.cons_append, List.mem_cons, List.mem_append]
      rintro n (rfl | hn | hn)
      · exact hnew
      · exact (hbelow' n hn).2
      · exact (horder' n hn).2.2

/-- Every name of a depth-first order is that of a class, and bases lead to it. -/
theorem reachable (h : r.Preorder visited names order) {n : Text} (hn : n ∈ order) :
    (r.class? n).isSome = true ∧ ∃ start ∈ names, ReflTransGen r.HasBase start n := by
  -- By induction on the order; a class below another is a base or below a base of it.
  induction h with
  | nil => exact absurd hn List.not_mem_nil
  | again _ _ ih | unknown _ _ ih =>
    obtain ⟨hknown, start, hstart, hpath⟩ := ih hn
    exact ⟨hknown, start, List.mem_cons_of_mem _ hstart, hpath⟩
  | @enter visited names below order name c _ hc _ _ ihbelow ihorder =>
    rw [List.cons_append, List.mem_cons, List.mem_append] at hn
    obtain rfl | hn | hn := hn
    · exact ⟨by simp [hc], n, List.mem_cons_self, .refl⟩
    · obtain ⟨hknown, base, hbase, hpath⟩ := ihbelow hn
      exact ⟨hknown, name, List.mem_cons_self, .head ((hasBase_iff hc).2 hbase) hpath⟩
    · obtain ⟨hknown, start, hstart, hpath⟩ := ihorder hn
      exact ⟨hknown, start, List.mem_cons_of_mem _ hstart, hpath⟩

/-- The names that a depth-first order starts from, and the bases of its classes, are in the order
or were visited before, as far as they have a class. -/
theorem closed (h : r.Preorder visited names order) {n : Text}
    (hn : n ∈ names ∨ ∃ m ∈ order, r.HasBase m n) (hknown : (r.class? n).isSome = true) :
    n ∈ order ++ visited := by
  -- By induction on the order.
  induction h with
  | nil => simp at hn
  | @again visited names order name hmem _ ih =>
    obtain hn | hn := hn
    · obtain rfl | hn := List.mem_cons.1 hn
      · exact List.mem_append_right _ hmem
      · exact ih (.inl hn)
    · exact ih (.inr hn)
  | @unknown visited names order name hnone _ ih =>
    obtain hn | hn := hn
    · obtain rfl | hn := List.mem_cons.1 hn
      · simp [hnone] at hknown
      · exact ih (.inl hn)
    · exact ih (.inr hn)
  | @enter visited names below order name c _ hc _ _ ihbelow ihorder =>
    have hlift (hmem : n ∈ order ++ (below ++ name :: visited)) :
        n ∈ name :: below ++ order ++ visited := by
      simp only [List.mem_append, List.mem_cons, List.cons_append] at hmem ⊢
      grind
    obtain hn | ⟨m, hm, hbase⟩ := hn
    · obtain rfl | hn := List.mem_cons.1 hn
      · exact List.mem_append_left _ List.mem_cons_self
      · exact hlift (ihorder (.inl hn))
    · rw [List.cons_append, List.mem_cons, List.mem_append] at hm
      obtain rfl | hm | hm := hm
      · exact hlift (List.mem_append_right _ (ihbelow (.inl ((hasBase_iff hc).1 hbase))))
      · exact hlift (List.mem_append_right _ (ihbelow (.inr ⟨m, hm, hbase⟩)))
      · exact hlift (ihorder (.inr ⟨m, hm, hbase⟩))

/-- The depth-first order from a name has every class that bases lead to, and no other. -/
theorem mem_iff {start : Text} (h : r.Preorder [] [start] order) {n : Text} :
    n ∈ order ↔ (r.class? n).isSome = true ∧ ReflTransGen r.HasBase start n := by
  -- One direction by soundness of the order, the other by induction on the path.
  constructor
  · intro hn
    obtain ⟨hknown, start', hstart, hpath⟩ := h.reachable hn
    obtain rfl := List.mem_singleton.1 hstart
    exact ⟨hknown, hpath⟩
  · rintro ⟨hknown, hpath⟩
    induction hpath with
    | refl => simpa using h.closed (.inl (List.mem_singleton_self start)) hknown
    | @tail m n _ hbase ih =>
      simpa using h.closed (.inr ⟨m, ih hbase.isSome_class?, hbase⟩) hknown

end Preorder

/-! ## The walk over names -/

/-- The number of bases written in the classes that were not visited yet. -/
def pendingBases (visited : List Text) : List (Text × Class) → Nat
  | [] => 0
  | (name, c) :: rest =>
    if visited.contains name then pendingBases visited rest
    else c.bases.length + pendingBases visited rest

/-- The bases that are pending are no more than those declared. -/
theorem pendingBases_le (r : Registry) (visited : List Text) :
    pendingBases visited r.classes ≤ r.baseCount := by
  unfold baseCount
  induction r.classes with
  | nil => exact Nat.le_refl 0
  | cons entry rest ih =>
    obtain ⟨name, c⟩ := entry
    rw [pendingBases, List.foldr_cons]
    split
    · exact Nat.le_trans ih (Nat.le_add_left _ _)
    · exact Nat.add_le_add_left ih _

/-- The more classes were visited, the fewer bases are pending. -/
theorem pendingBases_mono {visited visited' : List Text} (h : visited ⊆ visited')
    (classes : List (Text × Class)) :
    pendingBases visited' classes ≤ pendingBases visited classes := by
  induction classes with
  | nil => exact Nat.le_refl 0
  | cons entry rest ih =>
    obtain ⟨name, c⟩ := entry
    rw [pendingBases, pendingBases]
    -- A class that was visited does not count; one visited since counts no longer.
    by_cases hv : visited.contains name = true
    · have hv' : visited'.contains name = true :=
        List.contains_iff_mem.2 (h (List.contains_iff_mem.1 hv))
      rwa [if_pos hv, if_pos hv']
    · rw [if_neg hv]
      split <;> omega

/-- Visiting a class takes its bases away from those that are pending. -/
theorem pendingBases_cons {visited : List Text} {name : Text} {c : Class}
    {classes : List (Text × Class)} (hc : (name, c) ∈ classes) (hnew : name ∉ visited) :
    c.baseNames.length + pendingBases (name :: visited) classes ≤ pendingBases visited classes := by
  have hsub := List.subset_cons_self name visited
  -- By induction on the classes; where the class stands, its bases stop being pending.
  induction classes with
  | nil => exact absurd hc List.not_mem_nil
  | cons entry rest ih =>
    rw [List.mem_cons] at hc
    obtain rfl | hc := hc
    · have hmono := pendingBases_mono hsub rest
      have hnames : c.baseNames.length ≤ c.bases.length := List.length_filterMap_le _ _
      rw [pendingBases, pendingBases, if_pos (List.contains_iff_mem.2 List.mem_cons_self),
        if_neg (mt List.contains_iff_mem.1 hnew)]
      omega
    · obtain ⟨n, d⟩ := entry
      have hrest := ih hc
      rw [pendingBases, pendingBases]
      by_cases hn : visited.contains n = true
      · rwa [if_pos hn, if_pos (List.contains_iff_mem.2 (hsub (List.contains_iff_mem.1 hn)))]
      · rw [if_neg hn]
        split <;> omega

/-- The walk over names meets the classes in depth-first order, if it has a step for each name on
its stack and each base that is pending. -/
theorem exists_preorder_lineageFrom {fuel : Nat} {visited stack : List Text}
    (hfuel : stack.length + pendingBases visited r.classes ≤ fuel) :
    ∃ order, r.Preorder visited stack order ∧
      r.lineageFrom fuel visited stack = order.filterMap r.class? := by
  -- By induction on the fuel; each step takes a name from the stack, and the bases of a new class
  -- are taken from those that are pending.
  induction fuel generalizing visited stack with
  | zero =>
    obtain rfl : stack = [] := List.length_eq_zero_iff.1 (by omega)
    exact ⟨[], .nil, rfl⟩
  | succ fuel ih =>
    cases stack with
    | nil => exact ⟨[], .nil, rfl⟩
    | cons name stack =>
      rw [List.length_cons] at hfuel
      rw [lineageFrom]
      split
      · rename_i hmem
        have hrest : stack.length + pendingBases visited r.classes ≤ fuel := by omega
        obtain ⟨order, horder, hwalk⟩ := ih hrest
        exact ⟨order, .again (List.contains_iff_mem.1 hmem) horder, hwalk⟩
      · rename_i hnew
        have hnew : name ∉ visited := mt List.contains_iff_mem.2 hnew
        split
        · rename_i hnone
          have hmono := pendingBases_mono (List.subset_cons_self name visited) r.classes
          have hrest : stack.length + pendingBases (name :: visited) r.classes ≤ fuel := by omega
          obtain ⟨order, horder, hwalk⟩ := ih hrest
          -- The walk notes the name, but no class stands under it.
          refine ⟨order, .unknown hnone (horder.congr fun n hn => ?_), hwalk⟩
          have hne : n ≠ name := by
            rintro rfl
            simp [hnone] at hn
          simp [hne]
        · rename_i c hc
          have hpending := pendingBases_cons (Table.mem_of_find? hc) hnew
          have hrest : (c.baseNames ++ stack).length + pendingBases (name :: visited) r.classes ≤
              fuel := by
            rw [List.length_append]
            omega
          obtain ⟨order, horder, hwalk⟩ := ih hrest
          -- The bases of the class stand on the stack before the names that were there.
          obtain ⟨below, rest, rfl, hbelow, hrest⟩ := horder.split
          exact ⟨name :: below ++ rest, .enter hnew hc hbelow hrest, by simp [hc, hwalk]⟩

/-- The lineage of a class is the depth-first order of its bases. -/
theorem exists_preorder (r : Registry) (name : Text) :
    ∃ order, r.Preorder [] [name] order ∧ r.lineage name = order.filterMap r.class? := by
  refine exists_preorder_lineageFrom ?_
  have hle := r.pendingBases_le []
  rw [List.length_singleton]
  omega

/-! ## The first member of a name -/

/-- The first members have the names of all members but those seen. -/
theorem mem_names_firstMembers {seen : List Text} {ms : List Member} {n : Text} :
    n ∈ (firstMembers seen ms).map (·.name) ↔ n ∈ ms.map (·.name) ∧ n ∉ seen := by
  -- By induction on the members, for the names seen before.
  induction ms generalizing seen with
  | nil => simp [firstMembers]
  | cons m ms ih =>
    rw [firstMembers]
    by_cases hm : m.name ∈ seen
    · rw [if_pos (List.contains_iff_mem.2 hm), ih, List.map_cons, List.mem_cons]
      grind
    · rw [if_neg (mt List.contains_iff_mem.1 hm), List.map_cons, List.mem_cons, ih,
        List.map_cons, List.mem_cons, List.mem_cons]
      grind

/-- No two of the first members have one name. -/
theorem nodup_firstMembers (seen : List Text) (ms : List Member) :
    ((firstMembers seen ms).map (·.name)).Nodup := by
  induction ms generalizing seen with
  | nil => exact List.nodup_nil
  | cons m ms ih =>
    rw [firstMembers]
    split
    · exact ih seen
    · rw [List.map_cons, List.nodup_cons, mem_names_firstMembers]
      exact ⟨fun hmem => hmem.2 List.mem_cons_self, ih _⟩

/-- A first member is the first of its name, and its name was not seen. -/
theorem mem_firstMembers {seen : List Text} {ms : List Member} {m : Member} :
    m ∈ firstMembers seen ms ↔ m.name ∉ seen ∧ ms.find? (·.name == m.name) = some m := by
  induction ms generalizing seen with
  | nil => simp [firstMembers]
  | cons first ms ih =>
    rw [firstMembers]
    -- A member of another name goes by; one of this name is the first, unless the name was seen.
    by_cases hname : first.name = m.name
    · rw [List.find?_cons_of_pos (by simpa using hname)]
      split
      · rename_i hseen
        rw [ih, ← hname]
        simp [List.contains_iff_mem.1 hseen]
      · rename_i hnew
        rw [List.mem_cons, ih, ← hname]
        have := mt List.contains_iff_mem.2 hnew
        simp [this, eq_comm]
    · rw [List.find?_cons_of_neg (by simpa using hname)]
      split
      · exact ih
      · rw [List.mem_cons, ih, List.mem_cons]
        grind

/-- The members that the class `name` declares itself. -/
def ownMembers (r : Registry) (name : Text) : List Member :=
  match r.class? name with
  | some c => c.members
  | none => []

/-- The members of the classes under some names are those under each name. -/
theorem flatMap_members_filterMap (r : Registry) (names : List Text) :
    (names.filterMap r.class?).flatMap (·.members) = names.flatMap r.ownMembers := by
  induction names with
  | nil => rfl
  | cons name names ih =>
    rw [List.flatMap_cons, ← ih, ownMembers]
    cases hc : r.class? name with
    | none => rw [List.filterMap_cons_none hc]; rfl
    | some c => rw [List.filterMap_cons_some hc, List.flatMap_cons]

/-- The members of a class are found along the depth-first order of its bases. -/
theorem members_eq_firstMembers {name : Text} {order : List Text}
    (h : r.Preorder [] [name] order) :
    r.members name = firstMembers [] (order.flatMap r.ownMembers) := by
  obtain ⟨order', horder', hlineage⟩ := r.exists_preorder name
  obtain rfl := h.unique horder'
  rw [members, hlineage, flatMap_members_filterMap]

/-! ## The class that a member is taken from -/

/-- The members of one class have different names. -/
theorem nodup_ownMembers (hr : r.WellFormed) (name : Text) :
    ((r.ownMembers name).map (·.name)).Nodup := by
  unfold ownMembers
  split
  · rename_i c hc
    exact (hr.classes name c hc).members_nodup
  · exact List.nodup_nil

/-- A class declares one member of a name. -/
theorem find?_ownMembers (hr : r.WellFormed) {name : Text} {m : Member} :
    (r.ownMembers name).find? (·.name == m.name) = some m ↔ m ∈ r.ownMembers name := by
  refine ⟨List.mem_of_find?_eq_some, fun hm => ?_⟩
  obtain ⟨found, hfound⟩ : ∃ found, (r.ownMembers name).find? (·.name == m.name) = some found := by
    rw [← Option.isSome_iff_exists, List.find?_isSome]
    exact ⟨m, hm, beq_self_eq_true m.name⟩
  have hname : found.name = m.name := by simpa using List.find?_some hfound
  rw [hfound, List.inj_on_of_nodup_map (nodup_ownMembers hr name)
    (List.mem_of_find?_eq_some hfound) hm hname]

/-- The member of a name is that of the first class to declare the name. -/
theorem mem_firstMembers_flatMap (hr : r.WellFormed) {order : List Text} {m : Member} :
    m ∈ firstMembers [] (order.flatMap r.ownMembers) ↔
      ∃ before name after, order = before ++ name :: after ∧ m ∈ r.ownMembers name ∧
        ∀ earlier ∈ before, m.name ∉ (r.ownMembers earlier).map (·.name) := by
  -- The first member of the name is looked up class by class.
  have hnone (name : Text) : (r.ownMembers name).find? (·.name == m.name) = none ↔
      m.name ∉ (r.ownMembers name).map (·.name) := by
    simp [List.find?_eq_none]
  simp only [mem_firstMembers, List.not_mem_nil, not_false_eq_true, true_and, List.find?_flatMap,
    List.findSome?_eq_some_iff, find?_ownMembers hr, hnone]

/-! ## The two collectors of members -/

/-- Mapping over what is seen is binding it to a pure result. -/
theorem map_eq_bind_seeing {α β : Type} (f : α → β) (x : Seeing α) :
    f <$> x = x >>= fun a => pure (f a) := rfl

/-- Members whose types are reduced plainly are those seen by plain reduction. -/
def seeingPlain : Simulation Seeing Id where
  Rel x y := ReaderT.run x TypeExpr.reduce = y
  rel_pure _ := rfl
  rel_bind := by
    intro α β x y f g hx hf
    subst hx
    exact hf _
  map_left := @map_eq_bind_seeing
  map_right _ _ := rfl
  rel_reduce _ := rfl

/-- The members of a class and its members as conformance works them out have the same names in the
same order, whatever is put into the latter. -/
theorem names_memberShapes (hr : r.WellDeclared) (halias : r.Unaliased) {c : Class}
    (hc : r.class? c.name = some c) {extra : Subst} {found : List MemberShape}
    (h : (r.memberShapes (.leaf c.name) extra : Id _) = .ok found) :
    found.map (·.name) = (r.members c.name).map (·.name) := by
  have hsee : ∀ t, View.Shows TypeExpr.reduce t := fun _ => rfl
  have hrun := (seeingPlain.memberShapes r (.leaf c.name) extra).trans h
  -- Both are worked out along the visits of one walk.
  rcases hlog : r.visits TypeExpr.reduce (.leaf c.name) with e | log
  · rw [memberShapes, walkAll_eq_foldl, hlog] at hrun
    cases hrun
  · rw [memberShapes_of_visits hlog] at hrun
    cases hrun
    rw [members_of_visits hr halias hsee hc [] hlog, List.map_map, List.map_map]
    rfl

/-- The members of a class, in every registry of a history.  No name is listed twice, and a name is
listed if some class declares it that bases lead to.  The member of a name is that of the first
class in depth-first order to declare it.  As long as no class is named like an alias, conformance
works out members of the same names in the same order, if it can. -/
theorem members_of_preorder (history : List Event) {r : Registry} (hr : r ∈ pool history)
    (halias : r.Unaliased) {name : Text} {c : Class} (hc : r.class? name = some c) :
    ((r.members name).map (·.name)).Nodup ∧
    (∀ n, n ∈ (r.members name).map (·.name) ↔
      ∃ super, ReflTransGen r.HasBase name super ∧ n ∈ (r.ownMembers super).map (·.name)) ∧
    (∃ order, r.Preorder [] [name] order ∧
      (∀ other, r.Preorder [] [name] other → other = order) ∧
      (∀ super, super ∈ order ↔
        (r.class? super).isSome = true ∧ ReflTransGen r.HasBase name super) ∧
      ∀ m, m ∈ r.members name ↔
        ∃ before super after, order = before ++ super :: after ∧ m ∈ r.ownMembers super ∧
          ∀ earlier ∈ before, m.name ∉ (r.ownMembers earlier).map (·.name)) ∧
    ∀ extra found, (r.memberShapes (.leaf name) extra : Id _) = .ok found →
      found.map (·.name) = (r.members name).map (·.name) := by
  have hformed := (pool_wellFormed history).1 r hr
  have hdeclared : r.WellDeclared := fun n d hd => (hformed.classes n d hd).toClassChecked
  obtain rfl : c.name = name := (hdeclared name c hc).name_eq
  obtain ⟨order, horder, -⟩ := r.exists_preorder c.name
  have hmembers := members_eq_firstMembers horder
  refine ⟨?_, fun n => ?_, ⟨order, horder, fun other hother => horder.unique hother,
    fun super => horder.mem_iff, fun m => ?_⟩, fun extra found h => ?_⟩
  · rw [hmembers]
    exact nodup_firstMembers _ _
  · rw [hmembers, mem_names_firstMembers]
    simp only [List.not_mem_nil, not_false_eq_true, and_true, List.mem_map, List.mem_flatMap]
    constructor
    · rintro ⟨m, ⟨super, hsuper, hm⟩, hname⟩
      exact ⟨super, (horder.mem_iff.1 hsuper).2, m, hm, hname⟩
    · rintro ⟨super, hpath, m, hm, hname⟩
      -- Only a class declares members, so the name stands in the order.
      have hknown : (r.class? super).isSome = true := by
        by_contra hnone
        rw [ownMembers, Option.not_isSome_iff_eq_none.1 hnone] at hm
        exact absurd hm List.not_mem_nil
      exact ⟨m, ⟨super, horder.mem_iff.2 ⟨hknown, hpath⟩, hm⟩, hname⟩
  · rw [hmembers]
    exact mem_firstMembers_flatMap hformed
  · exact names_memberShapes hdeclared halias hc h

/-! ## A diamond in a cycle -/

/-- Two classes with a common base, and a class with both as bases, which the common base is declared
anew to inherit from. -/
def diamond : List Event :=
  let top (bases : List TypeExpr) : Class :=
    { name := text "Top", bases, members := [⟨text "a", .con Name.int⟩, ⟨text "b", .con Name.int⟩] }
  let left : Class :=
    { name := text "Left", bases := [.con (text "Top")]
      members := [⟨text "a", .con Name.string⟩] }
  let right : Class :=
    { name := text "Right", bases := [.con (text "Top")]
      members := [⟨text "b", .con Name.string⟩, ⟨text "c", .con Name.string⟩] }
  let bottom : Class :=
    { name := text "Bottom", bases := [.con (text "Left"), .con (text "Right")] }
  [.call 0 (.declare (top [])), .call 0 (.declare left), .call 0 (.declare right),
    .call 0 (.declare bottom), .call 0 (.declare (top [.con (text "Bottom")]))]

/-- The class at the bottom has one member from each of the others: that of the common base comes
after the one base that shadows its first member, and before the other. -/
theorem members_of_preorder_diamond :
    let bottom := text "Bottom"
    let left := text "Left"
    let top := text "Top"
    let right := text "Right"
    ∃ r, pool diamond = [r] ∧ r.Unaliased ∧ r.HasBase top bottom ∧
      r.members bottom = [⟨text "a", .con Name.string⟩, ⟨text "b", .con Name.int⟩,
        ⟨text "c", .con Name.string⟩] ∧
      (∀ order, r.Preorder [] [bottom] order ↔ order = [bottom, left, top, right]) ∧
      ∃ found, (r.memberShapes (.leaf bottom) [] : Id _) = .ok found ∧
        found.map (·.name) = [text "a", text "b", text "c"] := by
  intro bottom left top right
  -- What evaluation tells about the registry; the rest follows for any registry like it.
  obtain ⟨r, hpool, halias, hmembers, ⟨found, hfound⟩, ⟨b, hb, hbases⟩, ⟨l, hl, hlbases⟩,
      ⟨t, ht, htbases⟩, ⟨c, hc, hcbases⟩⟩ : ∃ r, pool diamond = [r] ∧ r.Unaliased ∧
      r.members bottom = [⟨text "a", .con Name.string⟩, ⟨text "b", .con Name.int⟩,
        ⟨text "c", .con Name.string⟩] ∧
      (∃ found, (r.memberShapes (.leaf bottom) [] : Id _) = .ok found) ∧
      (∃ b, r.class? bottom = some b ∧ b.baseNames = [left, right]) ∧
      (∃ l, r.class? left = some l ∧ l.baseNames = [top]) ∧
      (∃ t, r.class? top = some t ∧ t.baseNames = [bottom]) ∧
      ∃ c, r.class? right = some c ∧ c.baseNames = [top] :=
    ⟨_, rfl, fun _ _ => rfl, rfl, ⟨_, rfl⟩, ⟨_, rfl, rfl⟩, ⟨_, rfl, rfl⟩, ⟨_, rfl, rfl⟩, _, rfl, rfl⟩
  have hmem : r ∈ pool diamond := hpool ▸ List.mem_singleton_self r
  obtain ⟨-, -, ⟨order, horder, hunique, -⟩, hnames⟩ :=
    members_of_preorder diamond hmem halias hb
  have htop : r.Preorder [left, bottom] [top] [top] := by
    refine .one (by decide) ht ?_
    rw [htbases]
    exact .again (by decide) .nil
  have hleft : r.Preorder [bottom] [left] [left, top] := .one (by decide) hl (hlbases ▸ htop)
  have hright : r.Preorder [left, top, bottom] [right] [right] := by
    refine .one (by decide) hc ?_
    rw [hcbases]
    exact .again (by decide) .nil
  have hall : r.Preorder [] [bottom] [bottom, left, top, right] := by
    refine .one (by decide) hb ?_
    rw [hbases]
    exact hleft.append hright
  obtain rfl := hunique _ hall
  refine ⟨r, hpool, halias, ?_, hmembers, fun other => ⟨hunique other, ?_⟩, found, hfound, ?_⟩
  · rw [hasBase_iff ht, htbases]
    exact List.mem_singleton_self bottom
  · rintro rfl
    exact hall
  · rw [hnames [] found hfound, hmembers]
    rfl

end TypeShape.Registry
