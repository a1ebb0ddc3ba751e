import Mathlib.Data.Finset.Card
import Mathlib.Data.Finset.SDiff
import Mathlib.Logic.Relation
import TypeShape.Registry.Hierarchy

/-!
# Inheritance as reachability

The walk behind `Registry.isSubclass` visits names in breadth-first order and stops after a number
of steps.  It stops too late to miss anything: every step takes a name off the queue, and the names
that ever get there are the start and the bases written in the registry.  So the walk finds a name
exactly if a path of bases leads to it, in every base graph, with cycles or without.

## Key results

- `Registry.searches_reaches`: the steps that the walk is given are enough for the search to end
- `Registry.isSubclass_iff`: nominal inheritance is equality, `Object`, or a path of bases
- `Registry.isSubclass_iff_path`: the search behind nominal inheritance ends in every base graph
- `Registry.isSubclass_trans`: nominal inheritance is transitive if `Object` has no bases
-/

namespace TypeShape.Registry

/-- One class is a declared base of another. -/
def HasBase (r : Registry) (name base : Text) : Prop := base ∈ r.supers name

/-- The bases of a class are those that it names. -/
theorem hasBase_iff {r : Registry} {name base : Text} {c : Class} (hc : r.class? name = some c) :
    r.HasBase name base ↔ base ∈ c.baseNames := by
  rw [HasBase, supers, hc]

/-- What has a base is a class. -/
theorem HasBase.isSome_class? {r : Registry} {name base : Text} (h : r.HasBase name base) :
    (r.class? name).isSome = true := by
  by_contra hnone
  rw [HasBase, supers, Option.not_isSome_iff_eq_none.1 hnone] at h
  exact absurd h List.not_mem_nil

/-! ## What a step adds -/

/-- A step adds the names that it has found and that were not visited, each once. -/
theorem mem_unvisited {visited found : List Text} {name : Text} :
    name ∈ unvisited visited found ↔ name ∈ found ∧ name ∉ visited := by
  induction found generalizing visited with
  | nil => simp [unvisited]
  | cons n ns ih =>
    unfold unvisited
    by_cases hn : n ∈ visited
    · rw [if_pos (List.contains_iff_mem.2 hn), ih, List.mem_cons]
      grind
    · rw [if_neg (mt List.contains_iff_mem.1 hn), List.mem_cons, ih, List.mem_cons, List.mem_cons]
      grind

/-- The number of names not visited yet. -/
def left (names visited : List Text) : Nat :=
  (names.toFinset \ visited.toFinset).card

/-- Visiting one more name leaves one fewer. -/
theorem left_cons {names visited : List Text} {n : Text} (hn : n ∈ names) (hv : n ∉ visited) :
    left names (n :: visited) + 1 = left names visited := by
  unfold left
  rw [List.toFinset_cons, Finset.sdiff_insert]
  exact Finset.card_erase_add_one (by simp [hn, hv])

/-- The names that a step adds to the queue are no longer left. -/
theorem length_unvisited_add_left {names visited found : List Text} (h : ∀ n ∈ found, n ∈ names) :
    (unvisited visited found).length + left names (unvisited visited found ++ visited) =
      left names visited := by
  induction found generalizing visited with
  | nil => simp [unvisited]
  | cons n ns ih =>
    obtain ⟨hn, hns⟩ := List.forall_mem_cons.1 h
    unfold unvisited
    by_cases hv : n ∈ visited
    · rw [if_pos (List.contains_iff_mem.2 hv)]
      exact ih hns
    · rw [if_neg (mt List.contains_iff_mem.1 hv)]
      have hnext : (unvisited (n :: visited) ns).length +
          left names (unvisited (n :: visited) ns ++ n :: visited) = left names (n :: visited) :=
        ih hns
      -- The order of visited names does not count.
      have hswap : left names (n :: unvisited (n :: visited) ns ++ visited) =
          left names (unvisited (n :: visited) ns ++ n :: visited) := by
        unfold left
        congr 2
        ext m
        simp
      rw [hswap, List.length_cons, ← left_cons hn hv, ← hnext]
      omega

/-! ## The search -/

/-- The names of all bases written in a registry. -/
def allBases (r : Registry) : List Text :=
  r.classes.flatMap fun (_, c) => c.baseNames

/-- There are no more names of bases than bases written. -/
theorem length_allBases_le (r : Registry) : r.allBases.length ≤ r.baseCount := by
  unfold allBases baseCount
  induction r.classes with
  | nil => simp
  | cons entry rest ih =>
    obtain ⟨name, c⟩ := entry
    have hnames : c.baseNames.length ≤ c.bases.length := List.length_filterMap_le _ _
    rw [List.flatMap_cons, List.length_append, List.foldr_cons]
    exact Nat.add_le_add hnames ih

/-- A base of a class is written in the registry. -/
theorem mem_allBases {r : Registry} {name base : Text} (h : r.HasBase name base) :
    base ∈ r.allBases := by
  unfold HasBase supers class? Table.find? at h
  split at h
  · rename_i c hc
    obtain ⟨before, after, heq, -⟩ := List.lookup_eq_some_iff.1 hc
    refine List.mem_flatMap.2 ⟨(name, c), ?_, h⟩
    simp [heq]
  · exact absurd h List.not_mem_nil

variable {r : Registry} {goal : Text}

/-- How a search along bases goes.  It ends when a name of the queue has the goal as a base, or when
the queue is empty; else it goes on with the bases that were not visited.  There is no limit on its
steps. -/
inductive Searches (r : Registry) (goal : Text) : List Text → List Text → Bool → Prop where
  | nothing {visited : List Text} : Searches r goal visited [] false
  | found {visited queue : List Text} {name : Text} : r.HasBase name goal →
    Searches r goal visited (name :: queue) true
  | step {visited queue : List Text} {name : Text} {answer : Bool} : ¬ r.HasBase name goal →
    Searches r goal (unvisited visited (r.supers name) ++ visited)
      (queue ++ unvisited visited (r.supers name)) answer →
    Searches r goal visited (name :: queue) answer

/-- A search has only one answer. -/
theorem Searches.unique {visited queue : List Text} {answer other : Bool}
    (h : r.Searches goal visited queue answer) (h' : r.Searches goal visited queue other) :
    other = answer := by
  -- By induction on the first search; the two take the same steps.
  induction h with
  | nothing =>
    cases h'
    rfl
  | found hgoal =>
    cases h' with
    | found _ => rfl
    | step hnot _ => exact absurd hgoal hnot
  | step hnot _ ih =>
    cases h' with
    | found hgoal => exact absurd hgoal hnot
    | step _ h' => exact ih h'

/-- A search finds nothing that no path leads to. -/
theorem Searches.transGen {visited queue : List Text} (h : r.Searches goal visited queue true) :
    ∃ name ∈ queue, Relation.TransGen r.HasBase name goal := by
  generalize hanswer : true = answer at h
  induction h with
  | nothing => cases hanswer
  | @found _ _ name hgoal => exact ⟨name, List.mem_cons_self, .single hgoal⟩
  | @step _ _ name _ _ _ ih =>
    obtain ⟨found, hfound, hpath⟩ := ih hanswer
    obtain hfound | hfound := List.mem_append.1 hfound
    · exact ⟨found, List.mem_cons_of_mem _ hfound, hpath⟩
    · exact ⟨name, List.mem_cons_self, .head (mem_unvisited.1 hfound).1 hpath⟩

/-- The bases of a name have been looked at: the goal is not among them, and they are visited. -/
def Expanded (r : Registry) (goal : Text) (visited : List Text) (name : Text) : Prop :=
  ¬ r.HasBase name goal ∧ ∀ base, r.HasBase name base → base ∈ visited

/-- No path leads out of names that are all expanded. -/
theorem not_transGen_of_expanded {visited : List Text}
    (h : ∀ name ∈ visited, r.Expanded goal visited name) {name : Text} (hname : name ∈ visited) :
    ¬ Relation.TransGen r.HasBase name goal := by
  intro hpath
  induction hpath using Relation.TransGen.head_induction_on with
  | single hbase => exact (h _ hname).1 hbase
  | head hbase _ ih => exact ih ((h _ hname).2 _ hbase)

/-- A search that finds nothing has missed nothing. -/
theorem Searches.not_transGen {visited queue : List Text}
    (h : r.Searches goal visited queue false) (hqueue : ∀ n ∈ queue, n ∈ visited)
    (hdone : ∀ n ∈ visited, n ∉ queue → r.Expanded goal visited n) {name : Text}
    (hname : name ∈ visited) : ¬ Relation.TransGen r.HasBase name goal := by
  -- By induction on the search: what is expanded has all its bases among the visited names.
  generalize hanswer : false = answer at h
  induction h with
  | nothing => exact not_transGen_of_expanded (fun n hn => hdone n hn List.not_mem_nil) hname
  | found _ => cases hanswer
  | @step visited queue next _ hgoal _ ih =>
    refine ih ?_ ?_ (List.mem_append_right _ hname) hanswer
    · intro n hn
      obtain hn | hn := List.mem_append.1 hn
      · exact List.mem_append_right _ (hqueue n (List.mem_cons_of_mem _ hn))
      · exact List.mem_append_left _ hn
    · -- Either the name was expanded before, or it is the one taken off the queue.
      intro n hn hnq
      rw [List.mem_append, not_or] at hnq
      have hold : n ∈ visited := (List.mem_append.1 hn).resolve_left hnq.2
      by_cases hnext : n = next
      · subst hnext
        refine ⟨hgoal, fun base hb => ?_⟩
        by_cases hv : base ∈ visited
        · exact List.mem_append_right _ hv
        · exact List.mem_append_left _ (mem_unvisited.2 ⟨hb, hv⟩)
      · obtain ⟨hgoal', hbases⟩ := hdone n hold (by simp [hnext, hnq.1])
        exact ⟨hgoal', fun base hb => List.mem_append_right _ (hbases base hb)⟩

/-- No more names are left than bases are written. -/
theorem left_allBases_le (r : Registry) (visited : List Text) :
    left r.allBases visited ≤ r.baseCount :=
  calc left r.allBases visited ≤ r.allBases.toFinset.card :=
        Finset.card_le_card Finset.sdiff_subset
    _ ≤ r.allBases.length := List.toFinset_card_le _
    _ ≤ r.baseCount := r.length_allBases_le

/-- A walk that has fuel for the names in the queue and for those left is a search that ends. -/
theorem searches_reaches {fuel : Nat} {visited queue : List Text}
    (hfuel : queue.length + left r.allBases visited ≤ fuel) :
    r.Searches goal visited queue (r.reaches goal fuel visited queue) := by
  -- By induction on the fuel.
  induction fuel generalizing visited queue with
  | zero =>
    obtain rfl : queue = [] := List.length_eq_zero_iff.1 (by omega)
    exact .nothing
  | succ fuel ih =>
    cases queue with
    | nil => exact .nothing
    | cons name queue =>
      simp only [reaches]
      split
      · rename_i hgoal
        exact .found (List.contains_iff_mem.1 hgoal)
      · rename_i hgoal
        -- Every step takes one name off the queue, and what it puts there is no longer left.
        have hcount : (unvisited visited (r.supers name)).length +
            left r.allBases (unvisited visited (r.supers name) ++ visited) =
            left r.allBases visited := length_unvisited_add_left fun _ hn => mem_allBases hn
        refine .step (fun hbase => hgoal (List.contains_iff_mem.2 hbase)) (ih ?_)
        rw [List.length_cons] at hfuel
        rw [List.length_append]
        omega

/-- The search behind nominal inheritance ends. -/
theorem searches_supers (r : Registry) (sub super : Text) :
    r.Searches super [sub] [sub] (r.reaches super (r.baseCount + 2) [sub] [sub]) := by
  refine searches_reaches ?_
  have hleft := r.left_allBases_le [sub]
  rw [List.length_singleton]
  omega

/-! ## Nominal inheritance -/

/-- Nominal inheritance is equality, `Object`, or a path of bases. -/
theorem isSubclass_iff {sub super : Text} :
    r.isSubclass sub super = true ↔
      sub = super ∨ super = Name.object ∨ Relation.TransGen r.HasBase sub super := by
  have hsearch := r.searches_supers sub super
  have hwalk : r.reaches super (r.baseCount + 2) [sub] [sub] = true ↔
      Relation.TransGen r.HasBase sub super := by
    constructor
    · intro h
      rw [h] at hsearch
      obtain ⟨name, hname, hpath⟩ := hsearch.transGen
      rwa [List.mem_singleton.1 hname] at hpath
    · intro hpath
      by_contra h
      rw [Bool.eq_false_iff.2 h] at hsearch
      -- At the start every visited name is in the queue, so none has to be expanded.
      exact hsearch.not_transGen (fun _ hn => hn) (fun n hn hnq => absurd hn hnq)
        (List.mem_singleton_self sub) hpath
  simp [isSubclass, hwalk, or_assoc]

/-- Every name inherits from itself. -/
theorem isSubclass_refl (r : Registry) (name : Text) : r.isSubclass name name = true :=
  isSubclass_iff.2 (.inl rfl)

/-- The search behind nominal inheritance ends in every base graph, with one answer, which tells
whether a path of bases leads to the name. -/
theorem isSubclass_iff_path (r : Registry) (sub super : Text) :
    (∃ answer, r.Searches super [sub] [sub] answer ∧
      (∀ other, r.Searches super [sub] [sub] other → other = answer) ∧
      r.isSubclass sub super = (sub = super || super = Name.object || answer)) ∧
    (r.isSubclass sub super = true ↔
      sub = super ∨ super = Name.object ∨ Relation.TransGen r.HasBase sub super) := by
  have hsearch := r.searches_supers sub super
  exact ⟨⟨_, hsearch, fun _ => hsearch.unique, rfl⟩, isSubclass_iff⟩

end TypeShape.Registry
