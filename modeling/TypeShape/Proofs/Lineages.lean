import Mathlib.Algebra.Order.BigOperators.Group.List
import Mathlib.Algebra.Order.Group.Nat
import Mathlib.Data.List.Perm.Subperm
import TypeShape.Proofs.GenericBindings

/-!
# Two walks along the same bases

The members of a class are looked up on a walk over names, which keeps a stack; generic bindings are
worked out on a walk over shapes, which recurses.  As long as no class is named like an alias, both
meet the same classes in the same order, so structural conformance and the members of a class agree
on which class declares a member.

## Key results

- `Registry.lineage_of_visits`: the classes of a walk along bases are the lineage of its first class
- `Registry.membersSeen_of_visits`: conformance sees the members of a class, each with the bindings
  of the class that declares it
-/

namespace TypeShape.Registry

open Shape

variable {r : Registry} {see : View}

/-- Whether no class is named like an alias. -/
def Unaliased (r : Registry) : Prop :=
  ∀ name, (r.class? name).isSome = true → r.alias? name = none

/-! ## The walk over names -/

/-- The number of bases that the classes of some visits declare. -/
def basesOf (log : List Visit) : Nat :=
  log.foldr (fun v n => v.cls.bases.length + n) 0

/-- The bases of two lists of visits are counted separately. -/
@[simp] theorem basesOf_append (log log' : List Visit) :
    basesOf (log ++ log') = basesOf log + basesOf log' := by
  induction log with
  | nil => simp [basesOf]
  | cons v log ih =>
    simp only [basesOf, List.cons_append, List.foldr_cons] at ih ⊢
    omega

/-- Going on with some names, the walk over names meets the classes of some visits first. -/
def Meets (r : Registry) (log new : List Visit) (names : List Text) : Prop :=
  ∀ fuel rest, r.lineageFrom (names.length + basesOf new + fuel) (entered log) (names ++ rest) =
    new.map (·.cls) ++ r.lineageFrom fuel (entered (log ++ new)) rest

/-- No classes are met on the way to nothing. -/
theorem Meets.nil (log : List Visit) : r.Meets log [] [] := by
  intro fuel rest
  simp [basesOf]

/-- A class that was met before is passed over. -/
theorem Meets.again {log : List Visit} {name : Text} (h : name ∈ log.map (·.cls.name)) :
    r.Meets log [] [name] := by
  intro fuel rest
  have hmem : (entered log).contains name = true := by simpa using h
  have hfuel : [name].length + basesOf [] + fuel = fuel + 1 := by simp [basesOf, Nat.add_comm]
  rw [hfuel, List.singleton_append, lineageFrom, if_pos hmem, List.append_nil]
  rfl

/-- A new class is met before what its bases lead to. -/
theorem Meets.visit {log new : List Visit} {v : Visit} (hcls : r.class? v.cls.name = some v.cls)
    (hnew : v.cls.name ∉ log.map (·.cls.name)) (hlen : v.cls.baseNames.length = v.cls.bases.length)
    (h : r.Meets (log ++ [v]) new v.cls.baseNames) : r.Meets log (v :: new) [v.cls.name] := by
  intro fuel rest
  have hmem : ¬ (entered log).contains v.cls.name = true := by simpa using hnew
  -- One step of fuel is spent on the name of the class; the rest is left for its bases.
  have hfuel : [v.cls.name].length + basesOf (v :: new) + fuel =
      v.cls.baseNames.length + basesOf new + fuel + 1 := by
    simp only [basesOf, List.foldr_cons, List.length_singleton, hlen]
    omega
  have hrest := h fuel rest
  rw [entered_concat, List.append_assoc, List.singleton_append] at hrest
  rw [hfuel, List.singleton_append, lineageFrom, if_neg hmem, hcls]
  simp only [hrest, List.map_cons, List.cons_append]

/-- What is met on the way to some names and then to others is met one after the other. -/
theorem Meets.append {log new new' : List Visit} {names names' : List Text}
    (h : r.Meets log new names) (h' : r.Meets (log ++ new) new' names') :
    r.Meets log (new ++ new') (names ++ names') := by
  intro fuel rest
  have hfuel : (names ++ names').length + basesOf (new ++ new') + fuel =
      names.length + basesOf new + (names'.length + basesOf new' + fuel) := by
    rw [basesOf_append, List.length_append]
    omega
  rw [hfuel, List.append_assoc, h, h', List.map_append, List.append_assoc, List.append_assoc]

/-! ## The walk over shapes does the same -/

section

variable (hr : r.WellDeclared) (halias : r.Unaliased) (hsee : ∀ t, see.Shows t)

include hr in
/-- In a registry whose classes are well declared every base has a name. -/
theorem length_baseNames {c : Class} (hc : r.class? c.name = some c) :
    c.baseNames.length = c.bases.length := by
  obtain ⟨-, -, -, hbases⟩ := hr _ c hc
  rw [Class.baseNames, List.length_filterMap_eq_countP, List.countP_eq_length]
  intro base hbase
  obtain ⟨name, hname, -⟩ := hbases base hbase
  simp [hname]

include hr halias hsee

/-- A base is seen as an application of the class that it names. -/
theorem shapeSeen_base {c : Class} (hc : r.class? c.name = some c) {base : TypeExpr}
    (hbase : base ∈ c.bases) (bindings : Subst) :
    ∃ name d args, base.className? = some name ∧ r.class? name = some d ∧
      r.shapeSeen see (base.apply bindings) = .ofClass name args := by
  obtain ⟨-, -, -, hbases⟩ := hr _ c hc
  obtain ⟨name, hname, -, hknown⟩ := hbases base hbase
  obtain ⟨d, hd⟩ := Option.isSome_iff_exists.1 hknown
  obtain ⟨-, -, hclass, -⟩ :=
    expandAliases_class (TypeExpr.apply_class bindings hname).1 (halias name hknown)
  have hshape := TypeExpr.shape_of_className? hclass (hr name d hd).unreserved
  exact ⟨name, d, _, hname, hd, (hsee _).trans hshape⟩

/-- What both walks do with one class and all that it leads to. -/
def SameWalk (r : Registry) (log : List Visit) (names : List Text)
    (outcome : Except Error (List Text × List Visit)) : Prop :=
  ∀ visited log', outcome = .ok (visited, log') →
    ∃ new, log' = log ++ new ∧ visited = entered log' ∧ r.Meets log new names

omit hr halias hsee in
/-- A walk that enters nothing new meets nothing. -/
theorem SameWalk.of_eq {log : List Visit} {names : List Text}
    {outcome : Except Error (List Text × List Visit)} (h : r.Meets log [] names)
    (hout : outcome = .ok (entered log, log)) : r.SameWalk log names outcome := by
  rintro visited log' rfl
  cases hout
  exact ⟨[], (List.append_nil _).symm, rfl, h⟩

/-- If both walks agree on each base, they agree on the bases in a row. -/
theorem sameWalk_walkBases
    (walk : Shape → List Text × List Visit → Seeing (Except Error (List Text × List Visit)))
    (hwalk : ∀ name d args log, r.class? name = some d →
      r.SameWalk log [name] ((walk (.ofClass name args) (entered log, log)).run see))
    {c : Class} (hc : r.class? c.name = some c) (bindings : Subst) {bases : List TypeExpr}
    (hbases : ∀ base ∈ bases, base ∈ c.bases) (log : List Visit) :
    r.SameWalk log (bases.filterMap TypeExpr.className?)
      ((r.walkBases walk bindings bases (entered log, log)).run see) := by
  -- By induction on the bases, for the visits before them.
  induction bases generalizing log with
  | nil => exact .of_eq (.nil log) rfl
  | cons base bases ih =>
    obtain ⟨hbase, hbases⟩ := List.forall_mem_cons.1 hbases
    obtain ⟨name, d, args, hname, hd, hshape⟩ :=
      shapeSeen_base hr halias hsee hc hbase bindings
    rw [run_walkBases_cons, hshape, List.filterMap_cons, hname]
    intro visited log' hrun
    have hfirst := hwalk name d args log hd
    rcases hout : (walk (.ofClass name args) (entered log, log)).run see with e | ⟨visited₁, log₁⟩
    · rw [hout] at hrun
      cases hrun
    · rw [hout] at hrun
      obtain ⟨new₁, rfl, rfl, hmeets₁⟩ := hfirst _ _ hout
      obtain ⟨new₂, rfl, rfl, hmeets₂⟩ := ih hbases (log ++ new₁) _ _ hrun
      exact ⟨new₁ ++ new₂, List.append_assoc _ _ _, rfl, hmeets₁.append hmeets₂⟩

/-- Both walks agree on a class and all that it leads to. -/
theorem sameWalk_walkClasses (room : Nat) (name : Text) (d : Class) (args : List Shape)
    (log : List Visit) (hd : r.class? name = some d) :
    r.SameWalk log [name]
      ((r.walkClasses noteVisit room (.ofClass name args) (entered log, log) : Seeing _).run
        see) := by
  -- By induction on the levels left to the walk over shapes; the walk over names has its fuel in
  -- `Meets`.
  induction room generalizing name d args log with
  | zero =>
    intro visited log' hrun
    cases hrun
  | succ room ih =>
    obtain rfl : d.name = name := (hr name d hd).name_eq
    have hole : (ofClass d.name args).isHole = false := by
      rw [isHole, origin_ofClass]
    have hclass : r.classOf? (ofClass d.name args) = some d := by
      rw [classOf?, origin_ofClass]
      exact hd
    simp only [run_walkClasses_succ, hole, hclass, Bool.false_eq_true, if_false]
    split
    · rename_i hmem
      exact .of_eq (.again (by simpa using hmem)) rfl
    · rename_i hnew
      split
      · intro visited log' hrun
        cases hrun
      · rename_i bindings _
        intro visited log' hrun
        have hrest := sameWalk_walkBases hr halias hsee (r.walkClasses noteVisit room)
          (fun name d args log hd => ih name d args log hd) hd bindings (fun _ h => h)
          (log ++ [⟨d, bindings⟩])
        rw [entered_concat] at hrest
        obtain ⟨new, rfl, rfl, hmeets⟩ := hrest visited log' hrun
        refine ⟨⟨d, bindings⟩ :: new, by simp, rfl, ?_⟩
        exact .visit hd (by simpa using hnew) (length_baseNames hr hd) hmeets

end

/-! ## Lineages -/

/-- No class is visited twice. -/
theorem Trail.nodup {s : Shape} {log : List Visit} (h : r.Trail see s log) :
    (log.map (·.cls.name)).Nodup := by
  induction h with
  | nil => exact List.nodup_nil
  | first _ => exact List.nodup_singleton _
  | base _ _ _ _ hnew ih =>
    rw [List.map_append, List.nodup_append]
    refine ⟨ih, List.nodup_singleton _, ?_⟩
    rintro a ha b hb rfl
    rw [List.map_singleton, List.mem_singleton] at hb
    exact hnew (hb ▸ ha)

/-- The bases that different classes declare are written in the registry. -/
theorem basesOf_le {log : List Visit} (hnodup : (log.map (·.cls.name)).Nodup)
    (hcls : ∀ v ∈ log, r.class? v.cls.name = some v.cls) : basesOf log ≤ r.baseCount := by
  -- The visits are entries of the registry, all of them different, so they are no more than there
  -- are.
  let entry (v : Visit) : Text × Class := (v.cls.name, v.cls)
  have hsub : log.map entry ⊆ r.classes := by
    intro e he
    obtain ⟨v, hv, rfl⟩ := List.mem_map.1 he
    exact Table.mem_of_find? (hcls v hv)
  have hentries : (log.map entry).Nodup := by
    refine List.Nodup.of_map Prod.fst ?_
    rwa [List.map_map]
  obtain ⟨part, hperm, hpart⟩ := hentries.subperm hsub
  have hcount : r.baseCount = (r.classes.map (·.2.bases.length)).sum := by
    unfold baseCount
    induction r.classes with
    | nil => rfl
    | cons e es ih => simp [ih]
  have hlog : ∀ vs : List Visit,
      basesOf vs = ((vs.map entry).map (·.2.bases.length)).sum := by
    intro vs
    induction vs with
    | nil => rfl
    | cons v vs ih =>
      rw [List.map_cons, List.map_cons, List.sum_cons, ← ih]
      rfl
  calc basesOf log = ((log.map entry).map (·.2.bases.length)).sum := hlog log
    _ = (part.map (·.2.bases.length)).sum := (hperm.map _).sum_nat.symm
    _ ≤ (r.classes.map (·.2.bases.length)).sum := (hpart.map _).sum_le_sum fun _ _ => Nat.zero_le _
    _ = r.baseCount := hcount.symm

/-- The classes of a walk along bases are the lineage of its first class. -/
theorem lineage_of_visits (hr : r.WellDeclared) (halias : r.Unaliased) (hsee : ∀ t, see.Shows t)
    {c : Class} (hc : r.class? c.name = some c) (args : List Shape) {log : List Visit}
    (h : r.visits see (.ofClass c.name args) = .ok log) :
    r.lineage c.name = log.map (·.cls) := by
  have htrail := trail_of_visits h
  obtain ⟨visited, hrun⟩ := run_of_visits h
  obtain ⟨new, heq, -, hmeets⟩ :=
    sameWalk_walkClasses hr halias hsee (maxRecursion + 1) c.name c args [] hc _ _ hrun
  obtain rfl : new = log := heq.symm
  -- The fuel of the walk over names is enough for one step a name and a base.
  have hbound := basesOf_le htrail.nodup (htrail.class? hr)
  have hwalk := hmeets (r.baseCount + 2 - (1 + basesOf new)) []
  have hfuel : [c.name].length + basesOf new + (r.baseCount + 2 - (1 + basesOf new)) =
      r.baseCount + 2 := by
    rw [List.length_singleton]
    omega
  have hend : ∀ fuel visited, r.lineageFrom fuel visited [] = [] := by
    intro fuel visited
    cases fuel <;> rfl
  rw [hfuel, hend, List.append_nil, List.append_nil] at hwalk
  exact hwalk

/-! ## Members -/

/-- Which names were seen counts, not their order. -/
theorem firstMembers_congr {seen seen' : List Text} (h : ∀ n, n ∈ seen ↔ n ∈ seen')
    (ms : List Member) : firstMembers seen ms = firstMembers seen' ms := by
  induction ms generalizing seen seen' with
  | nil => rfl
  | cons m ms ih =>
    have hcontains : seen.contains m.name = seen'.contains m.name := by
      rw [Bool.eq_iff_iff, List.contains_iff_mem, List.contains_iff_mem, h]
    have hcons : ∀ n, n ∈ m.name :: seen ↔ n ∈ m.name :: seen' := by simp [h]
    rw [firstMembers, firstMembers, hcontains, ih h, ih hcons]

/-- The first members of two lists: those of the one, and then those of the other that are still
new. -/
theorem firstMembers_append (seen : List Text) (ms ns : List Member) :
    firstMembers seen (ms ++ ns) = firstMembers seen ms ++
      firstMembers ((firstMembers seen ms).map (·.name) ++ seen) ns := by
  -- By induction on the first list, for the names seen before it.
  induction ms generalizing seen with
  | nil => rfl
  | cons m ms ih =>
    rw [List.cons_append, firstMembers, firstMembers]
    split
    · exact ih seen
    · rw [ih, List.cons_append]
      congr 2
      refine firstMembers_congr (fun n => ?_) ns
      simp only [List.mem_append, List.mem_cons, List.map_cons]
      tauto

/-- The members that the classes of some visits declare, each with its visit.  The first member of a
name counts; names in `seen` are left out. -/
def firstDeclared : List Text → List Visit → List (Visit × Member)
  | _, [] => []
  | seen, v :: log =>
    let own := firstMembers seen v.cls.members
    own.map (v, ·) ++ firstDeclared (own.map (·.name) ++ seen) log

/-- It only counts which names have been seen. -/
theorem firstDeclared_congr {seen seen' : List Text} (h : ∀ n, n ∈ seen ↔ n ∈ seen')
    (log : List Visit) : firstDeclared seen log = firstDeclared seen' log := by
  induction log generalizing seen seen' with
  | nil => rfl
  | cons v log ih =>
    have hrest : ∀ n, n ∈ (firstMembers seen' v.cls.members).map (·.name) ++ seen ↔
        n ∈ (firstMembers seen' v.cls.members).map (·.name) ++ seen' := by simp [h]
    rw [firstDeclared, firstDeclared, firstMembers_congr h, ih hrest]

/-- Without their visits, these are the first members of all the classes. -/
theorem map_firstDeclared (seen : List Text) (log : List Visit) :
    (firstDeclared seen log).map (·.2) = firstMembers seen (log.flatMap (·.cls.members)) := by
  induction log generalizing seen with
  | nil => rfl
  | cons v log ih =>
    rw [firstDeclared, List.map_append, List.map_map, ih, List.flatMap_cons, firstMembers_append]
    simp

/-- A member as conformance sees it, with the bindings of the class that declares it. -/
def memberSeen (r : Registry) (see : View) (bindings : Subst) (m : Member) : MemberShape where
  name := m.name
  shape := (substituteShapeM bindings (r.shapeSeen see m.type) : Seeing _).run see

/-- A member as conformance sees it, with some bindings more put into it. -/
def memberWith (r : Registry) (see : View) (extra bindings : Subst) (m : Member) : MemberShape where
  name := m.name
  shape := (substituteShapeM extra (r.memberSeen see bindings m).shape : Seeing _).run see

/-- Adding the members of a class adds those that are new by name. -/
theorem run_addMembers (extra bindings : Subst) (ms : List Member) (acc : List MemberShape) :
    (r.addMembers extra bindings ms acc : Seeing _).run see =
      acc ++ (firstMembers (acc.map (·.name)) ms).map (r.memberWith see extra bindings) := by
  induction ms generalizing acc with
  | nil => exact (List.append_nil acc).symm
  | cons m ms ih =>
    -- A member is looked for among those collected, which is a question about names.
    have hseen : (acc.any fun found => found.name == m.name) =
        (acc.map (·.name)).contains m.name := by
      rw [Bool.eq_iff_iff]
      simp only [List.any_eq_true, beq_iff_eq, List.contains_iff_mem, List.mem_map]
    rw [addMembers, firstMembers, hseen]
    split
    · exact ih acc
    · have hrun := ih (acc ++ [r.memberWith see extra bindings m])
      refine hrun.trans ?_
      rw [List.append_assoc, List.map_append, List.singleton_append, List.map_cons]
      congr 3
      refine firstMembers_congr (fun n => ?_) ms
      simp [memberWith, or_comm]

/-- Over a whole walk the members are those that the classes declare first. -/
theorem foldl_addMembers (extra : Subst) (acc : List MemberShape) (log : List Visit) :
    log.foldl (fun acc v =>
        (r.addMembers extra v.bindings v.cls.members acc : Seeing _).run see) acc =
      acc ++ (firstDeclared (acc.map (·.name)) log).map fun (v, m) =>
        r.memberWith see extra v.bindings m := by
  induction log generalizing acc with
  | nil => exact (List.append_nil acc).symm
  | cons v log ih =>
    -- The names of what conformance has seen are those of the members.
    have hnames : ∀ own : List Member,
        firstDeclared ((acc ++ own.map (r.memberWith see extra v.bindings)).map (·.name)) log =
          firstDeclared (own.map (·.name) ++ acc.map (·.name)) log := by
      intro own
      refine firstDeclared_congr (fun n => ?_) log
      simp [memberWith, or_comm]
    rw [List.foldl_cons, run_addMembers, ih, hnames, firstDeclared, List.append_assoc,
      List.map_append, List.map_map]
    rfl

/-- The members of a shape are those that the visited classes declare, whatever is put into them
besides the bindings of the class that declares them. -/
theorem memberShapes_of_visits {s : Shape} {log : List Visit} (h : r.visits see s = .ok log)
    (extra : Subst) :
    (r.memberShapes s extra : Seeing _).run see =
      .ok ((firstDeclared [] log).map fun (v, m) => r.memberWith see extra v.bindings m) := by
  rw [memberShapes, walkAll_eq_foldl, h]
  exact congrArg Except.ok (foldl_addMembers extra [] log)

/-- Conformance sees the members that the visited classes declare, each with the bindings of the
class that declares it. -/
theorem membersSeen_of_visits {s : Shape} {log : List Visit} (h : r.visits see s = .ok log) :
    r.membersSeen see s =
      .ok ((firstDeclared [] log).map fun (v, m) => r.memberSeen see v.bindings m) :=
  memberShapes_of_visits h []

/-- The members of a class are those that the classes of a walk along its bases declare. -/
theorem members_of_visits (hr : r.WellDeclared) (halias : r.Unaliased) (hsee : ∀ t, see.Shows t)
    {c : Class} (hc : r.class? c.name = some c) (args : List Shape) {log : List Visit}
    (h : r.visits see (.ofClass c.name args) = .ok log) :
    r.members c.name = (firstDeclared [] log).map (·.2) := by
  rw [members, lineage_of_visits hr halias hsee hc args h, map_firstDeclared, List.flatMap_map]

end TypeShape.Registry
