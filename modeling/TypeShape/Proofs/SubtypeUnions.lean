import TypeShape.Proofs.SubtypeCorrect
import TypeShape.Proofs.SubtypeTransitive

/-!
# Unions as least upper bounds

What is below a branch is below the union, and a union is below what all its branches are below.
The check decides variables before it opens the union on the right, and by what they are known to be
alone.  So a variable is below a union only as a whole, and the first law is one for shapes that
have no variable among their branches.

## Key results

- `Registry.below_union`: what is below a branch is below the union
- `Registry.holds_of_occurs`: a shape is below a union in which it occurs
- `Engine.isSubtype_union`: the laws of unions for the engine
-/

namespace TypeShape

namespace Shape

mutual

/-- Whether a type variable is among the branches of a shape, nested unions opened. -/
def hasVarBranch : Shape → Bool
  | bare (.var _) => true
  | bare _ => false
  | applied (.var _) _ => true
  | applied (.plain .union _) slots => slotsHaveVarBranch slots
  | applied _ _ => false

/-- Whether a type variable is among the branches of the shapes in a list of slots. -/
def slotsHaveVarBranch : List Slot → Bool
  | [] => false
  | .single s :: rest => s.hasVarBranch || slotsHaveVarBranch rest
  | .group ss :: rest => anyHasVarBranch ss || slotsHaveVarBranch rest

/-- Whether a type variable is among the branches of the shapes in a list. -/
def anyHasVarBranch : List Shape → Bool
  | [] => false
  | s :: rest => s.hasVarBranch || anyHasVarBranch rest

end

/-- None of a list has a variable among its branches if no element has. -/
theorem anyHasVarBranch_eq_false_iff {ss : List Shape} :
    anyHasVarBranch ss = false ↔ ∀ s ∈ ss, s.hasVarBranch = false := by
  induction ss with
  | nil => simp [anyHasVarBranch]
  | cons s ss ih => simp [anyHasVarBranch, ih]

/-- So it is for slots and the shapes in them. -/
theorem slotsHaveVarBranch_eq_false_iff {slots : List Slot} :
    slotsHaveVarBranch slots = false ↔ ∀ s ∈ slotShapes slots, s.hasVarBranch = false := by
  induction slots with
  | nil => simp [slotsHaveVarBranch]
  | cons slot rest ih =>
    cases slot with
    | single s => simp [slotsHaveVarBranch, ih]
    | group ss =>
      simp only [slotsHaveVarBranch, slotShapes, Bool.or_eq_false_iff, ih,
        anyHasVarBranch_eq_false_iff, List.forall_mem_append]

/-- What has no variable among its branches is none. -/
theorem var?_of_hasVarBranch {s : Shape} (h : s.hasVarBranch = false) : s.var? = none := by
  cases s with
  | bare o => cases o <;> simp_all [hasVarBranch, var?, origin]
  | applied o slots => cases o <;> simp_all [hasVarBranch, var?, origin]

/-- A whole shape without variables among its branches is solid, if it is no union. -/
theorem isSolid_of_hasVarBranch {s : Shape} (hs : s.isWhole = true) (hu : s.isUnion = false)
    (h : s.hasVarBranch = false) : s.isSolid = true :=
  isSolid_iff.2 ⟨isHole_of_isWhole hs, hu, var?_of_hasVarBranch h⟩

/-- The branches of a union without variables among its branches have none among theirs. -/
theorem hasVarBranch_of_mem_branches {s b : Shape} (h : s.hasVarBranch = false)
    (hu : s.isUnion = true) (hb : b ∈ s.branches) : b.hasVarBranch = false := by
  rw [branches_eq hu] at hb
  -- Only a union has branches; a variable would have been one among its own.
  cases s with
  | bare o => exact absurd hb List.not_mem_nil
  | applied o slots =>
    cases o with
    | plain kind name =>
      obtain rfl : kind = .union := by simpa [isUnion, hasKind] using hu
      have hslots : slotsHaveVarBranch slots = false := by simpa [hasVarBranch] using h
      exact slotsHaveVarBranch_eq_false_iff.1 hslots b hb
    | var v => simp [hasVarBranch] at h
    | hole => simp [isUnion, hasKind] at hu

/-- A union like another has a branch like each of its branches. -/
theorem exists_same_of_mem_branches {s t b : Shape} (h : s.same t = true) (hu : s.isUnion = true)
    (hb : b ∈ s.branches) : t.isUnion = true ∧ ∃ y ∈ t.branches, b.same y = true := by
  have htu : t.isUnion = true := (hasKind_of_same h .union).symm.trans hu
  rw [branches_eq hu] at hb
  rw [branches_eq htu]
  exact ⟨htu, Registry.exists_same_branch h hb⟩

/-- A shape occurs in another if it is like it or like a branch of it, nested unions opened. -/
inductive Occurs (s : Shape) : Shape → Prop where
  | same {t : Shape} : s.same t = true → Occurs s t
  | branch {t b : Shape} : t.isUnion = true → b ∈ t.branches → Occurs s b → Occurs s t

/-- The branches of a shape occur where it does. -/
theorem Occurs.of_mem_branches {s t b : Shape} (h : s.Occurs t) (hu : s.isUnion = true)
    (hb : b ∈ s.branches) : b.Occurs t := by
  induction h with
  | same hsame =>
    obtain ⟨htu, y, hy, hby⟩ := exists_same_of_mem_branches hsame hu hb
    exact .branch htu hy (.same hby)
  | branch htu hy _ ih => exact .branch htu hy ih

end Shape

namespace Registry

open Shape

variable {r : Registry} {see : View} {a b c u : Shape}

section Whole

variable (hsee : see.IsWhole)

include hsee

/-- If some number of levels suffices for each of a list of instances, one suffices for all. -/
theorem exists_holds_of_below {ss : List Shape} (hss : ∀ s ∈ ss, s.isWhole = true)
    (hb : b.isWhole = true) (h : ∀ s ∈ ss, r.Below see s b) :
    ∃ n, ∀ s ∈ ss, r.Holds see n [] s b := by
  -- By induction on the list; more levels relate more, so the greater number serves for both.
  induction ss with
  | nil => exact ⟨0, by simp⟩
  | cons s ss ih =>
    obtain ⟨hs, hss⟩ := List.forall_mem_cons.1 hss
    obtain ⟨⟨m, hm⟩, htail⟩ := List.forall_mem_cons.1 h
    obtain ⟨n, hn⟩ := ih hss htail
    refine ⟨max m n, List.forall_mem_cons.2 ⟨?_, fun t ht => ?_⟩⟩
    · exact hm.mono hsee (Nat.le_max_left m n) hs hb
    · exact (hn t ht).mono hsee (Nat.le_max_right m n) (hss t ht) hb

/-- A union is below what all its branches are below. -/
theorem below_of_all_branches (hu : u.isUnion = true) (hwu : u.isWhole = true)
    (hb : b.isWhole = true) (h : ∀ x ∈ u.branches, r.Below see x b) : r.Below see u b := by
  have hwhole : ∀ x ∈ u.branches, x.isWhole = true := fun x hx => isWhole_of_mem_branches hwu hx
  obtain ⟨n, hn⟩ := exists_holds_of_below hsee hwhole hb h
  exact ⟨n + 1, holds_of_rule_of_isWhole hsee hwu hb (.everyBranch hu (isHole_of_isWhole hb) hn)⟩

/-- What is below a branch is below the union, unless a variable is among its branches. -/
theorem below_union (ha : a.isWhole = true) (hvar : a.hasVarBranch = false) (hu : u.isUnion = true)
    (hwu : u.isWhole = true) (hb : b ∈ u.branches) (h : r.Below see a b) : r.Below see a u := by
  -- By induction on the depth of the instance, over all unions that its branch stands in.
  induction hn : a.depth using Nat.strong_induction_on generalizing a b u with
  | _ n ih =>
    subst hn
    have hwb := isWhole_of_mem_branches hwu hb
    by_cases hau : a.isUnion = true
    · -- Every branch of the instance is below the branch, so the law holds for it.
      refine below_of_all_branches hsee hau ha hwu fun x hx => ?_
      have hwx := isWhole_of_mem_branches ha hx
      have hxvar := hasVarBranch_of_mem_branches hvar hau hx
      have hlt := depth_lt_of_mem_branches hau hx
      have hxb : r.Below see x b := by
        obtain ⟨n, hn⟩ := h
        cases n with
        | zero => exact absurd hn not_holds_zero
        | succ n =>
          by_cases hbany : b.isAny = true
          · exact ⟨1, holds_of_rule_of_isWhole hsee hwx hwb (.any (isHole_of_isWhole hwx) hbany)⟩
          · by_cases hsame : a.same b = true
            · -- The branch is a union like the instance, and has a branch like this one.
              obtain ⟨hbu, y, hy, hxy⟩ := exists_same_of_mem_branches hsame hau hx
              have hwy := isWhole_of_mem_branches hwb hy
              have hbelow : r.Below see x y := ⟨1, holds_of_rule_of_isWhole hsee hwx hwy
                (.same (isHole_of_isWhole hwx) (isHole_of_isWhole hwy) hxy)⟩
              exact ih x.depth hlt hwx hxvar hbu hwb hy hbelow rfl
            · exact ⟨n, hn.rule.branches_of_isUnion hbany hsame hau x hx⟩
      exact ih x.depth hlt hwx hxvar hu hwu hb hxb rfl
    · -- Neither union nor variable: the check opens the union on the right.
      have hsolid := isSolid_of_hasVarBranch ha (by simpa using hau) hvar
      obtain ⟨n, hn⟩ := h
      exact ⟨n + 1, holds_of_rule_of_isWhole hsee ha hwu (.someBranch hsolid hu hb hn)⟩

/-- A shape without variables among its branches is below a shape in which it occurs. -/
theorem holds_of_occurs (ha : a.isWhole = true) (hc : c.isWhole = true)
    (hvar : a.hasVarBranch = false) (h : a.Occurs c) {n : Nat} (hn : a.depth + c.depth ≤ n) :
    r.Holds see n [] a c := by
  -- By induction on the levels.  What is the same is accepted at once; otherwise the check opens
  -- the union on the left, and then that on the right.
  induction n generalizing a c with
  | zero =>
    have hpos := depth_pos a
    omega
  | succ n ih =>
    refine holds_of_rule_of_isWhole hsee ha hc ?_
    cases h with
    | same hsame => exact .same (isHole_of_isWhole ha) (isHole_of_isWhole hc) hsame
    | @branch _ y hcu hy hocc =>
      by_cases hau : a.isUnion = true
      · refine .everyBranch hau (isHole_of_isWhole hc) fun x hx => ?_
        have hlt := depth_lt_of_mem_branches hau hx
        exact ih (isWhole_of_mem_branches ha hx) hc (hasVarBranch_of_mem_branches hvar hau hx)
          ((Occurs.branch hcu hy hocc).of_mem_branches hau hx) (by omega)
      · have hlt := depth_lt_of_mem_branches hcu hy
        exact .someBranch (isSolid_of_hasVarBranch ha (by simpa using hau) hvar) hcu hy
          (ih ha (isWhole_of_mem_branches hc hy) hvar hocc (by omega))

/-- The branches of a union are below what the union is below; for branches of equal unions, unless
a variable is among theirs. -/
theorem holds_branch {n : Nat} (hu : u.isUnion = true) (hwu : u.isWhole = true)
    (hc : c.isWhole = true) (hb : b ∈ u.branches)
    (hvar : u.same c = true → b.hasVarBranch = false ∧ b.depth + c.depth ≤ n)
    (h : r.Holds see n [] u c) : r.Holds see n [] b c := by
  have hwb := isWhole_of_mem_branches hwu hb
  -- Without a level nothing holds; else the rule that applied tells about the branches.
  cases n with
  | zero => exact absurd h not_holds_zero
  | succ n =>
    by_cases hany : c.isAny = true
    · exact holds_of_rule_of_isWhole hsee hwb hc (.any (isHole_of_isWhole hwb) hany)
    · by_cases hsame : u.same c = true
      · -- The union was accepted at once, so nothing is known of its branches.
        obtain ⟨hbvar, hdepth⟩ := hvar hsame
        have hocc : b.Occurs c := (Occurs.same hsame).of_mem_branches hu hb
        exact holds_of_occurs hsee hwb hc hbvar hocc hdepth
      · exact (h.rule.branches_of_isUnion hany hsame hu b hb).succ hsee hwb hc

end Whole

/-- A variable is below a union exactly if it is known to be one level down. -/
theorem holds_union_of_var {n : Nat} {v : TypeVar} (hsee : see.IsWhole) (ha : a.isWhole = true)
    (hwu : u.isWhole = true) (hv : a.var? = some v) (hu : u.isUnion = true) :
    r.Holds see (n + 1) [] a u ↔
      r.KnownBelow see (r.Holds see n []) (r.declarationOf v) u := by
  -- The union is neither a variable nor the wildcard, and not equal to the variable.
  have huv : u.var? = none := by
    cases huv : u.var? with
    | none => rfl
    | some w => simp [isUnion_of_var? huv] at hu
  have hany : ¬ u.isAny = true := fun h => by simp [isUnion_of_isAny h] at hu
  have hsame : ¬ a.same u = true := fun h => by
    have hkind : a.isUnion = u.isUnion := hasKind_of_same h .union
    simp [isUnion_of_var? hv, hu] at hkind
  constructor
  · exact fun h => h.rule.knownBelow_of_var? hany hsame hv huv
  · exact fun h => holds_of_rule_of_isWhole hsee ha hwu (.ofVar hv (isHole_of_isWhole hwu) huv h)

end Registry

namespace Engine

/-- Asks subtype questions one after the other. -/
def askAll (e : Engine) : List (Shape × Shape) → List Bool × Engine
  | [] => ([], e)
  | (inst, tmpl) :: rest =>
    let (answer, e) := e.isSubtype inst tmpl
    let (answers, e) := e.askAll rest
    (answer :: answers, e)

/-- Questions do not change the registry. -/
theorem askAll_registry (e : Engine) (questions : List (Shape × Shape)) :
    (e.askAll questions).2.registry = e.registry := by
  induction questions generalizing e with
  | nil => rfl
  | cons q rest ih => exact (ih _).trans (e.isSubtype_registry q.1 q.2)

/-- A question only adds to the memo. -/
theorem isSubtype_extends (e : Engine) (inst tmpl : Shape) :
    (e.isSubtype inst tmpl).2.memo.Extends e.memo := by
  rw [isSubtype_memo]
  exact e.subtypeRun_extends inst tmpl

/-- So do questions in a row. -/
theorem askAll_extends (e : Engine) (questions : List (Shape × Shape)) :
    (e.askAll questions).2.memo.Extends e.memo := by
  induction questions generalizing e with
  | nil => exact Memo.Extends.refl _
  | cons q rest ih => exact (ih (e.isSubtype q.1 q.2).2).trans (e.isSubtype_extends q.1 q.2)

/-- A question keeps the memo whole. -/
theorem isSubtype_isWhole (e : Engine) (h : e.memo.IsWhole) (inst tmpl : Shape) :
    (e.isSubtype inst tmpl).2.memo.IsWhole := by
  rw [isSubtype_memo]
  exact e.subtypeRun_isWhole h inst tmpl

/-- So do questions in a row. -/
theorem askAll_isWhole (e : Engine) (h : e.memo.IsWhole) (questions : List (Shape × Shape)) :
    (e.askAll questions).2.memo.IsWhole := by
  induction questions generalizing e with
  | nil => exact h
  | cons q rest ih => exact ih _ (e.isSubtype_isWhole h q.1 q.2)

/-- What is answered with yes holds in every view that agrees with the memo at the end. -/
theorem holds_of_askAll (e : Engine) {see : View} {questions : List (Shape × Shape)}
    (hsee : see.Agrees (e.askAll questions).2.memo)
    (h : ∀ answer ∈ (e.askAll questions).1, answer = true) :
    ∀ q ∈ questions, e.registry.Holds see (maxRecursion + 1) [] q.1 q.2 := by
  -- By induction on the questions; a later memo agrees with what an earlier one has answered.
  induction questions generalizing e with
  | nil => simp
  | cons q rest ih =>
    obtain ⟨hfirst, hrest⟩ := List.forall_mem_cons.1 h
    have hsee' := hsee.of_extends ((e.isSubtype q.1 q.2).2.askAll_extends rest)
    rw [isSubtype_memo] at hsee'
    refine List.forall_mem_cons.2 ⟨(e.isSubtype_iff_holds q.1 q.2 hsee').1 hfirst, ?_⟩
    have htail := ih (e.isSubtype q.1 q.2).2 hsee hrest
    rwa [isSubtype_registry] at htail

/-- A check between ground shapes is not refused if the sum of their depths is within the limit. -/
theorem withinRoom_of_ground (e : Engine) {inst tmpl : Shape} (hi : e.registry.Ground inst)
    (ht : e.registry.Ground tmpl) (hdepth : inst.depth + tmpl.depth ≤ maxRecursion) :
    WithinRoom (e.subtypeRun inst tmpl).calls := by
  obtain ⟨b, -, hcalls⟩ := hi.completes ht (Nat.le_succ_of_le hdepth) []
  rwa [e.replay_subtypeRun inst tmpl (Memo.view_agrees _)] at hcalls

/-- The concluding check, if it is never refused, gives what holds with any number of levels. -/
theorem isSubtype_of_below (e : Engine) {see : View} {inst tmpl : Shape}
    (hsee : see.Agrees (e.subtypeRun inst tmpl).memo) (hwhole : see.IsWhole)
    (hi : inst.isWhole = true) (ht : tmpl.isWhole = true)
    (hroom : WithinRoom (e.subtypeRun inst tmpl).calls) (h : e.registry.Below see inst tmpl) :
    (e.isSubtype inst tmpl).1 = true := by
  obtain ⟨n, hn⟩ := h
  rw [e.isSubtype_iff_holds inst tmpl hsee]
  refine Registry.holds_of_withinRoom (Nat.le_max_left (maxRecursion + 1) n) ?_
    (hn.mono hwhole (Nat.le_max_right (maxRecursion + 1) n) hi ht)
  rwa [e.replay_subtypeRun inst tmpl hsee]

variable {s u : Shape}

/-- What is below a branch of a union is below the union. -/
theorem isSubtype_union_intro (e : Engine) (hmemo : e.memo.IsWhole) (hs : s.isWhole = true)
    (hwu : u.isWhole = true) (hu : u.isUnion = true) {b : Shape} (hb : b ∈ u.branches)
    (hvar : s.hasVarBranch = false)
    (hroom : WithinRoom ((e.isSubtype s b).2.subtypeRun s u).calls)
    (h : (e.isSubtype s b).1 = true) : ((e.isSubtype s b).2.isSubtype s u).1 = true := by
  have hwhole : ((e.isSubtype s b).2.subtypeRun s u).memo.view.IsWhole :=
    (subtypeRun_isWhole _ (e.isSubtype_isWhole hmemo s b) s u).view
  -- The two questions are seen with the memo at the end, which agrees with the one after the first.
  have hagrees := Memo.view_agrees ((e.isSubtype s b).2.subtypeRun s u).memo
  have hbefore := hagrees.of_extends (subtypeRun_extends _ _ _)
  rw [isSubtype_memo] at hbefore
  rw [e.isSubtype_iff_holds s b hbefore] at h
  refine isSubtype_of_below _ hagrees hwhole hs hwu hroom ?_
  rw [isSubtype_registry]
  exact Registry.below_union hwhole hs hvar hu hwu hb ⟨_, h⟩

/-- A union is below what all its branches are below. -/
theorem isSubtype_union_elim (e : Engine) (hmemo : e.memo.IsWhole) (hs : s.isWhole = true)
    (hwu : u.isWhole = true) (hu : u.isUnion = true)
    (hroom : WithinRoom ((e.askAll (u.branches.map (·, s))).2.subtypeRun u s).calls)
    (h : ∀ answer ∈ (e.askAll (u.branches.map (·, s))).1, answer = true) :
    ((e.askAll (u.branches.map (·, s))).2.isSubtype u s).1 = true := by
  -- The concluding check runs last, so its memo agrees with what all checks have seen.
  have hwhole : ((e.askAll (u.branches.map (·, s))).2.subtypeRun u s).memo.view.IsWhole :=
    (subtypeRun_isWhole _ (e.askAll_isWhole hmemo _) u s).view
  have hagrees := Memo.view_agrees ((e.askAll (u.branches.map (·, s))).2.subtypeRun u s).memo
  have hholds := e.holds_of_askAll (hagrees.of_extends (subtypeRun_extends _ _ _)) h
  refine isSubtype_of_below _ hagrees hwhole hwu hs hroom ?_
  rw [askAll_registry]
  refine Registry.below_of_all_branches hwhole hu hwu hs fun x hx => ⟨maxRecursion + 1, ?_⟩
  exact hholds (x, s) (List.mem_map.2 ⟨x, hx, rfl⟩)

/-- What a union is below, its branches are below. -/
theorem isSubtype_branch_of_union (e : Engine) (hmemo : e.memo.IsWhole) (hs : s.isWhole = true)
    (hwu : u.isWhole = true) (hu : u.isUnion = true) {b : Shape} (hb : b ∈ u.branches)
    (hdepth : u.depth + s.depth ≤ maxRecursion)
    (hvar : u.same s = true → b.hasVarBranch = false)
    (h : ((e.isSubtype b s).2.isSubtype u s).1 = true) : (e.isSubtype b s).1 = true := by
  -- Here the check of the union runs last; the memo of the other is part of its own.
  have hwhole : ((e.isSubtype b s).2.subtypeRun u s).memo.view.IsWhole :=
    (subtypeRun_isWhole _ (e.isSubtype_isWhole hmemo b s) u s).view
  have hagrees := Memo.view_agrees ((e.isSubtype b s).2.subtypeRun u s).memo
  have hbefore := hagrees.of_extends (subtypeRun_extends _ _ _)
  rw [isSubtype_memo] at hbefore
  rw [isSubtype_iff_holds _ _ _ hagrees, isSubtype_registry] at h
  rw [e.isSubtype_iff_holds b s hbefore]
  refine Registry.holds_branch hwhole hu hwu hs hb (fun hsame => ⟨hvar hsame, ?_⟩) h
  have hlt := Shape.depth_lt_of_mem_branches hu hb
  omega

/-- The laws of unions, between whole shapes and where the concluding check is not refused, which it
never is between ground shapes within the limit on depth.  What is below a branch is below the
union, if no variable is among its own branches; a variable is below a union if its bound is or all
its constraints are.  A union is below what all its branches are below; its branches are below what
it is below, except for variables in a union that is compared with its like. -/
theorem isSubtype_union (e : Engine) (hmemo : e.memo.IsWhole) (hs : s.isWhole = true)
    (hwu : u.isWhole = true) (hu : u.isUnion = true) :
    (∀ b ∈ u.branches, s.hasVarBranch = false →
      WithinRoom ((e.isSubtype s b).2.subtypeRun s u).calls →
      (e.isSubtype s b).1 = true → ((e.isSubtype s b).2.isSubtype s u).1 = true) ∧
    (∀ v, s.var? = some v → ((e.isSubtype s u).1 = true ↔
      e.registry.KnownBelow (e.subtypeRun s u).memo.view
        (e.registry.Holds (e.subtypeRun s u).memo.view maxRecursion [])
        (e.registry.declarationOf v) u)) ∧
    (WithinRoom ((e.askAll (u.branches.map (·, s))).2.subtypeRun u s).calls →
      (∀ answer ∈ (e.askAll (u.branches.map (·, s))).1, answer = true) →
      ((e.askAll (u.branches.map (·, s))).2.isSubtype u s).1 = true) ∧
    (∀ b ∈ u.branches, u.depth + s.depth ≤ maxRecursion →
      (u.same s = true → b.hasVarBranch = false) →
      ((e.isSubtype b s).2.isSubtype u s).1 = true → (e.isSubtype b s).1 = true) ∧
    (e.registry.Ground s → e.registry.Ground u → u.depth + s.depth ≤ maxRecursion →
      ∀ e' : Engine, e'.registry = e.registry →
        WithinRoom (e'.subtypeRun s u).calls ∧ WithinRoom (e'.subtypeRun u s).calls) := by
  refine ⟨fun b hb hvar hroom => ?_, fun v hv => ?_, fun hroom => ?_, fun b hb hdepth hvar => ?_,
    fun hgs hgu hdepth e' he => ⟨?_, ?_⟩⟩
  · exact e.isSubtype_union_intro hmemo hs hwu hu hb hvar hroom
  · rw [e.isSubtype_iff_holds s u (Memo.view_agrees _)]
    exact Registry.holds_union_of_var (e.subtypeRun_isWhole hmemo s u).view hs hwu hv hu
  · exact e.isSubtype_union_elim hmemo hs hwu hu hroom
  · exact e.isSubtype_branch_of_union hmemo hs hwu hu hb hdepth hvar
  · exact e'.withinRoom_of_ground (he ▸ hgs) (he ▸ hgu) (by omega)
  · exact e'.withinRoom_of_ground (he ▸ hgu) (he ▸ hgs) hdepth

/-- An integer is an integer or a string, as is a variable bounded by integers; and both are
objects. -/
theorem int_isSubtype_union :
    let e : Engine := {}
    let int : Shape := .leaf Name.int
    let object : Shape := .leaf Name.object
    let either : Shape := .unionOf [int, .leaf Name.string]
    let var : Shape := .ofVar { name := text "T", bound := .con Name.int }
    ((e.isSubtype int int).2.isSubtype int either).1 = true ∧
      (e.isSubtype var either).1 = true ∧
      ((e.askAll (either.branches.map (·, object))).2.isSubtype either object).1 = true ∧
      (e.isSubtype (.leaf Name.string) object).1 = true := by
  intro e int object either var
  have hmemo : e.memo.IsWhole := Memo.isWhole_nil
  have hint : e.registry.Ground int := ⟨rfl, rfl, rfl⟩
  have hobject : e.registry.Ground object := ⟨rfl, rfl, rfl⟩
  have heither : e.registry.Ground either := ⟨rfl, rfl, rfl⟩
  obtain ⟨hintro, -, -, -, hroom⟩ :=
    e.isSubtype_union (s := int) (u := either) hmemo rfl rfl rfl
  obtain ⟨-, -, helim, hbranch, hroom'⟩ :=
    e.isSubtype_union (s := object) (u := either) hmemo rfl rfl rfl
  obtain ⟨-, hvar, -⟩ := e.isSubtype_union (s := var) (u := either) hmemo rfl rfl rfl
  -- The rooms are those of ground shapes, which are never refused.
  refine ⟨?_, ?_, ?_, ?_⟩
  · exact hintro int List.mem_cons_self rfl (hroom hint heither (by decide) _ rfl).1
      (by decide +kernel)
  · exact (hvar _ rfl).2 (.inr (.inl ⟨rfl, by unfold Registry.Holds; decide +kernel⟩))
  · exact helim (hroom' hobject heither (by decide) _ rfl).2 (by decide +kernel)
  · exact hbranch _ (List.mem_cons_of_mem _ List.mem_cons_self) (by decide) (fun _ => rfl)
      (by decide +kernel)

/-- `Int` under a number of unions of one branch each. -/
def wrapped : Nat → TypeExpr
  | 0 => .con Name.int
  | n + 1 => .union [wrapped n] false

/-- Unions are not least upper bounds of all shapes.  A variable is below itself and not below a
union of which it is a branch, though that union is below itself.  The bound of a variable may use
up all the room there is, and then none is left for one more step, on either side.  And a hole
breaks off the check of a branch that comes before the one that fits. -/
theorem isSubtype_union_not_lub :
    let e : Engine := {}
    let int : Shape := .leaf Name.int
    let var : Shape := .ofVar { name := text "T" }
    let varOrInt : Shape := .unionOf [var, int]
    let deep : Shape := .ofVar { name := text "T", bound := wrapped 255 }
    let deepList : Shape := .ofClass Name.list [.ofVar { name := text "T", bound := wrapped 254 }]
    let intList : Shape := .ofClass Name.list [int]
    ((e.isSubtype var var).1 = true ∧ (e.isSubtype var varOrInt).1 = false ∧
      (e.isSubtype varOrInt varOrInt).1 = true) ∧
    ((e.isSubtype deepList intList).1 = true ∧
      (e.isSubtype deepList (.unionOf [intList, int])).1 = false) ∧
    ((e.isSubtype deep int).1 = true ∧ (e.isSubtype int int).1 = true ∧
      (e.isSubtype (.unionOf [deep, int]) int).1 = false) ∧
    ((boxes.isSubtype leakyBox (.leaf (text "Box"))).1 = true ∧
      (boxes.isSubtype leakyBox (.unionOf [.leaf (text "Sized"), .leaf (text "Box")])).1 =
        false) := by
  refine ⟨?_, ?_, ?_, ?_⟩ <;> decide +kernel

end Engine

end TypeShape
