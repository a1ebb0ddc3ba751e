import TypeShape.Proofs.SubtypeSteps
import TypeShape.Proofs.WholeShapes

/-!
# Subtype checks that answer

A subtype check breaks off when it meets a hole where it needs a node.  Between whole shapes this
never happens: what matching makes of whole shapes, and the members of their classes, are whole
again.  `Completes ok see x` says that a replayed check answers and that all its calls are `ok`, so
the same lemmas also bound the room a check needs.

## Key results

- `Registry.membersSeen_fine`: the members of a whole shape are whole, or fail for another reason
- `Registry.completes_subtypeStep`: a step answers if the checks it asks for do
- `Registry.completes_subtypeNoted`: a subtype check between whole shapes answers
- `Engine.subtypeRun_answers`: so does the engine, if it remembers whole shapes only
- `Engine.run_of_alike`: queries that never break off, told by what the memo shows in the end
-/

namespace TypeShape

/-! ## Members -/

/-- Whether a view gives whole shapes only. -/
def View.IsWhole (see : View) : Prop := ∀ t, (see t).shape.isWhole = true

/-- Whether a slot holds a group. -/
def Slot.isGroup : Slot → Bool
  | single _ => false
  | group _ => true

namespace Shape

variable {see : View} {f : TypeVar → Seeing (Option Shape)}

/-- A shape stays whole when its slots are replaced by whole slots of the same kinds. -/
theorem isWhole_applied_of_slots {o : Origin} {slots slots' : List Slot}
    (h : (applied o slots).isWhole = true) (hwhole : slotsWhole slots' = true)
    (hkinds : slots'.map Slot.isGroup = slots.map Slot.isGroup) :
    (applied o slots').isWhole = true := by
  cases o with
  | hole => simp at h
  | var decl => simpa using hwhole
  | plain kind name =>
    unfold isWhole
    split
    -- Only two of the cases are about a root of this kind.
    · rename_i heq
      cases heq
    · rename_i heq
      cases heq
    · rename_i heq
      cases heq
    · -- The callable whose slots are no parameter list and result.
      rename_i heq
      cases heq
      rcases slots with _ | ⟨head | ps, _ | ⟨result | rs, _ | ⟨slot, rest⟩⟩⟩ <;>
        simp [Slot.isGroup] at hkinds
      simp at h
    · rename_i heq
      cases heq
      exact hwhole

mutual

/-- Replacing the variables of a whole shape by whole shapes gives a whole shape. -/
theorem isWhole_mapVarsM (hf : ∀ v s, (f v).run see = some s → s.isWhole = true) :
    ∀ s : Shape, s.isWhole = true → ((s.mapVarsM f).run see).isWhole = true
  | .bare o, h => by
    cases o with
    | hole => simp at h
    | plain kind name => exact h
    | var decl =>
      show (((f decl).run see).getD (bare (.var decl))).isWhole = true
      cases hfound : (f decl).run see with
      | none => exact h
      | some s => exact hf decl s hfound
  | .applied o slots, h => by
    cases o with
    | hole => simp at h
    | plain kind name =>
      have hslots := slotsWhole_mapVarsSlotsM hf slots (slotsWhole_of_isWhole h)
      exact isWhole_applied_of_slots h hslots.1 hslots.2
    | var decl =>
      show (((f decl).run see).getD (applied (.var decl) slots)).isWhole = true
      cases hfound : (f decl).run see with
      | none => exact h
      | some s => exact hf decl s hfound

/-- The same of a list of slots; each slot also stays single or a group. -/
theorem slotsWhole_mapVarsSlotsM (hf : ∀ v s, (f v).run see = some s → s.isWhole = true) :
    ∀ slots : List Slot, slotsWhole slots = true →
      slotsWhole ((mapVarsSlotsM f slots).run see) = true ∧
      ((mapVarsSlotsM f slots).run see).map Slot.isGroup = slots.map Slot.isGroup
  | [], _ => ⟨rfl, rfl⟩
  | .single s :: rest, h => by
    simp only [slotsWhole, Bool.and_eq_true] at h
    obtain ⟨hwhole, hkinds⟩ := slotsWhole_mapVarsSlotsM hf rest h.2
    refine ⟨?_, congrArg (List.cons _) hkinds⟩
    exact Bool.and_eq_true_iff.2 ⟨isWhole_mapVarsM hf s h.1, hwhole⟩
  | .group ss :: rest, h => by
    simp only [slotsWhole, Bool.and_eq_true] at h
    obtain ⟨hwhole, hkinds⟩ := slotsWhole_mapVarsSlotsM hf rest h.2
    refine ⟨?_, congrArg (List.cons _) hkinds⟩
    exact Bool.and_eq_true_iff.2 ⟨areWhole_mapVarsAllM hf ss h.1, hwhole⟩

/-- The same of a list of shapes. -/
theorem areWhole_mapVarsAllM (hf : ∀ v s, (f v).run see = some s → s.isWhole = true) :
    ∀ ss : List Shape, areWhole ss = true → areWhole ((mapVarsAllM f ss).run see) = true
  | [], _ => rfl
  | s :: rest, h => by
    simp only [areWhole, Bool.and_eq_true] at h
    exact Bool.and_eq_true_iff.2
      ⟨isWhole_mapVarsM hf s h.1, areWhole_mapVarsAllM hf rest h.2⟩

end

end Shape

namespace Registry

open Shape

variable {r : Registry} {see : View} (hsee : see.IsWhole)

include hsee

/-- Replacing variables by the shapes of their bindings keeps a shape whole. -/
theorem isWhole_substituteShapeM (bindings : Subst) {s : Shape} (h : s.isWhole = true) :
    ((substituteShapeM bindings s : Seeing Shape).run see).isWhole = true := by
  -- Without bindings nothing is replaced; else each variable gets a shape that was seen.
  unfold substituteShapeM substituteM
  split
  · exact h
  · refine isWhole_mapVarsM (fun v s hs => ?_) s h
    cases hb : Table.find? bindings v.name with
    | none =>
      rw [hb] at hs
      cases hs
    | some t =>
      rw [hb] at hs
      cases hs
      exact hsee t

omit hsee in
/-- What is seen first is worked out first. -/
theorem fine_bind_seeing {α β : Type} {P : β → Prop} {x : Seeing α}
    {f : α → Seeing (Except Error β)} (h : Fine P ((f (x.run see)).run see)) :
    Fine P ((x >>= f).run see) := h

omit hsee in
/-- Reducing an expression to its shape gives what the view shows. -/
theorem run_shapeM (t : TypeExpr) : (r.shapeM t : Seeing Shape).run see = r.shapeSeen see t := rfl

/-- The bindings that a whole shape gives the parameters of its class never fail for a hole. -/
theorem ownBindings_fine (c : Class) {s : Shape} (h : s.isWhole = true) :
    Fine (fun _ => True) ((r.ownBindings c s : Seeing _).run see) := by
  -- Arguments that do not fit in number are a failure, but not that of a hole.
  unfold ownBindings
  split
  · trivial
  · split
    · exact Error.noConfusion
    · have hunify : Fine (fun _ => True) (r.unify (r.shapeSeen see c.selfType) s) :=
        unify_fine r (hsee _) h
      refine fine_bind_seeing ?_
      rw [run_shapeM]
      rcases hu : r.unify (r.shapeSeen see c.selfType) s with e | bindings
      · -- Unifying whole shapes meets no hole.
        rw [hu] at hunify
        cases e
        case hole => exact absurd rfl hunify
        all_goals exact Error.noConfusion
      · trivial

variable {σ : Type} {Good : σ → Prop}

/-- A walk over bases keeps what the walk from each base keeps. -/
theorem walkBases_fine {walk : Shape → List Text × σ → Seeing (Except Error (List Text × σ))}
    (hwalk : ∀ s state, s.isWhole = true → Good state.2 →
      Fine (fun state => Good state.2) ((walk s state).run see))
    (bindings : Subst) (bases : List TypeExpr) (state : List Text × σ) (hstate : Good state.2) :
    Fine (fun state => Good state.2) ((r.walkBases walk bindings bases state).run see) := by
  -- By induction on the bases, for the state that the walk before leaves.
  induction bases generalizing state with
  | nil => exact hstate
  | cons base bases ih =>
    have h := hwalk (r.shapeSeen see (base.apply bindings)) state (hsee _) hstate
    refine fine_bind_seeing ?_
    rw [run_shapeM]
    refine fine_bind_seeing ?_
    cases hout : (walk (r.shapeSeen see (base.apply bindings)) state).run see with
    | error e =>
      rw [hout] at h
      exact h
    | ok state =>
      rw [hout] at h
      exact ih state h

/-- A walk from a whole shape keeps what its visits keep, or fails for another reason than a
hole. -/
theorem walkClasses_fine {visit : Class → Subst → σ → Seeing σ}
    (hvisit : ∀ c bindings acc, Good acc → Good ((visit c bindings acc).run see)) (room : Nat)
    (s : Shape) (state : List Text × σ) (h : s.isWhole = true) (hstate : Good state.2) :
    Fine (fun state => Good state.2) ((r.walkClasses visit room s state).run see) := by
  -- The room is the fuel of the walk; what it keeps is said of every state it may be in.
  induction room generalizing s state with
  | zero => exact Error.noConfusion
  | succ room ih =>
    obtain ⟨visited, acc⟩ := state
    simp only [walkClasses, isHole_of_isWhole h, Bool.false_eq_true, if_false]
    split
    · exact hstate
    · rename_i c hc
      split
      · exact hstate
      · have hown := ownBindings_fine (r := r) hsee c h
        refine fine_bind_seeing ?_
        cases hout : (r.ownBindings c s : Seeing _).run see with
        | error e =>
          rw [hout] at hown
          exact hown
        | ok bindings =>
          refine walkBases_fine hsee (fun s state => ih s state) bindings c.bases _ ?_
          exact hvisit c bindings acc hstate

/-- The members collected from a class have whole types. -/
theorem addMembers_whole (bindings : Subst) (members : List Member) (acc : List MemberShape)
    (hacc : ∀ m ∈ acc, m.shape.isWhole = true) :
    ∀ m ∈ Id.run ((r.addMembers [] bindings members acc : Seeing (List MemberShape)).run see),
      m.shape.isWhole = true := by
  -- By induction on the members, for those collected so far.
  induction members generalizing acc with
  | nil => exact hacc
  | cons member rest ih =>
    unfold addMembers
    split
    · exact ih acc hacc
    · refine ih _ fun m hm => ?_
      obtain hm | hm := List.mem_append.1 hm
      · exact hacc m hm
      · rw [List.mem_singleton.1 hm]
        exact isWhole_substituteShapeM hsee bindings (hsee (r.expandAliases member.type))

/-- The members of a whole shape are whole, or cannot be worked out for another reason than a
hole. -/
theorem membersSeen_fine {s : Shape} (h : s.isWhole = true) :
    Fine (fun members => ∀ m ∈ members, m.shape.isWhole = true) (r.membersSeen see s) := by
  have hvisit : ∀ (c : Class) (bindings : Subst) (acc : List MemberShape),
      (∀ m ∈ acc, m.shape.isWhole = true) →
      ∀ m ∈ Id.run ((r.addMembers [] bindings c.members acc : Seeing (List MemberShape)).run see),
        m.shape.isWhole = true :=
    fun c bindings acc => addMembers_whole hsee bindings c.members acc
  have hwalk := walkClasses_fine (r := r) hsee hvisit (maxRecursion + 1) s ([], []) h (by simp)
  exact fine_map hwalk

end Registry

/-! ## Checks that answer -/

/-- A replayed check answers, and all its calls are `ok`. -/
def Completes (ok : Call → Prop) (see : View) (x : Replaying Bool) : Prop :=
  ∃ b, (x.run see).2 = some b ∧ ∀ c ∈ (x.run see).1, ok c

namespace Completes

variable {ok : Call → Prop} {see : View}

/-- A value is an answer without calls. -/
theorem of_pure (b : Bool) : Completes ok see (pure b) :=
  ⟨b, rfl, fun _ hc => absurd hc List.not_mem_nil⟩

/-- A computation that makes good calls and gives a value may be followed by one that answers. -/
theorem bind_of_run {α : Type} {x : Replaying α} {calls : List Call} {a : α}
    {f : α → Replaying Bool} (hx : x.run see = (calls, some a)) (hcalls : ∀ c ∈ calls, ok c)
    (hf : Completes ok see (f a)) : Completes ok see (x >>= f) := by
  obtain ⟨b, hb, hrest⟩ := hf
  rw [Completes, Replaying.run_bind_some f hx]
  exact ⟨b, hb, fun c hc => (List.mem_append.1 hc).elim (hcalls c) (hrest c)⟩

/-- A check that answers may be followed by one that answers. -/
theorem bind {x : Replaying Bool} {f : Bool → Replaying Bool} (hx : Completes ok see x)
    (hf : ∀ b, Completes ok see (f b)) : Completes ok see (x >>= f) := by
  obtain ⟨a, ha, hcalls⟩ := hx
  exact bind_of_run (Prod.ext rfl ha) hcalls (hf a)

/-- Reducing an expression is no call. -/
theorem bind_shapeM {r : Registry} {t : TypeExpr} {f : Shape → Replaying Bool}
    (h : Completes ok see (f (r.shapeSeen see t))) : Completes ok see (r.shapeM t >>= f) :=
  bind_of_run rfl (fun _ hc => absurd hc List.not_mem_nil) h

/-- A search for a true answer ends if its tests answer. -/
theorem anyM {α : Type} {f : α → Replaying Bool} {as : List α}
    (h : ∀ a ∈ as, Completes ok see (f a)) : Completes ok see (as.anyM f) := by
  induction as with
  | nil => exact of_pure false
  | cons a as ih =>
    obtain ⟨ha, has⟩ := List.forall_mem_cons.1 h
    refine ha.bind fun b => ?_
    cases b with
    | true => exact of_pure true
    | false => exact ih has

/-- A search for a false answer ends if its tests answer. -/
theorem allM {α : Type} {f : α → Replaying Bool} {as : List α}
    (h : ∀ a ∈ as, Completes ok see (f a)) : Completes ok see (as.allM f) := by
  induction as with
  | nil => exact of_pure true
  | cons a as ih =>
    obtain ⟨ha, has⟩ := List.forall_mem_cons.1 h
    refine ha.bind fun b => ?_
    cases b with
    | true => exact ih has
    | false => exact of_pure false

end Completes

namespace Registry

open Shape

variable (r : Registry) {ok : Call → Prop} {see : View}

section Checks

variable {check : Check Replaying}

/-- The check against a variable answers if the checks against its restrictions do. -/
theorem completes_satisfiesVar {inst : Shape} {v : TypeVar}
    (h : ∀ t ∈ v.restrictions, Completes ok see (check inst (r.shapeSeen see t))) :
    Completes ok see (r.satisfiesVar check inst v) := by
  -- Whatever the bound says, only constraints are asked about next.
  have rest : ∀ bounded : Bool, Completes ok see
      (if !bounded then pure false else if v.constraints.isEmpty then pure true
        else v.constraints.anyM fun c => do check inst (← r.shapeM c)) := by
    intro bounded
    split
    · exact .of_pure false
    · split
      · exact .of_pure true
      · exact .anyM fun c hc => .bind_shapeM (h c (List.mem_cons_of_mem _ hc))
  simp only [satisfiesVar]
  split
  · exact .bind (.of_pure true) rest
  · exact .bind_shapeM (.bind (h _ List.mem_cons_self) rest)

/-- The check of a variable answers if the checks of its restrictions do. -/
theorem completes_varMatches {v : TypeVar} {tmpl : Shape}
    (h : ∀ t ∈ v.restrictions, Completes ok see (check (r.shapeSeen see t) tmpl)) :
    Completes ok see (r.varMatches check v tmpl) := by
  -- If the bound does not match, the constraints are asked, all of them.
  have rest : ∀ bounded : Bool, Completes ok see
      (if bounded then pure true else if v.constraints.isEmpty then pure false
        else v.constraints.allM fun c => do check (← r.shapeM c) tmpl) := by
    intro bounded
    split
    · exact .of_pure true
    · split
      · exact .of_pure false
      · exact .allM fun c hc => .bind_shapeM (h c (List.mem_cons_of_mem _ hc))
  simp only [varMatches]
  split
  · exact .of_pure true
  · split
    · exact .bind (.of_pure false) rest
    · exact .bind_shapeM (.bind (h _ List.mem_cons_self) rest)

/-- The check of two groups answers if the checks of their members do. -/
theorem completes_groupMatches {is ts : List Shape}
    (h : ∀ a ∈ is, ∀ b ∈ ts, Completes ok see (check a b)) :
    Completes ok see (groupMatches check is ts) := by
  -- By induction on the groups, which end together or not.
  induction is generalizing ts with
  | nil => cases ts <;> exact .of_pure _
  | cons i is ih =>
    cases ts with
    | nil => exact .of_pure _
    | cons t ts =>
      refine (h i List.mem_cons_self t List.mem_cons_self).bind fun b => ?_
      cases b with
      | true =>
        exact ih fun a ha b hb => h a (List.mem_cons_of_mem i ha) b (List.mem_cons_of_mem t hb)
      | false => exact .of_pure false

/-- The check of two slots answers if the slot of the template is no hole and the checks of their
shapes do. -/
theorem completes_slotMatches {i t : Slot} (ht : ∀ b ∈ slotShapes [t], b.isHole = false)
    (h : ∀ a ∈ slotShapes [i], ∀ b ∈ slotShapes [t], Completes ok see (check a b)) :
    Completes ok see (slotMatches check i t) := by
  -- Only a hole in the slot of the template would break off the check.
  cases t with
  | single t =>
    simp only [slotMatches, ht t (by simp), Bool.false_eq_true, if_false]
    split
    · exact .of_pure true
    · cases i with
      | single i => exact h i (by simp) t (by simp)
      | group is => exact .of_pure false
  | group ts =>
    cases i with
    | single i => exact .of_pure false
    | group is =>
      simp only [slotMatches]
      split
      · exact completes_groupMatches fun a ha b hb =>
          h a (by simp [ha]) b (by simp [hb])
      · exact .of_pure false

/-- The shapes in a list of slots are those of the first slot and then those of the rest. -/
theorem slotShapes_cons (slot : Slot) (rest : List Slot) :
    slotShapes (slot :: rest) = slotShapes [slot] ++ slotShapes rest := by
  cases slot <;> simp

/-- The check of two lists of slots answers, too. -/
theorem completes_slotsMatch {is ts : List Slot} (ht : ∀ b ∈ slotShapes ts, b.isHole = false)
    (h : ∀ a ∈ slotShapes is, ∀ b ∈ slotShapes ts, Completes ok see (check a b)) :
    Completes ok see (slotsMatch check is ts) := by
  induction is generalizing ts with
  | nil => cases ts <;> exact .of_pure _
  | cons i is ih =>
    cases ts with
    | nil => exact .of_pure _
    | cons t ts =>
      -- What is known of the shapes of both lists is known of their first slots and of the rests.
      rw [slotShapes_cons t] at ht h
      rw [slotShapes_cons i] at h
      have hslot : Completes ok see (slotMatches check i t) :=
        completes_slotMatches (fun b hb => ht b (List.mem_append_left _ hb))
          fun a ha b hb => h a (List.mem_append_left _ ha) b (List.mem_append_left _ hb)
      refine hslot.bind fun b => ?_
      cases b with
      | true =>
        exact ih (fun b hb => ht b (List.mem_append_right _ hb))
          fun a ha b hb => h a (List.mem_append_right _ ha) b (List.mem_append_right _ hb)
      | false => exact .of_pure false

/-- The check by inheritance and slot by slot answers. -/
theorem completes_nominalMatches {inst tmpl : Shape} (ht : tmpl.isWhole = true)
    (h : ∀ a ∈ slotShapes inst.slots, ∀ b ∈ slotShapes tmpl.slots, Completes ok see (check a b)) :
    Completes ok see (r.nominalMatches check inst tmpl) := by
  have hslots : ∀ b ∈ slotShapes tmpl.slots, b.isHole = false := fun b hb =>
    isHole_of_isWhole (isWhole_of_mem_slotShapes (slotsWhole_of_isWhole ht) hb)
  unfold nominalMatches
  repeat' split
  all_goals first
    | exact .of_pure _
    | exact completes_slotsMatch hslots h

/-- The check of members answers if the checks of their types do. -/
theorem completes_membersMatch {found wanted : List MemberShape}
    (h : ∀ own ∈ found, ∀ member ∈ wanted, Completes ok see (check own.shape member.shape)) :
    Completes ok see (membersMatch check found wanted) := by
  -- By induction on the members that are wanted; hidden ones are passed over.
  induction wanted with
  | nil => exact .of_pure true
  | cons member rest ih =>
    have ih := ih fun own hown other hother => h own hown other (List.mem_cons_of_mem _ hother)
    unfold membersMatch
    split
    · exact ih
    · split
      · exact .of_pure false
      · rename_i own hown
        refine (h own (List.mem_of_find?_eq_some hown) member List.mem_cons_self).bind fun b => ?_
        cases b with
        | true => exact ih
        | false => exact .of_pure false

/-- The check of two protocols answers between whole shapes. -/
theorem completes_conformsWith (hsee : see.IsWhole) {inst tmpl : Shape}
    (hi : inst.isWhole = true) (ht : tmpl.isWhole = true)
    (h : ∀ a b, a.isWhole = true → b.isWhole = true → Completes ok see (check a b)) :
    Completes ok see (r.conformsWith check inst tmpl [] []) := by
  -- The members of both are worked out from whole shapes, so no hole is met.
  have hwanted := membersSeen_fine (r := r) hsee ht
  have hfound := membersSeen_fine (r := r) hsee hi
  unfold membersSeen at hwanted hfound
  unfold conformsWith
  refine .bind_of_run (seeingReplaying.memberShapes r tmpl [] see)
    (fun _ hc => absurd hc List.not_mem_nil) ?_
  rcases hw : (r.memberShapes tmpl [] : Seeing _).run see with e | wanted
  · -- Of the failures, only that of a hole would break off the check.
    rw [hw] at hwanted
    cases e
    case hole => exact absurd rfl hwanted
    all_goals exact .of_pure false
  · rw [hw] at hwanted
    refine .bind_of_run (seeingReplaying.memberShapes r inst [] see)
      (fun _ hc => absurd hc List.not_mem_nil) ?_
    rcases hf : (r.memberShapes inst [] : Seeing _).run see with e | found
    · rw [hf] at hfound
      cases e
      case hole => exact absurd rfl hfound
      all_goals exact .of_pure false
    · rw [hf] at hfound
      -- The members are whole again, and so are all the questions about them.
      exact completes_membersMatch fun own hown member hm =>
        h _ _ (hfound own hown) (hwanted member hm)

end Checks

/-- A step between whole shapes answers if the checks it asks for do. -/
theorem completes_subtypeStep {deeper : List Text → Check Replaying} {assumed : List Text}
    {inst tmpl : Shape} (hi : inst.isWhole = true) (ht : tmpl.isWhole = true)
    (h : ∀ a b, r.Asks see inst tmpl a b → Completes ok see (deeper assumed a b))
    (hconf : r.isProtocol tmpl = true →
      Completes ok see (r.conformsAssuming deeper assumed inst tmpl)) :
    Completes ok see (r.subtypeStep deeper assumed inst tmpl) := by
  have hnominal : Completes ok see (r.nominalMatches (deeper assumed) inst tmpl) :=
    completes_nominalMatches r ht fun a ha b hb => h a b (.slot ha hb)
  simp only [subtypeStep, isHole_of_isWhole hi, isHole_of_isWhole ht, Bool.or_self,
    Bool.false_eq_true, if_false]
  -- The cases are those of the step; each asks for some of the checks that `Asks` lists.
  split
  · exact .of_pure true
  · split
    · rename_i hu
      exact .allM fun b hb => h b tmpl (.branch hu hb)
    · -- The template is a variable, the instance is one, or neither is.
      split
      · rename_i hv
        exact completes_satisfiesVar r fun t ht => h _ _ (.intoVar hv ht)
      · rename_i hv
        exact completes_varMatches r fun t ht => h _ _ (.ofVar hv ht)
      · split
        · rename_i hu
          exact .anyM fun b hb => h inst b (.option hu hb)
        · split
          · rename_i hprot
            refine hnominal.bind fun b => ?_
            cases b with
            | true => exact .of_pure true
            | false => exact hconf hprot
          · exact hnominal

/-- A noted check answers if its step does, and its call is `ok`. -/
theorem completes_subtypeNoted_succ {room : Nat} {assumed : List Text} {inst tmpl : Shape}
    (hok : ok ⟨room + 1, inst, tmpl⟩)
    (h : Completes ok see (r.subtypeStep (r.subtypeNoted room) assumed inst tmpl)) :
    Completes ok see (r.subtypeNoted (room + 1) assumed inst tmpl) :=
  .bind_of_run rfl (by simpa using hok) h

/-- What is asked about whole shapes is about whole shapes. -/
theorem Asks.isWhole (hsee : see.IsWhole) {inst tmpl a b : Shape} (h : r.Asks see inst tmpl a b)
    (hi : inst.isWhole = true) (ht : tmpl.isWhole = true) :
    a.isWhole = true ∧ b.isWhole = true := by
  cases h with
  | branch _ hb => exact ⟨isWhole_of_mem_branches hi hb, ht⟩
  | intoVar _ _ => exact ⟨hi, hsee _⟩
  | ofVar _ _ => exact ⟨hsee _, ht⟩
  | option _ hb => exact ⟨hi, isWhole_of_mem_branches ht hb⟩
  | slot ha hb =>
    exact ⟨isWhole_of_mem_slotShapes (slotsWhole_of_isWhole hi) ha,
      isWhole_of_mem_slotShapes (slotsWhole_of_isWhole ht) hb⟩

/-- A subtype check between whole shapes answers. -/
theorem completes_subtypeNoted (hsee : see.IsWhole) (room : Nat) (assumed : List Text)
    (inst tmpl : Shape) (hi : inst.isWhole = true) (ht : tmpl.isWhole = true) :
    Completes (fun _ => True) see (r.subtypeNoted room assumed inst tmpl) := by
  -- The induction is on the room; protocols are compared with one more pair assumed.
  induction room generalizing assumed inst tmpl with
  | zero => exact .bind_of_run rfl (fun _ _ => trivial) (.of_pure false)
  | succ room ih =>
    refine completes_subtypeNoted_succ r trivial (completes_subtypeStep r hi ht ?_ fun _ => ?_)
    · intro a b hab
      obtain ⟨ha, hb⟩ := hab.isWhole r hsee hi ht
      exact ih assumed a b ha hb
    · simp only [conformsAssuming, showsHole_of_isWhole inst hi, showsHole_of_isWhole tmpl ht,
        Bool.or_self, Bool.false_eq_true, if_false]
      split
      · exact .of_pure true
      · exact completes_conformsWith r hsee hi ht (ih _)

end Registry

/-! ## What the engine remembers -/

/-- Whether a memo holds whole shapes only.  So does every memo that reductions have made. -/
def Memo.IsWhole (memo : Memo) : Prop :=
  ∀ key x, memo.entries.find? key = some x → x.shape.isWhole = true

/-- The empty memo remembers nothing. -/
theorem Memo.isWhole_nil : Memo.IsWhole ⟨[]⟩ := by
  rintro key x ⟨⟩

/-- A memo of whole shapes shows whole shapes. -/
theorem Memo.IsWhole.view {memo : Memo} (h : memo.IsWhole) : memo.view.IsWhole := by
  intro t
  unfold Memo.view
  split
  · exact Shape.isWhole_shape t
  · cases hfound : memo.entries.find? t.key with
    | none => exact Shape.isWhole_shape t
    | some x => exact h _ x hfound

/-- A reduction adds nothing but a whole shape. -/
theorem Memo.IsWhole.reduce {memo : Memo} (h : memo.IsWhole) (t : TypeExpr) :
    (StateT.run (Memo.reduce t) memo).2.IsWhole := by
  -- What is found under a key was whole before, and what is added is the shape of an expression.
  rw [Memo.run_reduce]
  split
  · exact h
  · split
    · exact h
    · intro key x hx
      rw [Table.find?_cons] at hx
      split at hx
      · cases hx
        exact Shape.isWhole_shape t
      · exact h key x hx

/-- A recorded computation that leaves whole memos whole. -/
def keepsWhole : Simulation Recording Recording where
  Rel x _ := ∀ memo : Memo, memo.IsWhole → (x.run memo).memo.IsWhole
  rel_pure _ _ h := h
  rel_bind := by
    intro α β x _ f _ hx hf memo h
    have hx := hx memo h
    rcases hrun : x.run memo with ⟨calls, answer, memo'⟩
    rw [hrun] at hx
    -- What breaks off leaves the memo as it is then; else the rest runs on a whole memo.
    cases answer with
    | none => rwa [Recording.run_bind_none f hrun]
    | some a =>
      rw [Recording.run_bind_some f hrun]
      exact hf a memo' hx
  map_left := @Recording.map_eq_bind
  map_right := @Recording.map_eq_bind
  rel_reduce t memo h := h.reduce t

namespace Engine

/-- A query that works alike in all monads always answers.  It only adds to the memo, adds nothing
but whole shapes, and the answer is told by what the memo shows in the end. -/
theorem run_of_alike (e : Engine) {α : Type}
    (q : ∀ {m : Type → Type} [Monad m] [Reducing m], m α)
    (hq : ∀ {m n : Type → Type} [Monad m] [Monad n] [Reducing m] [Reducing n]
      (S : Simulation m n), S.Rel (q : m α) (q : n α)) :
    (e.run q).2.registry = e.registry ∧ (e.run q).2.memo.Extends e.memo ∧
      (e.memo.IsWhole → (e.run q).2.memo.IsWhole) ∧
      ∀ see : View, see.Agrees (e.run q).2.memo →
        (e.run q).1 = some ((q : Seeing α).run see) := by
  -- The query runs in three monads at once: recording, replaying a view, and seeing. The first two
  -- agree, and so do the last two.
  let run := (q : Recording α).run e.memo
  have hrun : e.run q = (run.answer, { e with memo := run.memo }) := by
    have hquery := hq recordingQuery e.memo
    simp only [Engine.run, hquery, run]
  obtain ⟨hextends, hreplay⟩ := hq recordingReplaying e.memo
  rw [hrun]
  refine ⟨rfl, hextends, hq keepsWhole e.memo, fun see hsee => ?_⟩
  have hseeing : (q : Replaying α).run see = ([], some ((q : Seeing α).run see)) :=
    hq seeingReplaying see
  rw [hreplay see hsee] at hseeing
  exact (Prod.ext_iff.1 hseeing).2

/-- A subtype check leaves a memo of whole shapes. -/
theorem subtypeRun_isWhole (e : Engine) (h : e.memo.IsWhole) (inst tmpl : Shape) :
    (e.subtypeRun inst tmpl).memo.IsWhole :=
  keepsWhole.subtypeNoted e.registry (fun _ _ h => h) (fun _ h => h) (maxRecursion + 1) [] inst tmpl
    e.memo h

/-- The engine answers subtype questions about whole shapes. -/
theorem subtypeRun_answers (e : Engine) (h : e.memo.IsWhole) {inst tmpl : Shape}
    (hi : inst.isWhole = true) (ht : tmpl.isWhole = true) :
    ∃ b, (e.subtypeRun inst tmpl).answer = some b := by
  have hwhole := (e.subtypeRun_isWhole h inst tmpl).view
  have hreplay := e.replay_subtypeRun inst tmpl (Memo.view_agrees _)
  obtain ⟨b, hb, -⟩ :=
    e.registry.completes_subtypeNoted hwhole (maxRecursion + 1) [] inst tmpl hi ht
  rw [hreplay] at hb
  exact ⟨b, hb⟩

end Engine

end TypeShape
