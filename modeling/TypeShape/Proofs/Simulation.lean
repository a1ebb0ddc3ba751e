import TypeShape.Matching.Subtyping

/-!
# Matching in two monads at once

Matching is written for any monad in which expressions can be reduced.  A simulation relates the
computations of two such monads; it is kept by sequencing and by reduction.  Whatever matching
does with related checks is then related again, so a fact about one way of running a check carries
over to another.  One lemma for each function of the matching modules says so; the main ones are

- `Simulation.memberShapes`: the members of a class with their shapes,
- `Simulation.subtypeStep`: one step of the subtype check.
-/

namespace TypeShape

/-- A relation between the computations of two reducing monads that sequencing and reduction
keep. -/
structure Simulation (m n : Type → Type) [Monad m] [Monad n] [Reducing m] [Reducing n] where
  /-- Two computations that do the same. -/
  Rel : {α : Type} → m α → n α → Prop
  rel_pure : ∀ {α : Type} (a : α), Rel (pure a) (pure a)
  rel_bind : ∀ {α β : Type} {x : m α} {y : n α} {f : α → m β} {g : α → n β},
    Rel x y → (∀ a, Rel (f a) (g a)) → Rel (x >>= f) (y >>= g)
  map_left : ∀ {α β : Type} (f : α → β) (x : m α), f <$> x = x >>= fun a => pure (f a)
  map_right : ∀ {α β : Type} (f : α → β) (y : n α), f <$> y = y >>= fun a => pure (f a)
  rel_reduce : ∀ t : TypeExpr, Rel (Reducing.reduce t) (Reducing.reduce t)

namespace Simulation

variable {m n : Type → Type} [Monad m] [Monad n] [Reducing m] [Reducing n]
variable (S : Simulation m n) (r : Registry)

/-- Applying a function to related results keeps them related. -/
theorem rel_map {α β : Type} (f : α → β) {x : m α} {y : n α} (h : S.Rel x y) :
    S.Rel (f <$> x) (f <$> y) := by
  rw [S.map_left, S.map_right]
  exact S.rel_bind h fun a => S.rel_pure (f a)

/-! ## Loops over lists -/

/-- Two searches for a true answer are related if their tests are. -/
theorem anyM {α : Type} {f : α → m Bool} {g : α → n Bool} (h : ∀ a, S.Rel (f a) (g a))
    (as : List α) : S.Rel (as.anyM f) (as.anyM g) := by
  induction as with
  | nil => exact S.rel_pure false
  | cons a as ih =>
    refine S.rel_bind (h a) fun b => ?_
    cases b with
    | true => exact S.rel_pure true
    | false => exact ih

/-- Two searches for a false answer are related if their tests are. -/
theorem allM {α : Type} {f : α → m Bool} {g : α → n Bool} (h : ∀ a, S.Rel (f a) (g a))
    (as : List α) : S.Rel (as.allM f) (as.allM g) := by
  induction as with
  | nil => exact S.rel_pure true
  | cons a as ih =>
    refine S.rel_bind (h a) fun b => ?_
    cases b with
    | true => exact ih
    | false => exact S.rel_pure false

/-- Two loops that collect results are related if their bodies are. -/
theorem mapM {α β : Type} {f : α → m β} {g : α → n β} (h : ∀ a, S.Rel (f a) (g a))
    (as : List α) : S.Rel (as.mapM f) (as.mapM g) := by
  have loop (as : List α) (done : List β) :
      S.Rel (List.mapM.loop f as done) (List.mapM.loop g as done) := by
    induction as generalizing done with
    | nil => exact S.rel_pure _
    | cons a as ih => exact S.rel_bind (h a) fun b => ih (b :: done)
  exact loop as []

/-! ## Reduction -/

/-- Reducing an expression to its shape is related to itself. -/
theorem shapeM (t : TypeExpr) : S.Rel (r.shapeM t) (r.shapeM t) :=
  S.rel_bind (S.rel_reduce _) fun reduced => S.rel_pure reduced.shape

mutual

/-- Replacing the variables of a shape by related computations gives related computations. -/
theorem mapVarsM {f : TypeVar → m (Option Shape)} {g : TypeVar → n (Option Shape)}
    (h : ∀ v, S.Rel (f v) (g v)) : ∀ s : Shape, S.Rel (s.mapVarsM f) (s.mapVarsM g)
  | .bare (.var decl) => by
    simp only [Shape.mapVarsM]
    exact S.rel_bind (h decl) fun found => S.rel_pure _
  -- Only a variable asks `f` for something; every other origin stays, and its slots are replaced.
  | .bare (.plain kind name) => by
    simp only [Shape.mapVarsM]
    exact S.rel_pure _
  | .bare .hole => by
    simp only [Shape.mapVarsM]
    exact S.rel_pure _
  | .applied (.var decl) slots => by
    simp only [Shape.mapVarsM]
    exact S.rel_bind (h decl) fun found => S.rel_pure _
  | .applied (.plain kind name) slots => by
    simp only [Shape.mapVarsM]
    exact S.rel_bind (mapVarsSlotsM h slots) fun slots => S.rel_pure _
  | .applied .hole slots => by
    simp only [Shape.mapVarsM]
    exact S.rel_bind (mapVarsSlotsM h slots) fun slots => S.rel_pure _

/-- The same of a list of slots. -/
theorem mapVarsSlotsM {f : TypeVar → m (Option Shape)} {g : TypeVar → n (Option Shape)}
    (h : ∀ v, S.Rel (f v) (g v)) :
    ∀ slots : List Slot, S.Rel (Shape.mapVarsSlotsM f slots) (Shape.mapVarsSlotsM g slots)
  | [] => by
    simp only [Shape.mapVarsSlotsM]
    exact S.rel_pure _
  -- Both sides treat the first slot and then the rest.
  | .single s :: rest => by
    simp only [Shape.mapVarsSlotsM]
    exact S.rel_bind (mapVarsM h s) fun s =>
      S.rel_bind (mapVarsSlotsM h rest) fun rest => S.rel_pure _
  | .group ss :: rest => by
    simp only [Shape.mapVarsSlotsM]
    exact S.rel_bind (mapVarsAllM h ss) fun ss =>
      S.rel_bind (mapVarsSlotsM h rest) fun rest => S.rel_pure _

/-- The same of a list of shapes. -/
theorem mapVarsAllM {f : TypeVar → m (Option Shape)} {g : TypeVar → n (Option Shape)}
    (h : ∀ v, S.Rel (f v) (g v)) :
    ∀ ss : List Shape, S.Rel (Shape.mapVarsAllM f ss) (Shape.mapVarsAllM g ss)
  | [] => by
    simp only [Shape.mapVarsAllM]
    exact S.rel_pure _
  | s :: rest => by
    simp only [Shape.mapVarsAllM]
    exact S.rel_bind (mapVarsM h s) fun s =>
      S.rel_bind (mapVarsAllM h rest) fun rest => S.rel_pure _

end

/-- Replacing variables by the shapes of their bindings is related to itself. -/
theorem substituteShapeM (bindings : Subst) (s : Shape) :
    S.Rel (Registry.substituteShapeM bindings s) (Registry.substituteShapeM bindings s) := by
  simp only [Registry.substituteShapeM, Shape.substituteM]
  split
  · exact S.rel_pure s
  · refine S.mapVarsM (fun decl => ?_) s
    cases Table.find? bindings decl.name with
    | none => exact S.rel_pure none
    | some t =>
      exact S.rel_map _ (S.rel_bind (S.rel_reduce t) fun reduced => S.rel_pure reduced.shape)

/-! ## Walking along bases -/

/-- Binding the parameters of a class to the arguments of a shape is related to itself. -/
theorem ownBindings (c : Class) (s : Shape) : S.Rel (r.ownBindings c s) (r.ownBindings c s) := by
  simp only [Registry.ownBindings]
  split
  · exact S.rel_pure _
  · split
    · exact S.rel_pure _
    · exact S.rel_bind (S.shapeM r _) fun self => S.rel_pure _

variable {σ : Type}

/-- Two walks over the bases of a class are related if the walks from each base are. -/
theorem walkBases {walk : Shape → List Text × σ → m (Except Error (List Text × σ))}
    {walk' : Shape → List Text × σ → n (Except Error (List Text × σ))}
    (h : ∀ s state, S.Rel (walk s state) (walk' s state)) (bindings : Subst)
    (bases : List TypeExpr) (state : List Text × σ) :
    S.Rel (r.walkBases walk bindings bases state) (r.walkBases walk' bindings bases state) := by
  -- The state changes with each base, so the induction is for every state.
  induction bases generalizing state with
  | nil => exact S.rel_pure _
  | cons base bases ih =>
    simp only [Registry.walkBases]
    refine S.rel_bind (S.shapeM r _) fun shape => S.rel_bind (h shape state) fun outcome => ?_
    cases outcome with
    | error e => exact S.rel_pure _
    | ok state => exact ih state

/-- Two walks over the classes above a shape are related if what they do at each class is. -/
theorem walkClasses {visit : Class → Subst → σ → m σ} {visit' : Class → Subst → σ → n σ}
    (h : ∀ c bindings acc, S.Rel (visit c bindings acc) (visit' c bindings acc)) (room : Nat)
    (s : Shape) (state : List Text × σ) :
    S.Rel (r.walkClasses visit room s state) (r.walkClasses visit' room s state) := by
  -- Each level of the walk spends one unit of room, and its bases are walked with what is left.
  induction room generalizing s state with
  | zero => exact S.rel_pure _
  | succ room ih =>
    obtain ⟨visited, acc⟩ := state
    simp only [Registry.walkClasses]
    split
    -- The walk goes on only from a nominal shape whose class is known and was not visited before.
    · exact S.rel_pure _
    · split
      · exact S.rel_pure _
      · split
        · exact S.rel_pure _
        · refine S.rel_bind (S.ownBindings r _ s) fun outcome => ?_
          cases outcome with
          | error e => exact S.rel_pure _
          | ok bindings =>
            exact S.rel_bind (h _ bindings acc) fun acc => S.walkBases r ih bindings _ _

/-- The same of the walk over all classes above a shape. -/
theorem walkAll {visit : Class → Subst → σ → m σ} {visit' : Class → Subst → σ → n σ}
    (h : ∀ c bindings acc, S.Rel (visit c bindings acc) (visit' c bindings acc)) (s : Shape)
    (start : σ) : S.Rel (r.walkAll visit s start) (r.walkAll visit' s start) :=
  S.rel_bind (S.walkClasses r h _ s _) fun _ => S.rel_pure _

/-- Collecting the members of one class is related to itself. -/
theorem addMembers (extra bindings : Subst) (members : List Member)
    (acc : List Registry.MemberShape) :
    S.Rel (r.addMembers extra bindings members acc) (r.addMembers extra bindings members acc) := by
  -- By induction on the members, for those collected so far.
  induction members generalizing acc with
  | nil => exact S.rel_pure acc
  | cons member rest ih =>
    simp only [Registry.addMembers]
    split
    · exact ih acc
    · exact S.rel_bind (S.shapeM r _) fun shape =>
        S.rel_bind (S.substituteShapeM bindings shape) fun shape =>
          S.rel_bind (S.substituteShapeM extra shape) fun shape => ih _

/-- The members of a class are worked out alike in both monads. -/
theorem memberShapes (s : Shape) (extra : Subst) :
    S.Rel (r.memberShapes s extra) (r.memberShapes s extra) :=
  S.walkAll r (fun c bindings acc => S.addMembers r extra bindings c.members acc) s []

/-! ## One step of the subtype check -/

section Checks

variable {check : Registry.Check m} {check' : Registry.Check n}
variable (h : ∀ inst tmpl, S.Rel (check inst tmpl) (check' inst tmpl))

include h

/-- Both sides check a shape against the bound and the restrictions of a variable. -/
theorem satisfiesVar (inst : Shape) (v : TypeVar) :
    S.Rel (r.satisfiesVar check inst v) (r.satisfiesVar check' inst v) := by
  -- What is done once it is known whether the bound is met.
  have rest : ∀ bounded : Bool, S.Rel
      (if !bounded then pure false else if v.constraints.isEmpty then pure true
        else v.constraints.anyM fun c => do check inst (← r.shapeM c))
      (if !bounded then pure false else if v.constraints.isEmpty then pure true
        else v.constraints.anyM fun c => do check' inst (← r.shapeM c)) := by
    intro bounded
    split
    · exact S.rel_pure false
    · split
      · exact S.rel_pure true
      · exact S.anyM (fun c => S.rel_bind (S.shapeM r c) fun alternative => h inst alternative) _
  simp only [Registry.satisfiesVar]
  split
  · exact S.rel_bind (S.rel_pure true) rest
  · exact S.rel_bind (S.shapeM r _) fun bound => S.rel_bind (h inst bound) rest

/-- Both sides check the bound and the restrictions of a variable against a template. -/
theorem varMatches (v : TypeVar) (tmpl : Shape) :
    S.Rel (r.varMatches check v tmpl) (r.varMatches check' v tmpl) := by
  -- What is done once it is known whether the bound alone is enough.
  have rest : ∀ bounded : Bool, S.Rel
      (if bounded then pure true else if v.constraints.isEmpty then pure false
        else v.constraints.allM fun c => do check (← r.shapeM c) tmpl)
      (if bounded then pure true else if v.constraints.isEmpty then pure false
        else v.constraints.allM fun c => do check' (← r.shapeM c) tmpl) := by
    intro bounded
    split
    · exact S.rel_pure true
    · split
      · exact S.rel_pure false
      · exact S.allM (fun c => S.rel_bind (S.shapeM r c) fun alternative => h alternative tmpl) _
  simp only [Registry.varMatches]
  split
  · exact S.rel_pure true
  · split
    · exact S.rel_bind (S.rel_pure false) rest
    · exact S.rel_bind (S.shapeM r _) fun bound => S.rel_bind (h bound tmpl) rest

/-- Two groups of parameters are compared in the same way. -/
theorem groupMatches (is ts : List Shape) :
    S.Rel (Registry.groupMatches check is ts) (Registry.groupMatches check' is ts) := by
  -- By induction on the groups; both stop at the first pair that does not match.
  induction is generalizing ts with
  | nil => cases ts <;> exact S.rel_pure _
  | cons i is ih =>
    cases ts with
    | nil => exact S.rel_pure _
    | cons t ts =>
      refine S.rel_bind (h i t) fun first => ?_
      cases first with
      | true => exact ih ts
      | false => exact S.rel_pure false

/-- Two lists of members are compared in the same way. -/
theorem membersMatch (found wanted : List Registry.MemberShape) :
    S.Rel (Registry.membersMatch check found wanted)
      (Registry.membersMatch check' found wanted) := by
  induction wanted with
  | nil => exact S.rel_pure true
  | cons member rest ih =>
    simp only [Registry.membersMatch]
    split
    -- A private member is not asked for; a missing one answers before any check.
    · exact ih
    · split
      · exact S.rel_pure false
      · refine S.rel_bind (h _ member.shape) fun first => ?_
        cases first with
        | true => exact ih
        | false => exact S.rel_pure false

variable (hstuck : S.Rel Reducing.stuck Reducing.stuck)

include hstuck

/-- Two slots are compared in the same way; a hole among the template's slots is where both stop. -/
theorem slotMatches (inst tmpl : Slot) :
    S.Rel (Registry.slotMatches check inst tmpl) (Registry.slotMatches check' inst tmpl) := by
  -- The slot of the template decides what is asked, the same on both sides.
  cases tmpl with
  | single t =>
    simp only [Registry.slotMatches]
    split
    · exact hstuck
    · split
      · exact S.rel_pure true
      · cases inst with
        | single i => exact h i t
        | group is => exact S.rel_pure false
  | group ts =>
    cases inst with
    | single i => exact S.rel_pure false
    | group is =>
      simp only [Registry.slotMatches]
      split
      · exact S.groupMatches h is ts
      · exact S.rel_pure false

/-- Two lists of slots are compared in the same way. -/
theorem slotsMatch (is ts : List Slot) :
    S.Rel (Registry.slotsMatch check is ts) (Registry.slotsMatch check' is ts) := by
  -- By induction on the slots, as for groups.
  induction is generalizing ts with
  | nil => cases ts <;> exact S.rel_pure _
  | cons i is ih =>
    cases ts with
    | nil => exact S.rel_pure _
    | cons t ts =>
      refine S.rel_bind (S.slotMatches h hstuck i t) fun first => ?_
      cases first with
      | true => exact ih ts
      | false => exact S.rel_pure false

/-- The nominal part of the check is related if the checks of the slots are. -/
theorem nominalMatches (inst tmpl : Shape) :
    S.Rel (r.nominalMatches check inst tmpl) (r.nominalMatches check' inst tmpl) := by
  simp only [Registry.nominalMatches]
  repeat' split
  all_goals first
    | exact S.rel_pure _
    | exact S.slotsMatch h hstuck _ _

/-- Comparing the members of two shapes is related if the checks of members are. -/
theorem conformsWith (candidate interface : Shape) (cb ib : Subst) :
    S.Rel (r.conformsWith check candidate interface cb ib)
      (r.conformsWith check' candidate interface cb ib) := by
  simp only [Registry.conformsWith]
  -- A class whose members cannot be found ends the comparison: both sides stop, or both answer no.
  refine S.rel_bind (S.memberShapes r interface ib) fun wanted => ?_
  split
  · exact hstuck
  · exact S.rel_pure false
  · refine S.rel_bind (S.memberShapes r candidate cb) fun found => ?_
    split
    · exact hstuck
    · exact S.rel_pure false
    · exact S.membersMatch h _ _

end Checks

/-- One step of the check is related if all checks one level deeper are. -/
theorem subtypeStep {deeper : List Text → Registry.Check m} {deeper' : List Text → Registry.Check n}
    (h : ∀ assumed inst tmpl, S.Rel (deeper assumed inst tmpl) (deeper' assumed inst tmpl))
    (hstuck : S.Rel Reducing.stuck Reducing.stuck) (assumed : List Text) (inst tmpl : Shape) :
    S.Rel (r.subtypeStep deeper assumed inst tmpl) (r.subtypeStep deeper' assumed inst tmpl) := by
  -- The protocol check comes in twice, on its own and after the nominal check has failed.
  have conforms : S.Rel (r.conformsAssuming deeper assumed inst tmpl)
      (r.conformsAssuming deeper' assumed inst tmpl) := by
    simp only [Registry.conformsAssuming]
    split
    · exact hstuck
    · split
      · exact S.rel_pure true
      · exact S.conformsWith r (h _) hstuck inst tmpl [] []
  simp only [Registry.subtypeStep]
  -- The cases are those of the step: a hole, the wildcard, a union on the left, a variable on
  -- either side, a union on the right, a protocol, and all that is left.
  split
  · exact S.rel_pure false
  · split
    · exact S.rel_pure true
    · split
      · exact S.allM (fun b => h assumed b tmpl) _
      · split
        · exact S.satisfiesVar r (h assumed) inst _
        · exact S.varMatches r (h assumed) _ tmpl
        · split
          · exact S.anyM (fun b => h assumed inst b) _
          · split
            · refine S.rel_bind (S.nominalMatches r (h assumed) hstuck inst tmpl) fun b => ?_
              cases b with
              | true => exact S.rel_pure true
              | false => exact conforms
            · exact S.nominalMatches r (h assumed) hstuck inst tmpl

end Simulation

end TypeShape
