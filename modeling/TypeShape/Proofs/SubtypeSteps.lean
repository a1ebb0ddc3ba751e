import TypeShape.Proofs.SubtypeRelation

/-!
# What a step of the subtype check decides

A replayed check that answers has made some calls.  `Judges ok see x p q` says: if `x` answers and
all its calls are `ok`, then a yes means `p` and a no means that `q` fails.  With two propositions
the same lemmas serve to show that answers are sound (`p` is the interesting one) and that they are
complete (`q` is).  Each function of the check gets one lemma, down to

- `judges_subtypeStep`: a step answers yes only if a rule applies to what the checks one level
  deeper have affirmed, and no only if no rule applies to what they have not denied.
-/

namespace TypeShape

/-- If a check answers and its calls are `ok`, a yes means `p` and a no means that `q` fails. -/
def Judges (ok : Call → Prop) (see : View) (x : Replaying Bool) (p q : Prop) : Prop :=
  ∀ calls b, x.run see = (calls, some b) → (∀ c ∈ calls, ok c) →
    (b = true → p) ∧ (b = false → ¬ q)

namespace Judges

variable {ok : Call → Prop} {see : View} {p q p' q' : Prop}

/-- A plain yes is right if the one proposition holds. -/
theorem of_true (hp : p) : Judges ok see (pure true) p q := by
  rintro calls b ⟨⟩ -
  exact ⟨fun _ => hp, fun h => absurd h (by decide)⟩

/-- A plain no is right if the other one fails. -/
theorem of_false (hq : ¬ q) : Judges ok see (pure false) p q := by
  rintro calls b ⟨⟩ -
  exact ⟨fun h => absurd h (by decide), fun _ => hq⟩

/-- A check that gets stuck does not answer. -/
theorem of_stuck : Judges ok see Reducing.stuck p q := by
  rintro calls b ⟨⟩

/-- Weaker conclusions may be drawn from an answer. -/
theorem imp {x : Replaying Bool} (h : Judges ok see x p q) (hp : p → p') (hq : q' → q) :
    Judges ok see x p' q' := by
  intro calls b hrun hok
  obtain ⟨hyes, hno⟩ := h calls b hrun hok
  exact ⟨fun hb => hp (hyes hb), fun hb hq' => hno hb (hq hq')⟩

/-- What is made of an answer may rely on what the answer says. -/
theorem bind {x : Replaying Bool} {f : Bool → Replaying Bool} (h : Judges ok see x p q)
    (hyes : p → Judges ok see (f true) p' q') (hno : ¬ q → Judges ok see (f false) p' q') :
    Judges ok see (x >>= f) p' q' := by
  intro calls b hrun hok
  rcases hx : x.run see with ⟨calls', answer⟩
  cases answer with
  | none =>
    rw [Replaying.run_bind_none f hx] at hrun
    cases hrun
  | some a =>
    rw [Replaying.run_bind_some f hx] at hrun
    obtain ⟨rfl, hrest⟩ := Prod.mk.inj hrun
    -- The calls of both parts are among those of the whole.
    have hx := h calls' a hx fun c hc => hok c (List.mem_append_left _ hc)
    have hf : Judges ok see (f a) p' q' := by
      cases a with
      | true => exact hyes (hx.1 rfl)
      | false => exact hno (hx.2 rfl)
    exact hf _ b (Prod.ext rfl hrest) fun c hc => hok c (List.mem_append_right _ hc)

/-- A computation that makes no calls can be worked out first. -/
theorem bind_of_run {α : Type} {x : Replaying α} {a : α} {f : α → Replaying Bool}
    (hx : x.run see = ([], some a)) (h : Judges ok see (f a) p q) :
    Judges ok see (x >>= f) p q := by
  intro calls b hrun hok
  rw [Replaying.run_bind_some f hx, List.nil_append] at hrun
  exact h calls b hrun hok

/-- Reducing an expression is no call. -/
theorem bind_shapeM {r : Registry} {t : TypeExpr} {f : Shape → Replaying Bool}
    (h : Judges ok see (f (r.shapeSeen see t)) p q) : Judges ok see (r.shapeM t >>= f) p q :=
  bind_of_run rfl h

/-- Searching a list says yes for some element, or no for all. -/
theorem anyM {α : Type} {f : α → Replaying Bool} {P Q : α → Prop}
    (h : ∀ a, Judges ok see (f a) (P a) (Q a)) (as : List α) :
    Judges ok see (as.anyM f) (∃ a ∈ as, P a) (∃ a ∈ as, Q a) := by
  -- By induction on the list; an element is asked only if those before it said no.
  induction as with
  | nil => exact of_false (by simp)
  | cons a as ih =>
    refine (h a).bind (fun hp => of_true ⟨a, List.mem_cons_self, hp⟩) fun hq => ih.imp ?_ ?_
    · rintro ⟨a', ha', hp⟩
      exact ⟨a', List.mem_cons_of_mem a ha', hp⟩
    · rintro ⟨a', ha', hq'⟩
      obtain rfl | ha' := List.mem_cons.1 ha'
      · exact absurd hq' hq
      · exact ⟨a', ha', hq'⟩

/-- Checking a list says yes for all elements, or no for some. -/
theorem allM {α : Type} {f : α → Replaying Bool} {P Q : α → Prop}
    (h : ∀ a, Judges ok see (f a) (P a) (Q a)) (as : List α) :
    Judges ok see (as.allM f) (∀ a ∈ as, P a) (∀ a ∈ as, Q a) := by
  induction as with
  | nil => exact of_true (by simp)
  | cons a as ih =>
    refine (h a).bind (fun hp => ih.imp ?_ ?_) fun hq => of_false fun hall =>
      hq (hall a List.mem_cons_self)
    · exact fun hall => List.forall_mem_cons.2 ⟨hp, hall⟩
    · exact fun hall a' ha' => hall a' (List.mem_cons_of_mem a ha')

end Judges

/-- What is seen of the members of a class involves no calls. -/
def seeingReplaying : Simulation Seeing Replaying where
  Rel x y := ∀ see, y.run see = ([], some (ReaderT.run x see))
  rel_pure _ _ := rfl
  rel_bind := by
    intro α β x y f g hx hf see
    rw [Replaying.run_bind_some g (hx see), hf _ see]
    rfl
  map_left _ _ := rfl
  map_right := @Replaying.map_eq_bind
  rel_reduce _ _ := rfl

namespace Registry

variable {ok : Call → Prop} {see : View} {P Q : Shape → Shape → Prop} (r : Registry)

section Checks

variable {check : Check Replaying} (h : ∀ a b, Judges ok see (check a b) (P a b) (Q a b))

include h

/-- The check against a variable answers whether the variable admits the shape. -/
theorem judges_satisfiesVar (inst : Shape) (v : TypeVar) :
    Judges ok see (r.satisfiesVar check inst v) (r.Admits see P inst v)
      (r.Admits see Q inst v) := by
  -- Once the bound is met, some constraint has to be.
  have rest : (v.bound.isOmitted = true ∨ P inst (r.shapeSeen see v.bound)) → Judges ok see
      (if !true then pure false else if v.constraints.isEmpty then pure true
        else v.constraints.anyM fun c => do check inst (← r.shapeM c))
      (r.Admits see P inst v) (r.Admits see Q inst v) := by
    intro hb
    simp only [Bool.not_true, Bool.false_eq_true, if_false, List.isEmpty_iff]
    split
    · rename_i hc
      exact .of_true ⟨hb, .inl hc⟩
    · rename_i hc
      refine (Judges.anyM (fun c => .bind_shapeM (h inst _)) v.constraints).imp ?_ ?_
      · exact fun hex => ⟨hb, .inr hex⟩
      · exact fun hq => hq.2.resolve_left hc
  simp only [satisfiesVar]
  split
  · rename_i hb
    exact .bind_of_run (a := true) rfl (rest (.inl hb))
  · rename_i hb
    refine .bind_shapeM ?_
    refine (h inst _).bind (fun hp => rest (.inr hp)) fun hq => .of_false fun hadmits => ?_
    exact hq (hadmits.1.resolve_left hb)

/-- The check of a variable answers whether all that is known of it is below the template. -/
theorem judges_varMatches (v : TypeVar) (tmpl : Shape) :
    Judges ok see (r.varMatches check v tmpl) (r.KnownBelow see P v tmpl)
      (r.KnownBelow see Q v tmpl) := by
  -- Without a bound that is below the template, all constraints have to be.
  have rest : ¬ tmpl.isObject = true →
      ¬ (v.bound.isOmitted = false ∧ Q (r.shapeSeen see v.bound) tmpl) → Judges ok see
      (if false then pure true else if v.constraints.isEmpty then pure false
        else v.constraints.allM fun c => do check (← r.shapeM c) tmpl)
      (r.KnownBelow see P v tmpl) (r.KnownBelow see Q v tmpl) := by
    intro ho hb
    simp only [Bool.false_eq_true, if_false, List.isEmpty_iff]
    split
    · rename_i hc
      refine .of_false ?_
      rintro (ho' | hb' | hcs)
      · exact ho ho'
      · exact hb hb'
      · exact hcs.1 hc
    · rename_i hc
      refine (Judges.allM (fun c => .bind_shapeM (h _ tmpl)) v.constraints).imp ?_ ?_
      · exact fun hall => .inr (.inr ⟨hc, hall⟩)
      · rintro (ho' | hb' | hcs)
        · exact absurd ho' ho
        · exact absurd hb' hb
        · exact hcs.2
  simp only [varMatches]
  split
  · rename_i ho
    exact .of_true (.inl ho)
  · rename_i ho
    split
    · rename_i hb
      exact .bind_of_run (a := false) rfl (rest ho fun hb' => by simp [hb] at hb')
    · rename_i hb
      refine .bind_shapeM ?_
      refine (h _ tmpl).bind (fun hp => .of_true ?_) fun hq => rest ho fun hb' => hq hb'.2
      exact .inr (.inl ⟨by simpa using hb, hp⟩)

/-- Groups are compared one by one. -/
theorem judges_groupMatches (is ts : List Shape) :
    Judges ok see (groupMatches check is ts) (List.Forall₂ P is ts) (List.Forall₂ Q is ts) := by
  -- By induction on the groups; the shorter one decides that they do not fit.
  induction is generalizing ts with
  | nil =>
    cases ts with
    | nil => exact .of_true .nil
    | cons t ts => exact .of_false (by rintro ⟨⟩)
  | cons i is ih =>
    cases ts with
    | nil => exact .of_false (by rintro ⟨⟩)
    | cons t ts =>
      refine (h i t).bind (fun hp => (ih ts).imp (.cons hp) ?_) fun hq => .of_false ?_
      · exact fun hall => (List.forall₂_cons.1 hall).2
      · exact fun hall => hq (List.forall₂_cons.1 hall).1

/-- A slot is compared with a slot of its kind. -/
theorem judges_slotMatches (inst tmpl : Slot) :
    Judges ok see (slotMatches check inst tmpl) (SlotFits P inst tmpl) (SlotFits Q inst tmpl) := by
  -- The slot of the template decides: a wildcard, a shape, or a group.
  cases tmpl with
  | single t =>
    simp only [slotMatches]
    split
    · exact .of_stuck
    · split
      · rename_i ha
        cases inst with
        | single i => exact .of_true (.inl ha)
        | group is => exact .of_true ha
      · rename_i ha
        cases inst with
        | single i => exact (h i t).imp .inr fun hq => hq.resolve_left ha
        | group is => exact .of_false ha
  | group ts =>
    cases inst with
    | single i => exact .of_false id
    | group is =>
      simp only [slotMatches]
      split
      · exact judges_groupMatches h is ts
      · rename_i hlen
        exact .of_false fun hall => hlen hall.length_eq

/-- Slots are compared one by one. -/
theorem judges_slotsMatch (is ts : List Slot) :
    Judges ok see (slotsMatch check is ts) (List.Forall₂ (SlotFits P) is ts)
      (List.Forall₂ (SlotFits Q) is ts) := by
  -- By induction on the slots, in the same way as for groups.
  induction is generalizing ts with
  | nil =>
    cases ts with
    | nil => exact .of_true .nil
    | cons t ts => exact .of_false (by rintro ⟨⟩)
  | cons i is ih =>
    cases ts with
    | nil => exact .of_false (by rintro ⟨⟩)
    | cons t ts =>
      refine (judges_slotMatches h i t).bind (fun hp => (ih ts).imp (.cons hp) ?_) fun hq =>
        .of_false ?_
      · exact fun hall => (List.forall₂_cons.1 hall).2
      · exact fun hall => hq (List.forall₂_cons.1 hall).1

/-- The nominal check answers whether the shape fits by name and slots. -/
theorem judges_nominalMatches (inst tmpl : Shape) :
    Judges ok see (r.nominalMatches check inst tmpl) (r.NominallyFits P inst tmpl)
      (r.NominallyFits Q inst tmpl) := by
  -- One case for each test, and in each one the alternatives that the test has ruled out.
  unfold nominalMatches
  split
  · rename_i ho
    exact .of_true (.inl ho)
  · rename_i ho
    split
    · rename_i hs
      refine .of_false ?_
      rintro (ho' | ⟨hs', -⟩)
      · exact ho ho'
      · simp [hs'] at hs
    · rename_i hs
      have hs : r.originSatisfies inst tmpl = true := by simpa using hs
      split
      · rename_i hp
        exact .of_true (.inr ⟨hs, .inl (by simpa using hp)⟩)
      · rename_i hp
        split
        · rename_i hi
          refine .of_false ?_
          rintro (ho' | ⟨-, hp' | ⟨hi', hslots⟩⟩)
          · exact ho ho'
          · simp [hp'] at hp
          · simp [hi', hslots.length_eq] at hi
        · rename_i hi
          have hi : inst.isParameterized = true := by
            cases hip : inst.isParameterized <;> simp_all
          refine (judges_slotsMatch h inst.slots tmpl.slots).imp ?_ ?_
          · exact fun hslots => .inr ⟨hs, .inr ⟨hi, hslots⟩⟩
          · rintro (ho' | ⟨-, hp' | ⟨-, hslots⟩⟩)
            · exact absurd ho' ho
            · simp [hp'] at hp
            · exact hslots

/-- The check of members answers whether every public member that is wanted is found with a type
below it. -/
theorem judges_membersMatch (found wanted : List MemberShape) :
    Judges ok see (membersMatch check found wanted)
      (∀ member ∈ wanted, isPrivateName member.name = false →
        ∃ own, found.find? (·.name == member.name) = some own ∧ P own.shape member.shape)
      (∀ member ∈ wanted, isPrivateName member.name = false →
        ∃ own, found.find? (·.name == member.name) = some own ∧ Q own.shape member.shape) := by
  -- By induction on the members wanted; private ones are passed over on both sides.
  induction wanted with
  | nil => exact .of_true (by simp)
  | cons member rest ih =>
    simp only [List.forall_mem_cons]
    unfold membersMatch
    split
    · rename_i hpriv
      refine ih.imp (fun hall => ⟨?_, hall⟩) fun hall => hall.2
      exact fun hpub => absurd hpriv (by simp [hpub])
    · rename_i hpub
      have hpub : isPrivateName member.name = false := by simpa using hpub
      split
      · rename_i hfind
        refine .of_false fun hall => ?_
        obtain ⟨own, hown, -⟩ := hall.1 hpub
        rw [hfind] at hown
        cases hown
      · rename_i own hfind
        refine (h own.shape member.shape).bind (fun hp => ih.imp ?_ ?_) fun hq => .of_false ?_
        · exact fun hall => ⟨fun _ => ⟨own, hfind, hp⟩, hall⟩
        · exact fun hall => hall.2
        · intro hall
          obtain ⟨own', hown', hq'⟩ := hall.1 hpub
          rw [hfind] at hown'
          cases hown'
          exact hq hq'

/-- The check of conformance answers whether the shape conforms. -/
theorem judges_conformsWith (inst tmpl : Shape) :
    Judges ok see (r.conformsWith check inst tmpl [] []) (r.Conforms see P inst tmpl)
      (r.Conforms see Q inst tmpl) := by
  -- The members of both sides are worked out first, without any call.
  unfold conformsWith
  refine .bind_of_run (seeingReplaying.memberShapes r tmpl [] see) ?_
  rcases hwanted : r.membersSeen see tmpl with e | wanted
  · -- Without the members of the protocol there is no conformance.
    have hno : ¬ r.Conforms see Q inst tmpl := by
      rintro ⟨wanted, found, hwanted', -⟩
      rw [hwanted] at hwanted'
      cases hwanted'
    unfold membersSeen at hwanted
    rw [hwanted]
    cases e <;> first | exact .of_stuck | exact .of_false hno
  · have hw := hwanted
    unfold membersSeen at hw
    rw [hw]
    refine .bind_of_run (seeingReplaying.memberShapes r inst [] see) ?_
    rcases hfound : r.membersSeen see inst with e | found
    · have hno : ¬ r.Conforms see Q inst tmpl := by
        rintro ⟨wanted, found, -, hfound', -⟩
        rw [hfound] at hfound'
        cases hfound'
      unfold membersSeen at hfound
      rw [hfound]
      cases e <;> first | exact .of_stuck | exact .of_false hno
    · have hf := hfound
      unfold membersSeen at hf
      rw [hf]
      refine (judges_membersMatch h found wanted).imp ?_ ?_
      · exact fun hall => ⟨wanted, found, hwanted, hfound, hall⟩
      · rintro ⟨wanted', found', hwanted', hfound', hall⟩
        rw [hwanted] at hwanted'
        rw [hfound] at hfound'
        cases hwanted'
        cases hfound'
        exact hall

end Checks

/-- A step answers yes only if a rule applies to what the checks one level deeper affirm, and no
only if no rule applies to what they do not deny. -/
theorem judges_subtypeStep {deeper : List Text → Check Replaying} {assumed : List Text}
    {inst tmpl : Shape} {C D : Shape → Shape → Prop}
    (h : ∀ a b, Judges ok see (deeper assumed a b) (P a b) (Q a b))
    (hconf : r.isProtocol tmpl = true → Judges ok see
      (r.conformsAssuming deeper assumed inst tmpl) (C inst tmpl) (D inst tmpl)) :
    Judges ok see (r.subtypeStep deeper assumed inst tmpl) (r.Rule see P C inst tmpl)
      (r.Rule see Q D inst tmpl) := by
  -- The cases are the branches of the step in the order in which they are tried; on the way down,
  -- what has not applied rules out the other rules.
  simp only [subtypeStep]
  split
  · -- A hole is below nothing, and nothing is below a hole.
    rename_i hhole
    refine .of_false fun hrule => ?_
    simp [hrule.not_isHole] at hhole
  · rename_i hhole
    obtain ⟨hi, ht⟩ : inst.isHole = false ∧ tmpl.isHole = false := by simpa using hhole
    split
    · rename_i hat
      obtain hany | hsame := Bool.or_eq_true_iff.1 hat
      · exact .of_true (.any hi hany)
      · exact .of_true (.same hi ht hsame)
    · rename_i hat
      obtain ⟨hany, hsame⟩ := not_or.1 (mt Bool.or_eq_true_iff.2 hat)
      split
      · -- The instance is a union.
        rename_i hu
        refine (Judges.allM (fun b => h b tmpl) inst.branches).imp (.everyBranch hu ht) ?_
        exact fun hrule => hrule.branches_of_isUnion hany hsame hu
      · rename_i hu
        have hu' : inst.isUnion = false := by simpa using hu
        split
        · -- The template is a variable.
          rename_i v hv
          refine (judges_satisfiesVar r h inst _).imp (.intoVar hi hu' hv) ?_
          exact fun hrule => hrule.admits_of_var? hany hsame hu hv
        · -- The instance is a variable, and the template is none.
          rename_i v htv hv
          refine (judges_varMatches r h _ tmpl).imp (.ofVar hv ht htv) ?_
          exact fun hrule => hrule.knownBelow_of_var? hany hsame hv htv
        · rename_i htv hv
          have his : inst.isSolid = true := Shape.isSolid_iff.2 ⟨hi, hu', hv⟩
          split
          · -- The template is a union.
            rename_i htu
            refine (Judges.anyM (fun b => h inst b) tmpl.branches).imp ?_ ?_
            · rintro ⟨b, hb, hp⟩
              exact .someBranch his htu hb hp
            · exact fun hrule => hrule.branch_of_isUnion hany hsame his htu
          · rename_i htu
            have hts : tmpl.isSolid = true := Shape.isSolid_iff.2 ⟨ht, by simpa using htu, htv⟩
            have hnominal := judges_nominalMatches r h inst tmpl
            split
            · -- The template is a protocol: members count only if inheritance does not decide.
              rename_i hprot
              refine hnominal.bind (fun hp => .of_true (.nominal his hts hp)) fun hq => ?_
              refine (hconf hprot).imp (.conforms his hts hprot) fun hrule => ?_
              exact ((hrule.nominal_or_conforms hany hsame his hts).resolve_left hq).2
            · rename_i hprot
              refine hnominal.imp (.nominal his hts) fun hrule => ?_
              obtain hf | ⟨hprot', -⟩ := hrule.nominal_or_conforms hany hsame his hts
              · exact hf
              · exact absurd hprot' hprot

/-- A call without room is refused. -/
theorem judges_subtypeNoted_zero {assumed : List Text} {inst tmpl : Shape} {p q : Prop}
    (h : ok ⟨0, inst, tmpl⟩ → ¬ q) :
    Judges ok see (r.subtypeNoted 0 assumed inst tmpl) p q := by
  rintro calls b ⟨⟩ hok
  exact ⟨fun hb => absurd hb (by decide), fun _ => h (hok _ List.mem_cons_self)⟩

/-- A call with room is answered by a step. -/
theorem judges_subtypeNoted_succ {room : Nat} {assumed : List Text} {inst tmpl : Shape}
    {p q : Prop} (h : ok ⟨room + 1, inst, tmpl⟩ → Judges ok see
      (r.subtypeStep (r.subtypeNoted room) assumed inst tmpl) p q) :
    Judges ok see (r.subtypeNoted (room + 1) assumed inst tmpl) p q := by
  intro calls b hrun hok
  -- The call itself is noted first, then those of the step.
  have hrun' : (⟨room + 1, inst, tmpl⟩ ::
      ((r.subtypeStep (r.subtypeNoted room) assumed inst tmpl : Replaying Bool).run see).1,
      ((r.subtypeStep (r.subtypeNoted room) assumed inst tmpl : Replaying Bool).run see).2) =
      (calls, some b) := hrun
  obtain ⟨rfl, hb⟩ := Prod.mk.inj hrun'
  exact h (hok _ List.mem_cons_self) _ b (Prod.ext rfl hb) fun c hc =>
    hok c (List.mem_cons_of_mem _ hc)

end Registry

end TypeShape
