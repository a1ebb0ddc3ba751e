import TypeShape.Proofs.SubtypeAnswers

/-!
# The subtype check level by level

`Holds see room assumed` relates the shapes that a check with `room` levels left relates.  Its
levels are tied together by the rules: a level relates what the rules give from the level below.
Laws of the check are shown for this relation, and hold of the engine because its answers are those
of the level it starts with.

## Key results

- `Registry.Holds.rule`, `Registry.holds_of_rule`: one level and the level below
- `Registry.Holds.mono`: more levels relate more whole shapes
- `Registry.holds_of_withinRoom`: a check that is never refused relates all that any level relates
- `Engine.isSubtype_iff_holds`: the engine answers for the level `maxRecursion + 1`
-/

namespace TypeShape

namespace Registry

/-- A check with `room` levels left, under assumptions, answers yes. -/
def Holds (r : Registry) (see : View) (room : Nat) (assumed : List Text) (inst tmpl : Shape) :
    Prop :=
  ((r.subtypeNoted room assumed inst tmpl : Replaying Bool).run see).2 = some true

/-- A conformance is assumed, or its members match `room` levels down. -/
def ConformsGiven (r : Registry) (see : View) (room : Nat) (assumed : List Text)
    (inst tmpl : Shape) : Prop :=
  conformanceKey inst tmpl ∈ assumed ∨
    r.Conforms see (r.Holds see room (conformanceKey inst tmpl :: assumed)) inst tmpl

variable {r : Registry} {see : View} {assumed : List Text} {inst tmpl : Shape}

/-- Without a level left, nothing is affirmed. -/
theorem not_holds_zero : ¬ r.Holds see 0 assumed inst tmpl := by
  intro h
  cases h

/-- The answers of a level are what it relates. -/
theorem judges_holds (room : Nat) (assumed : List Text) (inst tmpl : Shape) :
    Judges (fun _ => True) see (r.subtypeNoted room assumed inst tmpl)
      (r.Holds see room assumed inst tmpl) (r.Holds see room assumed inst tmpl) := by
  intro calls b hrun _
  unfold Holds
  rw [hrun]
  cases b <;> simp

/-- Conformance under assumptions is judged by the level that is left for the members. -/
theorem judges_conformsGiven (room : Nat) (assumed : List Text) (inst tmpl : Shape) :
    Judges (fun _ => True) see (r.conformsAssuming (r.subtypeNoted room) assumed inst tmpl)
      (r.ConformsGiven see room assumed inst tmpl)
      (r.ConformsGiven see room assumed inst tmpl) := by
  -- The question is refused, assumed, or compared member by member.
  simp only [conformsAssuming]
  split
  · exact .of_stuck
  · split
    · rename_i hkey
      exact .of_true (.inl (List.contains_iff_mem.1 hkey))
    · rename_i hkey
      refine (judges_conformsWith r (judges_holds room _) inst tmpl).imp .inr ?_
      exact fun h => h.resolve_left fun hmem => hkey (List.contains_iff_mem.2 hmem)

/-- A level is judged by what the rules give from the level below. -/
theorem judges_holds_succ (room : Nat) (assumed : List Text) (inst tmpl : Shape) :
    Judges (fun _ => True) see (r.subtypeNoted (room + 1) assumed inst tmpl)
      (r.Rule see (r.Holds see room assumed) (r.ConformsGiven see room assumed) inst tmpl)
      (r.Rule see (r.Holds see room assumed) (r.ConformsGiven see room assumed) inst tmpl) := by
  refine judges_subtypeNoted_succ r fun _ => ?_
  exact judges_subtypeStep r (judges_holds room assumed) fun _ =>
    judges_conformsGiven room assumed inst tmpl

/-- What a level relates comes by a rule from the level below. -/
theorem Holds.rule {room : Nat} (h : r.Holds see (room + 1) assumed inst tmpl) :
    r.Rule see (r.Holds see room assumed) (r.ConformsGiven see room assumed) inst tmpl :=
  (judges_holds_succ room assumed inst tmpl _ true (Prod.ext rfl h) fun _ _ => trivial).1 rfl

/-- A level relates what a rule gives from the level below, unless the check breaks off. -/
theorem holds_of_rule {ok : Call → Prop} {room : Nat}
    (hanswers : Completes ok see (r.subtypeNoted (room + 1) assumed inst tmpl))
    (hrule : r.Rule see (r.Holds see room assumed) (r.ConformsGiven see room assumed) inst tmpl) :
    r.Holds see (room + 1) assumed inst tmpl := by
  obtain ⟨b, hb, -⟩ := hanswers
  cases b with
  | true => exact hb
  | false =>
    -- A no would mean that no rule applies.
    have hno := (judges_holds_succ room assumed inst tmpl _ false (Prod.ext rfl hb)
      fun _ _ => trivial).2 rfl
    exact absurd hrule hno

/-! ## More levels -/

section Whole

variable (hsee : see.IsWhole)

include hsee

/-- Checks between whole shapes never break off. -/
theorem holds_of_rule_of_isWhole {room : Nat} (hi : inst.isWhole = true) (ht : tmpl.isWhole = true)
    (hrule : r.Rule see (r.Holds see room assumed) (r.ConformsGiven see room assumed) inst tmpl) :
    r.Holds see (room + 1) assumed inst tmpl :=
  holds_of_rule (completes_subtypeNoted r hsee _ assumed inst tmpl hi ht) hrule

/-- The members of whole shapes are whole, so only whole shapes are compared. -/
theorem Conforms.imp_of_isWhole {sub sub' : Shape → Shape → Prop} (hi : inst.isWhole = true)
    (ht : tmpl.isWhole = true)
    (h : ∀ a b, a.isWhole = true → b.isWhole = true → sub a b → sub' a b)
    (hc : r.Conforms see sub inst tmpl) : r.Conforms see sub' inst tmpl := by
  obtain ⟨wanted, found, hwanted, hfound, hall⟩ := hc
  -- The memo shows whole members for whole shapes, on both sides.
  have hwholeWanted := membersSeen_fine (r := r) hsee ht
  have hwholeFound := membersSeen_fine (r := r) hsee hi
  rw [hwanted] at hwholeWanted
  rw [hfound] at hwholeFound
  refine ⟨wanted, found, hwanted, hfound, fun member hm hpublic => ?_⟩
  obtain ⟨own, hown, hsub⟩ := hall member hm hpublic
  refine ⟨own, hown, h _ _ ?_ (hwholeWanted member hm) hsub⟩
  exact hwholeFound own (List.mem_of_find?_eq_some hown)

/-- One level more relates the same whole shapes and maybe others. -/
theorem Holds.succ {room : Nat} (hi : inst.isWhole = true) (ht : tmpl.isWhole = true)
    (h : r.Holds see room assumed inst tmpl) : r.Holds see (room + 1) assumed inst tmpl := by
  induction room generalizing assumed inst tmpl with
  | zero => exact absurd h not_holds_zero
  | succ room ih =>
    refine holds_of_rule_of_isWhole hsee hi ht ?_
    refine h.rule.imp (fun a b hab => ?_) fun _ => Or.imp_right fun hc => ?_
    · obtain ⟨ha, hb⟩ := hab.isWhole r hsee hi ht
      exact ih ha hb
    · exact hc.imp_of_isWhole hsee hi ht fun a b ha hb => ih ha hb

/-- More levels relate more whole shapes. -/
theorem Holds.mono {m n : Nat} (hmn : m ≤ n) (hi : inst.isWhole = true) (ht : tmpl.isWhole = true)
    (h : r.Holds see m assumed inst tmpl) : r.Holds see n assumed inst tmpl := by
  induction hmn with
  | refl => exact h
  | step _ ih => exact ih.succ hsee hi ht

end Whole

/-- A check that is never refused for want of room answers the same with more room. -/
theorem run_of_withinRoom {m n : Nat} (hmn : m ≤ n)
    (hroom : WithinRoom ((r.subtypeNoted m assumed inst tmpl : Replaying Bool).run see).1) :
    WithinRoom ((r.subtypeNoted n assumed inst tmpl : Replaying Bool).run see).1 ∧
    ((r.subtypeNoted n assumed inst tmpl : Replaying Bool).run see).2 =
      ((r.subtypeNoted m assumed inst tmpl : Replaying Bool).run see).2 := by
  induction hmn with
  | refl => exact ⟨hroom, rfl⟩
  | @step n _ ih =>
    -- One level more only raises the room that each question is noted with.
    rw [r.subtypeNoted_roomier n assumed inst tmpl see ih.1]
    refine ⟨fun c hc => ?_, ih.2⟩
    obtain ⟨c, -, rfl⟩ := List.mem_map.1 hc
    exact Nat.succ_ne_zero _

/-- A check that is never refused for want of room relates what any higher level relates. -/
theorem holds_of_withinRoom {m n : Nat} (hmn : m ≤ n)
    (hroom : WithinRoom ((r.subtypeNoted m assumed inst tmpl : Replaying Bool).run see).1)
    (h : r.Holds see n assumed inst tmpl) : r.Holds see m assumed inst tmpl :=
  (run_of_withinRoom hmn hroom).2.symm.trans h

end Registry

/-- The engine answers subtype questions for the level it starts with. -/
theorem Engine.isSubtype_iff_holds (e : Engine) (inst tmpl : Shape) {see : View}
    (hsee : see.Agrees (e.subtypeRun inst tmpl).memo) :
    (e.isSubtype inst tmpl).1 = true ↔
      e.registry.Holds see (maxRecursion + 1) [] inst tmpl := by
  unfold Registry.Holds
  rw [e.replay_subtypeRun inst tmpl hsee, isSubtype_eq_subtypeRun]
  cases (e.subtypeRun inst tmpl).answer <;> simp

end TypeShape
