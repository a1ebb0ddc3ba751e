import Mathlib.Data.List.Nodup
import TypeShape.Proofs.SubtypeAnswers

/-!
# The subtype check decides the subtype relation

While a conformance is being checked, the same question is answered with yes.  So a yes may rest on
an assumption; but it is only ever used to answer the question that was assumed, and a question
that is answered with no takes everything below it along.  A yes at the top is therefore a proof
of a conformance in which assumed questions lead back to themselves, which is what the greatest
relation `Conforming` allows.  A no is right unless the check ran out of room on the way.

Questions are recognized by their texts.  Two questions with one text are taken for each other,
and then a yes may be wrong.

## Key results

- `judges_sound`: under assumptions, a yes is a derivation from what conforms up to them
- `judges_complete`: a no without refused calls means that the shapes are not related
-/

namespace TypeShape

namespace Registry

/-- Whether the questions about protocols that were asked are told apart by their texts. -/
def QuestionsDistinct (r : Registry) (calls : List Call) : Prop :=
  ∀ c ∈ calls, ∀ d ∈ calls, r.isProtocol c.tmpl = true → r.isProtocol d.tmpl = true →
    conformanceKey c.inst c.tmpl = conformanceKey d.inst d.tmpl → c.inst = d.inst ∧ c.tmpl = d.tmpl

/-- The questions among those asked that are assumed to hold. -/
def Granted (r : Registry) (calls : List Call) (assumed : List Text) (inst tmpl : Shape) : Prop :=
  conformanceKey inst tmpl ∈ assumed ∧ r.isProtocol tmpl = true ∧
    ∃ c ∈ calls, c.inst = inst ∧ c.tmpl = tmpl

variable {r : Registry} {see : View} {calls : List Call}

/-- Without assumptions nothing is granted. -/
theorem granted_nil : r.Granted calls [] = ⊥ := by
  funext inst tmpl
  simp [Granted]

/-- Assuming one more question grants only that question. -/
theorem granted_cons (hdist : r.QuestionsDistinct calls) {assumed : List Text} {inst tmpl : Shape}
    (hprot : r.isProtocol tmpl = true) (hasked : ∃ c ∈ calls, c.inst = inst ∧ c.tmpl = tmpl)
    {a b : Shape} (h : r.Granted calls (conformanceKey inst tmpl :: assumed) a b) :
    r.Granted calls assumed a b ∨ (a = inst ∧ b = tmpl) := by
  obtain ⟨hkey, hprot', d, hd, rfl, rfl⟩ := h
  obtain ⟨c, hc, rfl, rfl⟩ := hasked
  obtain hkey | hkey := List.mem_cons.1 hkey
  · exact .inr (hdist d hd c hc hprot' hprot hkey)
  · exact .inl ⟨hkey, hprot', d, hd, rfl, rfl⟩

/-- Under assumptions, a check answers yes only if the shapes are derived from what conforms up to
the assumptions. -/
theorem judges_sound (hdist : r.QuestionsDistinct calls) (room : Nat) (assumed : List Text)
    (inst tmpl : Shape) :
    Judges (· ∈ calls) see (r.subtypeNoted room assumed inst tmpl)
      (r.Derives see (r.ConformingUpTo see (r.Granted calls assumed) ⊔ r.Granted calls assumed)
        inst tmpl) False := by
  -- By induction on the room, for all assumptions, since comparing members adds one.
  induction room generalizing assumed inst tmpl with
  | zero => exact judges_subtypeNoted_zero r fun _ => id
  | succ room ih =>
    refine judges_subtypeNoted_succ r fun hcall => ?_
    have hasked : ∃ c ∈ calls, c.inst = inst ∧ c.tmpl = tmpl := ⟨_, hcall, rfl, rfl⟩
    have hconf : r.isProtocol tmpl = true → Judges (· ∈ calls) see
        (r.conformsAssuming (r.subtypeNoted room) assumed inst tmpl)
        ((r.ConformingUpTo see (r.Granted calls assumed) ⊔ r.Granted calls assumed) inst tmpl)
        False := by
      intro hprot
      simp only [conformsAssuming]
      split
      · exact .of_stuck
      · split
        · -- The text is assumed, and no other question among those asked has it.
          rename_i hkey
          exact .of_true (.inr ⟨List.contains_iff_mem.1 hkey, hprot, hasked⟩)
        · -- The members were compared with this question assumed as well.
          refine (judges_conformsWith r (ih _) inst tmpl).imp (fun hc => .inl ?_) False.elim
          exact conformingUpTo_accumulate (fun a b => granted_cons hdist hprot hasked) hc
    exact (judges_subtypeStep r (D := fun _ _ => False) (ih assumed) hconf).imp derives_rule
      False.elim

/-- A check that is never refused for want of room answers no only if the shapes are not related. -/
theorem judges_complete (room : Nat) (assumed : List Text) (inst tmpl : Shape) :
    Judges (·.room ≠ 0) see (r.subtypeNoted room assumed inst tmpl) True
      (r.Sub see inst tmpl) := by
  -- The same induction for the other direction; only the top level may refuse.
  induction room generalizing assumed inst tmpl with
  | zero => exact judges_subtypeNoted_zero r fun h => absurd rfl h
  | succ room ih =>
    refine judges_subtypeNoted_succ r fun _ => ?_
    have hconf : r.isProtocol tmpl = true → Judges (·.room ≠ 0) see
        (r.conformsAssuming (r.subtypeNoted room) assumed inst tmpl) True
        (r.Conforming see inst tmpl) := by
      intro _
      simp only [conformsAssuming]
      split
      · exact .of_stuck
      · split
        · -- An assumption only gives a yes, which is not at stake here.
          exact .of_true trivial
        · exact (judges_conformsWith r (ih _) inst tmpl).imp (fun _ => trivial) conforming_conforms
    exact (judges_subtypeStep r (C := fun _ _ => True) (ih assumed) hconf).imp (fun _ => trivial)
      derives_iff_rule.1

end Registry

/-! ## Telling questions apart -/

/-- The shapes met in a run. -/
def metShapes (calls : List Call) : List Shape :=
  calls.flatMap fun c => [c.inst, c.tmpl]

/-- Whether the shapes met in a run are told apart by their texts. -/
def TextsDistinct (calls : List Call) : Prop :=
  ∀ s ∈ metShapes calls, ∀ t ∈ metShapes calls, s.render = t.render → s = t

/-- Shapes are told apart if all that are met are in a list with different texts. -/
theorem textsDistinct_of_nodup {calls : List Call} {shapes : List Shape}
    (hmet : ∀ s ∈ metShapes calls, s ∈ shapes) (hnodup : (shapes.map Shape.render).Nodup) :
    TextsDistinct calls :=
  fun _ hs _ ht h => List.inj_on_of_nodup_map hnodup (hmet _ hs) (hmet _ ht) h

/-- Questions are told apart if shapes are, and if no text has the sign that stands between the two
shapes of a question. -/
theorem TextsDistinct.questionsDistinct {r : Registry} {calls : List Call} (h : TextsDistinct calls)
    (hsign : ∀ s ∈ metShapes calls, Text.byte '<' ∉ s.render) : r.QuestionsDistinct calls := by
  intro c hc d hd _ _ hkey
  have hmet : ∀ c ∈ calls, c.inst ∈ metShapes calls ∧ c.tmpl ∈ metShapes calls := fun c hc =>
    ⟨List.mem_flatMap.2 ⟨c, hc, by simp⟩, List.mem_flatMap.2 ⟨c, hc, by simp⟩⟩
  -- The sign occurs once in each question, so both fall apart at the same place.
  have hsplit : ∀ c : Call, Registry.conformanceKey c.inst c.tmpl =
      (c.inst.render ++ text " ") ++ Text.byte '<' :: (text ": " ++ c.tmpl.render) := by
    intro c
    simp [Registry.conformanceKey, text, Text.byte]
  have hfree : ∀ c ∈ calls, Text.byte '<' ∉ c.inst.render ++ text " " ∧
      Text.byte '<' ∉ text ": " ++ c.tmpl.render := by
    intro c hc
    have hspace : Text.byte '<' ∉ text " " := by decide
    have hcolon : Text.byte '<' ∉ text ": " := by decide
    simp only [List.mem_append, not_or]
    exact ⟨⟨hsign _ (hmet c hc).1, hspace⟩, hcolon, hsign _ (hmet c hc).2⟩
  rw [hsplit c, hsplit d, List.append_cons_inj_of_notMem (hfree c hc).1 (hfree c hc).2] at hkey
  obtain ⟨hinst, -, htmpl⟩ := hkey
  exact ⟨h _ (hmet c hc).1 _ (hmet d hd).1 (List.append_cancel_right hinst),
    h _ (hmet c hc).2 _ (hmet d hd).2 (List.append_cancel_left htmpl)⟩

namespace Engine

variable (e : Engine) (inst tmpl : Shape) {see : View}

/-- A yes of the engine is right if the run tells questions apart.  A run that is never refused for
want of room and does not break off is right in both ways; between whole shapes no run breaks
off. -/
theorem isSubtype_iff_sub (hsee : see.Agrees (e.subtypeRun inst tmpl).memo)
    (hdist : e.registry.QuestionsDistinct (e.subtypeRun inst tmpl).calls) :
    ((e.isSubtype inst tmpl).1 = true → e.registry.Sub see inst tmpl) ∧
    (WithinRoom (e.subtypeRun inst tmpl).calls → (e.subtypeRun inst tmpl).answer ≠ none →
      ((e.isSubtype inst tmpl).1 = true ↔ e.registry.Sub see inst tmpl)) ∧
    (e.memo.IsWhole → inst.isWhole = true → tmpl.isWhole = true →
      (e.subtypeRun inst tmpl).answer ≠ none) := by
  have hreplay := e.replay_subtypeRun inst tmpl hsee
  have hanswer : (e.isSubtype inst tmpl).1 = (e.subtypeRun inst tmpl).answer.getD false := by
    rw [isSubtype_eq_subtypeRun]
  have hsound : (e.isSubtype inst tmpl).1 = true → e.registry.Sub see inst tmpl := by
    -- A run that broke off answers no, so behind a yes there is an answer of the checks.
    intro hyes
    cases ha : (e.subtypeRun inst tmpl).answer with
    | none => simp [hanswer, ha] at hyes
    | some b =>
      rw [ha] at hreplay
      have hb : b = true := by simpa [hanswer, ha] using hyes
      have hderives := (Registry.judges_sound hdist (maxRecursion + 1) [] inst tmpl _ b hreplay
        fun _ hc => hc).1 hb
      rwa [Registry.granted_nil, sup_bot_eq] at hderives
  refine ⟨hsound, fun hroom hans => ⟨hsound, fun hsub => ?_⟩, fun hmemo hi ht => ?_⟩
  -- Were the answer no, completeness would deny the relation that is given.
  · obtain ⟨b, hb⟩ := Option.ne_none_iff_exists'.1 hans
    rw [hb] at hreplay
    have hno := (Registry.judges_complete (r := e.registry) (maxRecursion + 1) [] inst tmpl _ b
      hreplay hroom).2
    cases b with
    | true => simp [hanswer, hb]
    | false => exact absurd hsub (hno rfl)
  · obtain ⟨b, hb⟩ := e.subtypeRun_answers hmemo hi ht
    simp [hb]

/-- An engine that knows the builtin classes and some more. -/
def knowing (classes : List Class) : Engine where
  registry := { Registry.builtin with
    classes := Registry.builtin.classes ++ classes.map fun c => (c.name, c) }

/-- A class and a protocol that refer to themselves. -/
def farm : Engine := .knowing
  [{ name := text "Cloneable", kind := .protocol,
     members := [⟨text "clone", .callable [] (.con (text "Cloneable")) false⟩] },
   { name := text "Sheep", members := [⟨text "clone", .callable [] (.con (text "Sheep")) false⟩] }]

/-- Cloning a sheep gives a sheep, so a sheep can be cloned: the yes rests on itself. -/
theorem sheep_sub_cloneable :
    (farm.isSubtype (.leaf (text "Sheep")) (.leaf (text "Cloneable"))).1 = true ∧
      farm.registry.Sub
        (farm.subtypeRun (.leaf (text "Sheep")) (.leaf (text "Cloneable"))).memo.view
        (.leaf (text "Sheep")) (.leaf (text "Cloneable")) := by
  -- The shapes that the check meets are told apart by their texts, so the relation decides.
  have hmet : metShapes (farm.subtypeRun (.leaf (text "Sheep")) (.leaf (text "Cloneable"))).calls =
      [.leaf (text "Sheep"), .leaf (text "Cloneable"), .callableOf [] (.leaf (text "Sheep")),
        .callableOf [] (.leaf (text "Cloneable")), .leaf (text "Sheep"),
        .leaf (text "Cloneable")] := rfl
  have hdistinct : ([.leaf (text "Sheep"), .leaf (text "Cloneable"),
      .callableOf [] (.leaf (text "Sheep")), .callableOf [] (.leaf (text "Cloneable"))].map
        Shape.render).Nodup := by decide
  have htexts : TextsDistinct
      (farm.subtypeRun (.leaf (text "Sheep")) (.leaf (text "Cloneable"))).calls :=
    textsDistinct_of_nodup (by simp [hmet]) hdistinct
  have hyes : (farm.isSubtype (.leaf (text "Sheep")) (.leaf (text "Cloneable"))).1 = true := by
    decide
  exact ⟨hyes, (farm.isSubtype_iff_sub _ _ (Memo.view_agrees _)
    (htexts.questionsDistinct (by rw [hmet]; decide))).1 hyes⟩

/-- Classes whose names hold the sign between the two shapes of a question. -/
def ambiguous : Engine := .knowing
  [{ name := text "A <: B" },
   { name := text "C", kind := .protocol, members := [⟨text "z", .con Name.int⟩] },
   { name := text "B <: C", kind := .protocol, members := [⟨text "m", .con (text "C")⟩] },
   { name := text "A", members := [⟨text "m", .con (text "A <: B")⟩] }]

/-- A class without members, and a protocol that wants one. -/
def boxes : Engine := .knowing
  [{ name := text "Sized", kind := .protocol, members := [⟨text "size", .con Name.int⟩] },
   { name := text "Box" }]

/-- A box with a hole in it. -/
def leakyBox : Shape := .applied (.plain .nominal (text "Box")) [.single (.bare .hole)]

/-- The question whether `A <: B` is a `C` is taken for the question whether `A` is a `B <: C`,
which is being answered, and gets a wrong yes although all shapes met have texts of their own.  A
hole breaks off a run that would have come to a yes. -/
theorem isSubtype_not_iff_sub :
    (TextsDistinct (ambiguous.subtypeRun (.leaf (text "A")) (.leaf (text "B <: C"))).calls ∧
      (ambiguous.isSubtype (.leaf (text "A")) (.leaf (text "B <: C"))).1 = true ∧
      ¬ ambiguous.registry.Sub
        (ambiguous.subtypeRun (.leaf (text "A")) (.leaf (text "B <: C"))).memo.view
        (.leaf (text "A")) (.leaf (text "B <: C"))) ∧
    (WithinRoom (boxes.subtypeRun leakyBox
        (.unionOf [.leaf (text "Sized"), .leaf (text "Box")])).calls ∧
      (boxes.isSubtype leakyBox (.unionOf [.leaf (text "Sized"), .leaf (text "Box")])).1 = false ∧
      boxes.registry.Sub TypeExpr.reduce leakyBox
        (.unionOf [.leaf (text "Sized"), .leaf (text "Box")])) := by
  refine ⟨⟨?_, by decide, fun h => ?_⟩, ?_, by decide, ?_⟩
  · have hmet : metShapes (ambiguous.subtypeRun (.leaf (text "A")) (.leaf (text "B <: C"))).calls =
      [.leaf (text "A"), .leaf (text "B <: C"), .leaf (text "A <: B"), .leaf (text "C")] := rfl
    exact textsDistinct_of_nodup (fun _ hs => hs) (by rw [hmet]; decide)
  · -- The member of `A` would have to be a `C`, and the run on that question alone says no.
    have hno : ¬ ambiguous.registry.Sub
        (ambiguous.subtypeRun (.leaf (text "A")) (.leaf (text "B <: C"))).memo.view
        (.leaf (text "A <: B")) (.leaf (text "C")) :=
      (Registry.judges_complete (maxRecursion + 1) [] _ _
        [⟨257, .leaf (text "A <: B"), .leaf (text "C")⟩] false rfl (by simp)).2 rfl
    -- Neither names nor bases relate the two, so only the members of the protocol could.
    obtain hfits | ⟨-, hconf⟩ := (Registry.derives_iff_rule.1 h).nominal_or_conforms (by decide)
      (by decide) rfl rfl
    · obtain ho | ⟨ho, -⟩ := hfits
      · exact absurd ho (by decide)
      · exact absurd ho (by decide)
    · obtain ⟨wanted, found, hwanted, hfound, hall⟩ := Registry.conforming_conforms hconf
      cases hwanted
      cases hfound
      obtain ⟨own, hown, hsub⟩ := hall _ List.mem_cons_self rfl
      cases hown
      exact hno hsub
  · have hcalls : (boxes.subtypeRun leakyBox
        (.unionOf [.leaf (text "Sized"), .leaf (text "Box")])).calls =
      [⟨257, leakyBox, .unionOf [.leaf (text "Sized"), .leaf (text "Box")]⟩,
        ⟨256, leakyBox, .leaf (text "Sized")⟩] := rfl
    rw [hcalls]
    simp [WithinRoom]
  · have hbox : boxes.registry.Sub TypeExpr.reduce leakyBox (.leaf (text "Box")) :=
      Registry.derives_rule (.nominal rfl rfl (.inr ⟨by decide, .inl rfl⟩))
    exact Registry.derives_rule (.someBranch rfl rfl
      (List.mem_cons_of_mem _ List.mem_cons_self) hbox)

end Engine

end TypeShape
