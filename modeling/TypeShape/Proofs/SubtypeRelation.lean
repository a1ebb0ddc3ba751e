import Mathlib.Data.List.Forall2
import Mathlib.Order.ConditionallyCompleteLattice.Basic
import Mathlib.Order.FixedPoints
import TypeShape.Proofs.SubtypeRun

/-!
# The subtype relation

The subtype check, read as rules.  `Rule` is one application of a rule, given which pairs of
shapes are taken to be related one level deeper and which conformances to protocols are taken to
hold.  `Derives` is what follows from the rules in finitely many steps.  Conformance to a protocol
may be assumed while it is being shown, so it is the greatest relation under which every
conforming shape has the members of the protocol (`Conforming`).  The subtype relation `Sub` is
what can be derived from that.  It knows neither a limit on the depth nor a set of assumptions.

## Key results

- `derives_rule`, `derives_induction`: `Derives` is the least relation closed under the rules
- `conforming_coinduction`: whatever justifies itself member by member is a conformance
- `conformingUpTo_accumulate`: a conformance may be assumed while its members are looked at
-/

namespace TypeShape

namespace Shape

/-- Whether a shape is neither a union nor a variable nor a hole. -/
def isSolid (s : Shape) : Bool :=
  !s.isHole && !s.isUnion && s.var?.isNone

/-- What makes a shape solid: it is no hole, no union and no variable. -/
theorem isSolid_iff {s : Shape} :
    s.isSolid = true ↔ s.isHole = false ∧ s.isUnion = false ∧ s.var? = none := by
  simp [isSolid, and_assoc]

/-- A union is no hole. -/
theorem isHole_of_isUnion {s : Shape} (h : s.isUnion = true) : s.isHole = false := by
  unfold isUnion hasKind at h
  unfold isHole
  cases hs : s.origin <;> simp_all [Origin.kind?]

/-- A variable is no hole. -/
theorem isHole_of_var? {s : Shape} {v : TypeVar} (h : s.var? = some v) : s.isHole = false := by
  unfold var? at h
  unfold isHole
  cases hs : s.origin <;> simp_all

/-- A variable is no union. -/
theorem isUnion_of_var? {s : Shape} {v : TypeVar} (h : s.var? = some v) : s.isUnion = false := by
  unfold var? at h
  unfold isUnion hasKind
  cases hs : s.origin <;> simp_all [Origin.kind?]

/-- The wildcard is no hole. -/
theorem isHole_of_isAny {s : Shape} (h : s.isAny = true) : s.isHole = false := by
  unfold isAny hasKind at h
  unfold isHole
  cases hs : s.origin <;> simp_all [Origin.kind?]

end Shape

/-- The expressions that restrict what a variable may stand for.  An omitted bound is the
wildcard. -/
def TypeVar.restrictions (v : TypeVar) : List TypeExpr :=
  v.bound :: v.constraints

namespace Registry

/-- The shape of an expression as it is seen, its aliases expanded. -/
def shapeSeen (r : Registry) (see : View) (t : TypeExpr) : Shape :=
  (see (r.expandAliases t)).shape

/-- The members of a shape's class, inherited ones included, as their types are seen. -/
def membersSeen (r : Registry) (see : View) (s : Shape) : Except Error (List MemberShape) :=
  (r.memberShapes s [] : Seeing _).run see

/-! ## The rules -/

section Rules

variable (r : Registry) (see : View) (sub conf : Shape → Shape → Prop)

/-- A slot fits a slot of a template: the wildcard takes every slot, other single slots and groups
are compared shape by shape. -/
def SlotFits : Slot → Slot → Prop
  | .single i, .single t => t.isAny = true ∨ sub i t
  | .group _, .single t => t.isAny = true
  | .group is, .group ts => List.Forall₂ sub is ts
  | .single _, .group _ => False

/-- A shape fits a template by inheritance and slot by slot.  A bare template takes all slots. -/
def NominallyFits (inst tmpl : Shape) : Prop :=
  tmpl.isObject = true ∨ r.originSatisfies inst tmpl = true ∧
    (tmpl.isParameterized = false ∨
      inst.isParameterized = true ∧ List.Forall₂ (SlotFits sub) inst.slots tmpl.slots)

/-- A shape is one that a variable may stand for: it is below the bound and below some
constraint. -/
def Admits (inst : Shape) (v : TypeVar) : Prop :=
  (v.bound.isOmitted = true ∨ sub inst (r.shapeSeen see v.bound)) ∧
    (v.constraints = [] ∨ ∃ c ∈ v.constraints, sub inst (r.shapeSeen see c))

/-- Whatever a variable stands for is below a template, because its bound is or all of its
constraints are. -/
def KnownBelow (v : TypeVar) (tmpl : Shape) : Prop :=
  tmpl.isObject = true ∨ (v.bound.isOmitted = false ∧ sub (r.shapeSeen see v.bound) tmpl) ∨
    (v.constraints ≠ [] ∧ ∀ c ∈ v.constraints, sub (r.shapeSeen see c) tmpl)

/-- A shape has every public member of a protocol, with a type below that of the protocol. -/
def Conforms (inst tmpl : Shape) : Prop :=
  ∃ wanted found, r.membersSeen see tmpl = .ok wanted ∧ r.membersSeen see inst = .ok found ∧
    ∀ member ∈ wanted, isPrivateName member.name = false →
      ∃ own, found.find? (·.name == member.name) = some own ∧ sub own.shape member.shape

/-- The rules of subtyping.  A union on the left, a variable on the right, a variable on the left
and a union on the right are each decided by their own rule, in this order. -/
inductive Rule : Shape → Shape → Prop where
  | any {inst tmpl : Shape} : inst.isHole = false → tmpl.isAny = true → Rule inst tmpl
  | same {inst tmpl : Shape} :
    inst.isHole = false → tmpl.isHole = false → inst.same tmpl = true → Rule inst tmpl
  | everyBranch {inst tmpl : Shape} : inst.isUnion = true → tmpl.isHole = false →
    (∀ b ∈ inst.branches, sub b tmpl) → Rule inst tmpl
  | intoVar {inst tmpl : Shape} {v : TypeVar} :
    inst.isHole = false → inst.isUnion = false → tmpl.var? = some v →
    r.Admits see sub inst (r.declarationOf v) → Rule inst tmpl
  | ofVar {inst tmpl : Shape} {v : TypeVar} :
    inst.var? = some v → tmpl.isHole = false → tmpl.var? = none →
    r.KnownBelow see sub (r.declarationOf v) tmpl → Rule inst tmpl
  | someBranch {inst tmpl b : Shape} : inst.isSolid = true → tmpl.isUnion = true →
    b ∈ tmpl.branches → sub inst b → Rule inst tmpl
  | nominal {inst tmpl : Shape} : inst.isSolid = true → tmpl.isSolid = true →
    r.NominallyFits sub inst tmpl → Rule inst tmpl
  | conforms {inst tmpl : Shape} : inst.isSolid = true → tmpl.isSolid = true →
    r.isProtocol tmpl = true → conf inst tmpl → Rule inst tmpl

end Rules

variable {r : Registry} {see : View} {sub sub' conf conf' : Shape → Shape → Prop}

/-! ### What a rule asks about -/

/-- The pairs of shapes that are compared one level deeper when `inst` is compared with `tmpl`, the
members of protocols apart. -/
inductive Asks (r : Registry) (see : View) (inst tmpl : Shape) : Shape → Shape → Prop where
  | branch {b : Shape} : inst.isUnion = true → b ∈ inst.branches → Asks r see inst tmpl b tmpl
  | intoVar {v : TypeVar} {t : TypeExpr} : tmpl.var? = some v →
    t ∈ (r.declarationOf v).restrictions → Asks r see inst tmpl inst (r.shapeSeen see t)
  | ofVar {v : TypeVar} {t : TypeExpr} : inst.var? = some v →
    t ∈ (r.declarationOf v).restrictions → Asks r see inst tmpl (r.shapeSeen see t) tmpl
  | option {b : Shape} : tmpl.isUnion = true → b ∈ tmpl.branches → Asks r see inst tmpl inst b
  | slot {a b : Shape} : a ∈ Shape.slotShapes inst.slots → b ∈ Shape.slotShapes tmpl.slots →
    Asks r see inst tmpl a b

/-- Slots fit as well when more of the shapes in them are related. -/
theorem forall₂_slotFits_imp {is ts : List Slot}
    (h : ∀ a ∈ Shape.slotShapes is, ∀ b ∈ Shape.slotShapes ts, sub a b → sub' a b)
    (hf : List.Forall₂ (SlotFits sub) is ts) : List.Forall₂ (SlotFits sub') is ts := by
  -- By induction on the slots; in each of them the pairs looked at are among those of the lists.
  induction hf with
  | nil => exact .nil
  | @cons i t is ts hslot _ ih =>
    refine .cons ?_ (ih fun a ha b hb => h a ?_ b ?_)
    · cases i with
      | single i =>
        cases t with
        | single t => exact Or.imp_right (h i (by simp) t
            (by simp)) hslot
        | group ts => exact hslot
      | group is =>
        cases t with
        | single t => exact hslot
        | group ts =>
          -- Groups are compared member by member, and the pairs of the zip are members of both.
          obtain ⟨hlen, hzip⟩ := List.forall₂_iff_zip.1 hslot
          refine List.forall₂_iff_zip.2 ⟨hlen, fun {a b} hab => ?_⟩
          obtain ⟨ha, hb⟩ := List.of_mem_zip hab
          exact h a (by simp [ha]) b (by simp [hb]) (hzip hab)
    · cases i <;> simp [ha]
    · cases t <;> simp [hb]

/-- A shape fits by name and slots as well when more of the shapes in the slots are related. -/
theorem NominallyFits.imp {inst tmpl : Shape}
    (h : ∀ a ∈ Shape.slotShapes inst.slots, ∀ b ∈ Shape.slotShapes tmpl.slots, sub a b → sub' a b)
    (hf : r.NominallyFits sub inst tmpl) : r.NominallyFits sub' inst tmpl := by
  obtain ho | ⟨ho, hp | ⟨hp, hslots⟩⟩ := hf
  · exact .inl ho
  · exact .inr ⟨ho, .inl hp⟩
  · exact .inr ⟨ho, .inr ⟨hp, forall₂_slotFits_imp h hslots⟩⟩

/-- A shape conforms as well when more shapes are related. -/
theorem Conforms.mono (h : ∀ a b, sub a b → sub' a b) {inst tmpl : Shape}
    (hc : r.Conforms see sub inst tmpl) : r.Conforms see sub' inst tmpl := by
  obtain ⟨wanted, found, hwanted, hfound, hall⟩ := hc
  refine ⟨wanted, found, hwanted, hfound, fun member hm hpublic => ?_⟩
  obtain ⟨own, hown, hsub⟩ := hall member hm hpublic
  exact ⟨own, hown, h _ _ hsub⟩

/-- A rule applies as well when more of the pairs it asks about are related. -/
theorem Rule.imp {inst tmpl : Shape} (h : ∀ a b, r.Asks see inst tmpl a b → sub a b → sub' a b)
    (hc : r.isProtocol tmpl = true → conf inst tmpl → conf' inst tmpl)
    (hr : r.Rule see sub conf inst tmpl) : r.Rule see sub' conf' inst tmpl := by
  -- Each rule asks about the pairs that `Asks` lists for it.
  cases hr with
  | any hi ht => exact .any hi ht
  | same hi ht hs => exact .same hi ht hs
  | everyBranch hi ht hall => exact .everyBranch hi ht fun b hb => h _ _ (.branch hi hb) (hall b hb)
  | intoVar hi hu hv ha =>
    refine .intoVar hi hu hv ⟨ha.1.imp_right (h _ _ (.intoVar hv List.mem_cons_self)),
      ha.2.imp_right ?_⟩
    rintro ⟨c, hc, hsub⟩
    exact ⟨c, hc, h _ _ (.intoVar hv (List.mem_cons_of_mem _ hc)) hsub⟩
  | ofVar hv ht htv hk =>
    refine .ofVar hv ht htv (hk.imp_right (Or.imp ?_ ?_))
    · exact fun hb => ⟨hb.1, h _ _ (.ofVar hv List.mem_cons_self) hb.2⟩
    · refine fun hcs => ⟨hcs.1, fun c hc => ?_⟩
      exact h _ _ (.ofVar hv (List.mem_cons_of_mem _ hc)) (hcs.2 c hc)
  | someBranch hi ht hb hsub => exact .someBranch hi ht hb (h _ _ (.option ht hb) hsub)
  | nominal hi ht hf =>
    exact .nominal hi ht (hf.imp fun a ha b hb => h a b (.slot ha hb))
  | conforms hi ht hp hconf => exact .conforms hi ht hp (hc hp hconf)

/-- More related pairs and more conformances let the same rules apply. -/
theorem Rule.mono (h : ∀ a b, sub a b → sub' a b) {inst tmpl : Shape}
    (hc : conf inst tmpl → conf' inst tmpl) (hr : r.Rule see sub conf inst tmpl) :
    r.Rule see sub' conf' inst tmpl :=
  hr.imp (fun a b _ => h a b) fun _ => hc

/-! ### Which rule applies

Shapes that are not related at once, because the template is the wildcard or the same as the
instance, are related by the rule for their roots. -/

namespace Rule

variable {inst tmpl : Shape} {v : TypeVar}

/-- The instance is a union. -/
theorem branches_of_isUnion (h : r.Rule see sub conf inst tmpl) (hany : ¬ tmpl.isAny = true)
    (hsame : ¬ inst.same tmpl = true) (hu : inst.isUnion = true) :
    ∀ b ∈ inst.branches, sub b tmpl := by
  -- Of the rules, only the one for every branch has a union as instance.
  cases h with
  | any _ ht => exact absurd ht hany
  | same _ _ hs => exact absurd hs hsame
  | everyBranch _ _ hall => exact hall
  | intoVar _ hu' => simp [hu] at hu'
  | ofVar hv => simp [Shape.isUnion_of_var? hv] at hu
  | someBranch hi => simp [hu, Shape.isSolid_iff] at hi
  | nominal hi => simp [hu, Shape.isSolid_iff] at hi
  | conforms hi => simp [hu, Shape.isSolid_iff] at hi

/-- The template is a variable, the instance no union. -/
theorem admits_of_var? (h : r.Rule see sub conf inst tmpl) (hany : ¬ tmpl.isAny = true)
    (hsame : ¬ inst.same tmpl = true) (hu : ¬ inst.isUnion = true) (hv : tmpl.var? = some v) :
    r.Admits see sub inst (r.declarationOf v) := by
  -- Every other rule asks for a template or an instance of another kind.
  cases h with
  | any _ ht => exact absurd ht hany
  | same _ _ hs => exact absurd hs hsame
  | everyBranch hu' => exact absurd hu' hu
  | intoVar _ _ hv' ha =>
    rw [hv] at hv'
    cases hv'
    exact ha
  | ofVar _ _ htv => simp [hv] at htv
  | someBranch _ ht => simp [Shape.isUnion_of_var? hv] at ht
  | nominal _ ht => simp [hv, Shape.isSolid_iff] at ht
  | conforms _ ht => simp [hv, Shape.isSolid_iff] at ht

/-- The instance is a variable, the template is none. -/
theorem knownBelow_of_var? (h : r.Rule see sub conf inst tmpl) (hany : ¬ tmpl.isAny = true)
    (hsame : ¬ inst.same tmpl = true) (hv : inst.var? = some v) (htv : tmpl.var? = none) :
    r.KnownBelow see sub (r.declarationOf v) tmpl := by
  -- No other rule takes a variable on the left unless the template is one too.
  cases h with
  | any _ ht => exact absurd ht hany
  | same _ _ hs => exact absurd hs hsame
  | everyBranch hu => simp [Shape.isUnion_of_var? hv] at hu
  | intoVar _ _ hv' => simp [htv] at hv'
  | ofVar hv' _ _ hk =>
    rw [hv] at hv'
    cases hv'
    exact hk
  | someBranch hi => simp [hv, Shape.isSolid_iff] at hi
  | nominal hi => simp [hv, Shape.isSolid_iff] at hi
  | conforms hi => simp [hv, Shape.isSolid_iff] at hi

/-- The template is a union, the instance neither union nor variable. -/
theorem branch_of_isUnion (h : r.Rule see sub conf inst tmpl) (hany : ¬ tmpl.isAny = true)
    (hsame : ¬ inst.same tmpl = true) (hi : inst.isSolid = true) (hu : tmpl.isUnion = true) :
    ∃ b ∈ tmpl.branches, sub inst b := by
  obtain ⟨-, hiu, hiv⟩ := Shape.isSolid_iff.1 hi
  -- All rules but one for solid instances exclude unions.
  cases h with
  | any _ ht => exact absurd ht hany
  | same _ _ hs => exact absurd hs hsame
  | everyBranch hu' => simp [hiu] at hu'
  | intoVar _ _ hv => simp [Shape.isUnion_of_var? hv] at hu
  | ofVar hv => simp [hiv] at hv
  | someBranch _ _ hb hsub => exact ⟨_, hb, hsub⟩
  | nominal _ ht => simp [hu, Shape.isSolid_iff] at ht
  | conforms _ ht => simp [hu, Shape.isSolid_iff] at ht

/-- Neither side is a union or a variable. -/
theorem nominal_or_conforms (h : r.Rule see sub conf inst tmpl) (hany : ¬ tmpl.isAny = true)
    (hsame : ¬ inst.same tmpl = true) (hi : inst.isSolid = true) (ht : tmpl.isSolid = true) :
    r.NominallyFits sub inst tmpl ∨ (r.isProtocol tmpl = true ∧ conf inst tmpl) := by
  obtain ⟨-, hiu, hiv⟩ := Shape.isSolid_iff.1 hi
  obtain ⟨-, htu, htv⟩ := Shape.isSolid_iff.1 ht
  -- Solid shapes leave only the two rules for names and for protocols.
  cases h with
  | any _ ht => exact absurd ht hany
  | same _ _ hs => exact absurd hs hsame
  | everyBranch hu => simp [hiu] at hu
  | intoVar _ _ hv => simp [htv] at hv
  | ofVar hv => simp [hiv] at hv
  | someBranch _ hu => simp [htu] at hu
  | nominal _ _ hf => exact .inl hf
  | conforms _ _ hp hc => exact .inr ⟨hp, hc⟩

/-- Holes are related to nothing. -/
theorem not_isHole (h : r.Rule see sub conf inst tmpl) :
    inst.isHole = false ∧ tmpl.isHole = false := by
  cases h with
  | any hi ht => exact ⟨hi, Shape.isHole_of_isAny ht⟩
  | same hi ht => exact ⟨hi, ht⟩
  | everyBranch hu ht => exact ⟨Shape.isHole_of_isUnion hu, ht⟩
  | intoVar hi _ hv => exact ⟨hi, Shape.isHole_of_var? hv⟩
  | ofVar hv ht => exact ⟨Shape.isHole_of_var? hv, ht⟩
  | someBranch hi hu => exact ⟨(Shape.isSolid_iff.1 hi).1, Shape.isHole_of_isUnion hu⟩
  | nominal hi ht => exact ⟨(Shape.isSolid_iff.1 hi).1, (Shape.isSolid_iff.1 ht).1⟩
  | conforms hi ht => exact ⟨(Shape.isSolid_iff.1 hi).1, (Shape.isSolid_iff.1 ht).1⟩

end Rule

/-! ## Derivations -/

/-- One round of the rules, as a monotone function of the pairs that are related already. -/
def ruleRound (r : Registry) (see : View) (conf : Shape → Shape → Prop) :
    (Shape → Shape → Prop) →o (Shape → Shape → Prop) where
  toFun sub := r.Rule see sub conf
  monotone' _ _ h _ _ := Rule.mono h id

/-- What the rules derive in finitely many steps from the conformances `conf`. -/
def Derives (r : Registry) (see : View) (conf : Shape → Shape → Prop) : Shape → Shape → Prop :=
  (r.ruleRound see conf).lfp

/-- A pair is derived exactly if a rule applies to derived pairs. -/
theorem derives_iff_rule {inst tmpl : Shape} :
    r.Derives see conf inst tmpl ↔ r.Rule see (r.Derives see conf) conf inst tmpl :=
  iff_of_eq (congrFun (congrFun (r.ruleRound see conf).map_lfp.symm inst) tmpl)

/-- What a rule gives from derivations is derived. -/
theorem derives_rule {inst tmpl : Shape} (h : r.Rule see (r.Derives see conf) conf inst tmpl) :
    r.Derives see conf inst tmpl :=
  derives_iff_rule.2 h

/-- A relation that is closed under the rules holds of all that is derived. -/
theorem derives_induction {motive : Shape → Shape → Prop}
    (h : ∀ inst tmpl, r.Rule see motive conf inst tmpl → motive inst tmpl) {inst tmpl : Shape}
    (hd : r.Derives see conf inst tmpl) : motive inst tmpl :=
  (r.ruleRound see conf).lfp_le h inst tmpl hd

/-- More conformances give more derivations. -/
theorem Derives.mono (h : ∀ a b, conf a b → conf' a b) {inst tmpl : Shape}
    (hd : r.Derives see conf inst tmpl) : r.Derives see conf' inst tmpl :=
  derives_induction (fun _ _ hr => derives_rule (hr.mono (fun _ _ h => h) (h _ _))) hd

/-! ## Conformance -/

/-- The pairs that have their members related by derivations from `conf` and `given`, as a monotone
function of `conf`. -/
def conformRound (r : Registry) (see : View) (given : Shape → Shape → Prop) :
    (Shape → Shape → Prop) →o (Shape → Shape → Prop) where
  toFun conf := r.Conforms see (r.Derives see (conf ⊔ given))
  monotone' _ _ h _ _ := Conforms.mono fun _ _ => Derives.mono (sup_le_sup_right h given)

/-- The conformances that hold when those of `given` are taken for granted: the greatest relation
under which every conforming shape has the members of its protocol. -/
def ConformingUpTo (r : Registry) (see : View) (given : Shape → Shape → Prop) :
    Shape → Shape → Prop :=
  (r.conformRound see given).gfp

/-- The conformances to protocols. -/
def Conforming (r : Registry) (see : View) : Shape → Shape → Prop :=
  r.ConformingUpTo see ⊥

/-- The subtype relation: what the rules derive from the conformances to protocols. -/
def Sub (r : Registry) (see : View) : Shape → Shape → Prop :=
  r.Derives see (r.Conforming see)

variable {given : Shape → Shape → Prop}

/-- A conformance up to what is given holds exactly if the members are related by what follows from
it and from what is given. -/
theorem conformingUpTo_iff {inst tmpl : Shape} :
    r.ConformingUpTo see given inst tmpl ↔
      r.Conforms see (r.Derives see (r.ConformingUpTo see given ⊔ given)) inst tmpl :=
  iff_of_eq (congrFun (congrFun (r.conformRound see given).map_gfp.symm inst) tmpl)

/-- A relation that justifies each of its pairs member by member, from itself and from what is
given, consists of conformances. -/
theorem conforming_coinduction {conf : Shape → Shape → Prop}
    (h : ∀ a b, conf a b → r.Conforms see (r.Derives see (conf ⊔ given)) a b) {inst tmpl : Shape}
    (hc : conf inst tmpl) : r.ConformingUpTo see given inst tmpl :=
  (r.conformRound see given).le_gfp h inst tmpl hc

/-- A conforming shape has the members of its protocol. -/
theorem conforming_conforms {inst tmpl : Shape} (h : r.Conforming see inst tmpl) :
    r.Conforms see (r.Sub see) inst tmpl := by
  refine (conformingUpTo_iff.1 h).mono fun a b => Derives.mono fun a b => ?_
  rintro (hc | hf)
  · exact hc
  · exact hf.elim

/-- To show a conformance, it may be assumed while the members of the shape are looked at. -/
theorem conformingUpTo_accumulate {given' : Shape → Shape → Prop} {inst tmpl : Shape}
    (hgiven : ∀ a b, given' a b → given a b ∨ (a = inst ∧ b = tmpl))
    (h : r.Conforms see (r.Derives see (r.ConformingUpTo see given' ⊔ given')) inst tmpl) :
    r.ConformingUpTo see given inst tmpl := by
  -- The pairs that conform under the assumption, and the new pair, justify each other.
  let both : Shape → Shape → Prop := fun a b =>
    r.ConformingUpTo see given' a b ∨ (a = inst ∧ b = tmpl)
  have weaken : ∀ a b, (r.ConformingUpTo see given' ⊔ given') a b → (both ⊔ given) a b := by
    rintro a b (hc | hg)
    · exact .inl (.inl hc)
    · exact (hgiven a b hg).elim .inr fun he => .inl (.inr he)
  have hboth : ∀ a b, both a b → r.Conforms see (r.Derives see (both ⊔ given)) a b := by
    rintro a b (hc | ⟨rfl, rfl⟩)
    · exact (conformingUpTo_iff.1 hc).mono fun _ _ => Derives.mono weaken
    · exact h.mono fun _ _ => Derives.mono weaken
  exact conforming_coinduction hboth (.inr ⟨rfl, rfl⟩)

end Registry

end TypeShape
