import TypeShape.Matching.Bindings

/-!
# Shapes without holes

Shapes built by hand may have holes, and a computation that needs a node where there is none fails
with an error of its own.  Shapes made from expressions are whole: they have a node wherever one is
looked for.  Printing, building and unifying whole shapes never meets a hole.

## Key results

- `Shape.isWhole_shape`: the shape of an expression is whole
- `Shape.expression_fine`: a whole shape has an expression
- `Registry.unify_fine`: unifying whole shapes never meets a hole
-/

namespace TypeShape

/-- The shapes of a list of expressions, one for each. -/
theorem TypeExpr.shapes_eq_map (ts : List TypeExpr) : shapes ts = ts.map shape := by
  induction ts with
  | nil => rfl
  | cons t ts ih => simp [ih]

namespace Shape

mutual

/-- Whether a shape has a node wherever printing and matching look for one. -/
@[simp] def isWhole : Shape → Bool
  | bare .hole => false
  | bare _ => true
  | applied .hole _ => false
  | applied (.plain .callable _) [.single _, .group _] => false
  | applied _ slots => slotsWhole slots

/-- Whether every shape in a list of slots is whole. -/
@[simp] def slotsWhole : List Slot → Bool
  | [] => true
  | .single s :: rest => s.isWhole && slotsWhole rest
  | .group ss :: rest => areWhole ss && slotsWhole rest

/-- Whether every shape in a list is whole. -/
@[simp] def areWhole : List Shape → Bool
  | [] => true
  | s :: rest => s.isWhole && areWhole rest

end

/-- A list is whole if each of its members is. -/
theorem areWhole_iff {ss : List Shape} : areWhole ss = true ↔ ∀ s ∈ ss, s.isWhole = true := by
  induction ss with
  | nil => simp
  | cons s ss ih => simp [ih]

/-- Slots that hold single shapes are whole if the shapes are. -/
@[simp] theorem slotsWhole_map_single (ss : List Shape) : slotsWhole (ss.map .single) = areWhole ss := by
  induction ss with
  | nil => rfl
  | cons s ss ih => simp [ih]

/-- A whole shape is no hole. -/
theorem isHole_of_isWhole {s : Shape} (h : s.isWhole = true) : s.isHole = false := by
  cases s with
  | bare o => cases o <;> simp_all [isWhole, isHole, origin]
  | applied o slots => cases o <;> simp_all [isWhole, isHole, origin]

/-- The slots of a whole shape are whole. -/
theorem slotsWhole_of_isWhole {s : Shape} (h : s.isWhole = true) : slotsWhole s.slots = true := by
  cases s with
  | bare o => rfl
  | applied o slots =>
    unfold isWhole at h
    split at h <;> simp_all [Shape.slots]

/-- The shapes in whole slots are whole. -/
theorem isWhole_of_mem_slotShapes {slots : List Slot} (h : slotsWhole slots = true) {s : Shape}
    (hs : s ∈ slotShapes slots) : s.isWhole = true := by
  induction slots with
  | nil => simp at hs
  | cons slot rest ih =>
    cases slot with
    | single t =>
      simp only [slotsWhole, Bool.and_eq_true] at h
      obtain rfl | hs := List.mem_cons.1 hs
      · exact h.1
      · exact ih h.2 hs
    | group ts =>
      simp only [slotsWhole, Bool.and_eq_true] at h
      obtain hs | hs := List.mem_append.1 hs
      · exact areWhole_iff.1 h.1 s hs
      · exact ih h.2 hs

/-- The branches of a whole shape are whole. -/
theorem isWhole_of_mem_branches {s b : Shape} (h : s.isWhole = true) (hb : b ∈ s.branches) :
    b.isWhole = true := by
  unfold branches at hb
  split at hb
  · exact isWhole_of_mem_slotShapes (slotsWhole_of_isWhole h) hb
  · rw [List.mem_singleton.1 hb]
    exact h

/-! ## Shapes of expressions -/

/-- A union of whole shapes is whole. -/
theorem isWhole_unionOf {ss : List Shape} (h : areWhole ss = true) :
    (unionOf ss).isWhole = true := by
  simp [unionOf, h]

/-- A class applied to whole shapes is whole. -/
theorem isWhole_ofClass (name : Text) {args : List Shape} (h : areWhole args = true) :
    (ofClass name args).isWhole = true := by
  unfold ofClass
  split
  · rfl
  · simp [h]

/-- The shape of a literal type is whole. -/
theorem isWhole_literalShape (values : List Literal) : (literalShape values).isWhole = true := by
  unfold literalShape
  split
  · rfl
  · rfl
  · refine isWhole_unionOf (areWhole_iff.2 fun s hs => ?_)
    obtain ⟨name, -, rfl⟩ := List.mem_map.1 hs
    rfl

mutual

/-- The shape of an expression is whole. -/
@[simp] theorem isWhole_shape : ∀ t : TypeExpr, t.shape.isWhole = true
  | .omitted => rfl
  | .con name => by
    unfold TypeExpr.shape
    split
    · rfl
    · split <;> rfl
  -- Wherever the shape has slots, these hold the shapes of parts.
  | .app head args => isWhole_ofClass head (areWhole_shapes args)
  | .var name bound constraints => rfl
  | .union members optional => by
    simp [TypeExpr.shape, areWhole_shapes members]
  | .callable params result ellipsis => by
    unfold TypeExpr.shape
    split
    · simp [variadicOf, callableOrigin, any, isWhole_shape result]
    · simp [callableOf, callableOrigin, areWhole_shapes params, isWhole_shape result]
  | .typeOf operand => by
    unfold TypeExpr.shape
    split
    · rfl
    · simp [typeOf, typeOfOrigin, isWhole_shape operand]
  | .annotated inner metadata => isWhole_shape inner
  | .literal values => isWhole_literalShape values

/-- The shapes of a list of expressions are whole. -/
@[simp] theorem areWhole_shapes : ∀ ts : List TypeExpr, areWhole (TypeExpr.shapes ts) = true
  | [] => rfl
  | t :: ts => by simp [isWhole_shape t, areWhole_shapes ts]

end

/-! ## Printing and building -/

/-- A whole node shows no hole if its slots show none. -/
theorem showsHole_applied {o : Origin} {slots : List Slot} (h : (applied o slots).isWhole = true)
    (hs : showsHoleSlots slots = false) : (applied o slots).showsHole = false := by
  cases o with
  | hole => simp at h
  | var decl => rfl
  | plain kind name =>
    -- What a node shows of its slots depends on its kind; the wildcard shows nothing of them.
    cases kind with
    | any => rfl
    | nominal => simpa [showsHole] using hs
    | typeOf => simpa [showsHole] using hs
    | unknown => simpa [showsHole] using hs
    | union =>
      -- A union in the spelling `Optional` shows its first branch only.
      rcases slots with _ | ⟨first | ss, rest⟩
      · rfl
      · simp only [showsHoleSlots, Bool.or_eq_false_iff] at hs
        simp [showsHole, hs]
      · simpa [showsHole] using hs
    | callable =>
      rcases slots with _ | ⟨head | ss, _ | ⟨result | rs, _ | ⟨slot, rest⟩⟩⟩
      case cons.single.cons.group.nil => simp at h
      case nil => rfl
      all_goals simpa [showsHole] using hs

mutual

/-- The text of a whole shape shows no hole. -/
theorem showsHole_of_isWhole : ∀ s : Shape, s.isWhole = true → s.showsHole = false
  | .bare o, h => by
    cases o with
    | hole => simp at h
    | plain kind name => rfl
    | var decl => rfl
  | .applied o slots, h => by
    have hslots := showsHoleSlots_of_slotsWhole slots (slotsWhole_of_isWhole h)
    exact showsHole_applied h hslots

/-- Whole slots show no hole. -/
theorem showsHoleSlots_of_slotsWhole :
    ∀ slots : List Slot, slotsWhole slots = true → showsHoleSlots slots = false
  | [], _ => rfl
  | .single s :: rest, h => by
    simp only [slotsWhole, Bool.and_eq_true] at h
    simp [showsHole_of_isWhole s h.1, showsHoleSlots_of_slotsWhole rest h.2]
  | .group ss :: rest, h => by
    simp only [slotsWhole, Bool.and_eq_true] at h
    simp [showsHoleAll_of_areWhole ss h.1, showsHoleSlots_of_slotsWhole rest h.2]

/-- Whole shapes show no hole. -/
theorem showsHoleAll_of_areWhole :
    ∀ ss : List Shape, areWhole ss = true → showsHoleAll ss = false
  | [], _ => rfl
  | s :: rest, h => by
    simp only [areWhole, Bool.and_eq_true] at h
    simp [showsHole_of_isWhole s h.1, showsHoleAll_of_areWhole rest h.2]

end

/-- An outcome is fine if it satisfies `P` or is a failure other than that of meeting a hole. -/
def Fine {α : Type} (P : α → Prop) : Except Error α → Prop
  | .ok a => P a
  | .error e => e ≠ .hole

/-- A computation that ends well, or fails for another reason, may be followed by another one. -/
theorem fine_bind {α β : Type} {P : α → Prop} {Q : β → Prop} {x : Except Error α}
    {f : α → Except Error β} (hx : Fine P x) (hf : ∀ a, P a → Fine Q (f a)) :
    Fine Q (x >>= f) := by
  cases x with
  | error e => exact hx
  | ok a => exact hf a hx

/-- What a function makes of a good result is good. -/
theorem fine_map {α β : Type} {P : β → Prop} {x : Except Error α} {f : α → β}
    (hx : Fine (fun a => P (f a)) x) : Fine P (x.map f) := by
  cases x with
  | error e => exact hx
  | ok a => exact hx

/-- A complaint about a whole shape is not that of a hole. -/
theorem complaint_ne_hole {whole : Shape} (h : whole.isWhole = true) {about : Text → Error}
    (habout : ∀ t, about t ≠ .hole) : whole.complaint about ≠ .hole := by
  simp only [complaint, showsHole_of_isWhole whole h, Bool.false_eq_true, if_false]
  exact habout _

/-- Building a union never meets a hole. -/
theorem buildUnion_fine (strict optional : Bool) {whole : Shape} (h : whole.isWhole = true)
    (branches : List TypeExpr) :
    Fine (fun _ => True) (buildUnion strict optional whole branches) := by
  unfold buildUnion
  split
  · split
    · trivial
    · split
      · exact complaint_ne_hole h fun _ => by simp
      · trivial
  · trivial

mutual

/-- Building the expression of a whole shape never meets a hole. -/
theorem build_fine (bindings : Subst) (strict : Bool) :
    ∀ s : Shape, s.isWhole = true → Fine (fun _ => True) (build bindings strict s)
  | .bare o, h => by
    cases o with
    | hole => simp at h
    | var decl => trivial
    | plain kind name =>
      cases kind with
      | union => exact buildUnion_fine _ _ h _
      | _ => trivial
  | .applied o slots, h => by
    have hslots : slotsWhole slots = true := slotsWhole_of_isWhole h
    cases o with
    | hole => simp at h
    | var decl => trivial
    -- Each kind of root takes slots of its own form, and a slot of another form is complained
    -- about.
    | plain kind name =>
      cases kind with
      | any => trivial
      | union =>
        refine fine_bind (buildBranches_fine bindings strict slots hslots) fun branches _ => ?_
        exact buildUnion_fine _ _ h _
      | nominal =>
        exact fine_bind (buildSlots_fine bindings strict h slots hslots) fun _ _ => trivial
      | unknown =>
        exact fine_bind (buildSlots_fine bindings strict h slots hslots) fun _ _ => trivial
      | typeOf =>
        match slots, h, hslots with
        | [], _, _ => trivial
        | .single operand :: rest, _, hslots =>
          simp only [slotsWhole, Bool.and_eq_true] at hslots
          exact fine_bind (build_fine bindings strict operand hslots.1) fun _ _ => trivial
        | .group ss :: rest, h, _ => exact complaint_ne_hole h fun _ => by simp
      | callable =>
        match slots, h, hslots with
        | [.group params, .single result], _, hslots =>
          simp only [slotsWhole, Bool.and_eq_true] at hslots
          refine fine_bind (build_fine bindings strict result hslots.2.1) fun _ _ => ?_
          exact fine_bind (buildAll_fine bindings strict params hslots.1) fun _ _ => trivial
        | [.single head, .single result], h, hslots =>
          simp only [slotsWhole, Bool.and_eq_true] at hslots
          refine fine_bind (build_fine bindings strict result hslots.2.1) fun _ _ => ?_
          simp only [isHole_of_isWhole hslots.1, Bool.false_eq_true, if_false]
          split
          · trivial
          · exact complaint_ne_hole h fun _ => by simp
        | [], h, _ => exact complaint_ne_hole h fun _ => by simp
        | [.single _], h, _ => exact complaint_ne_hole h fun _ => by simp
        | [.group _], h, _ => exact complaint_ne_hole h fun _ => by simp
        | [.single _, .group _], h, _ => exact complaint_ne_hole h fun _ => by simp
        | [.group _, .group _], h, _ => exact complaint_ne_hole h fun _ => by simp
        | a :: b :: _ :: _, h, _ =>
          cases a <;> cases b <;> exact complaint_ne_hole h fun _ => by simp

/-- Building the branches in whole slots never meets a hole. -/
theorem buildBranches_fine (bindings : Subst) (strict : Bool) :
    ∀ slots : List Slot, slotsWhole slots = true →
      Fine (fun _ => True) (buildBranches bindings strict slots)
  | [], _ => trivial
  | .single s :: rest, h => by
    simp only [slotsWhole, Bool.and_eq_true] at h
    refine fine_bind (build_fine bindings strict s h.1) fun t _ => ?_
    exact fine_bind (buildBranches_fine bindings strict rest h.2) fun _ _ => trivial
  | .group ss :: rest, h => by
    simp only [slotsWhole, Bool.and_eq_true] at h
    refine fine_bind (buildAll_fine bindings strict ss h.1) fun t _ => ?_
    exact fine_bind (buildBranches_fine bindings strict rest h.2) fun _ _ => trivial

/-- Building the arguments in whole slots never meets a hole. -/
theorem buildSlots_fine (bindings : Subst) (strict : Bool) {whole : Shape}
    (hw : whole.isWhole = true) :
    ∀ slots : List Slot, slotsWhole slots = true →
      Fine (fun _ => True) (buildSlots bindings strict whole slots)
  | [], _ => trivial
  | .single s :: rest, h => by
    simp only [slotsWhole, Bool.and_eq_true] at h
    refine fine_bind (build_fine bindings strict s h.1) fun t _ => ?_
    exact fine_bind (buildSlots_fine bindings strict hw rest h.2) fun _ _ => trivial
  | .group ss :: rest, h => complaint_ne_hole hw fun _ => by simp

/-- Building a list of whole shapes never meets a hole. -/
theorem buildAll_fine (bindings : Subst) (strict : Bool) :
    ∀ ss : List Shape, areWhole ss = true → Fine (fun _ => True) (buildAll bindings strict ss)
  | [], _ => trivial
  | s :: rest, h => by
    simp only [areWhole, Bool.and_eq_true] at h
    refine fine_bind (build_fine bindings strict s h.1) fun t _ => ?_
    exact fine_bind (buildAll_fine bindings strict rest h.2) fun _ _ => trivial

end

/-- Every whole shape has an expression. -/
theorem expression_fine {s : Shape} (h : s.isWhole = true) :
    Fine (fun _ => True) s.expression := by
  have hbuild := build_fine [] false s h
  unfold expression
  split
  · trivial
  · rename_i he
    rw [he] at hbuild
    exact absurd rfl hbuild
  · simp only [showsHole_of_isWhole s h, Bool.false_eq_true, if_false]
    trivial

end Shape

namespace Registry

/-! ## Unifying -/

open Shape

variable (r : Registry)

/-- A mismatch between whole shapes is not the error of a hole. -/
theorem mismatch_ne_hole {tmpl inst : Shape} (ht : tmpl.isWhole = true) (hi : inst.isWhole = true)
    (reason : MismatchReason) : mismatch tmpl inst reason ≠ .hole := by
  simp [mismatch, showsHole_of_isWhole tmpl ht, showsHole_of_isWhole inst hi]

/-- Comparing the roots of whole shapes never meets a hole. -/
theorem rootMismatch?_ne_hole {tmpl inst : Shape} (ht : tmpl.isWhole = true)
    (hi : inst.isWhole = true) {e : Error} (h : r.rootMismatch? tmpl inst = some e) :
    e ≠ .hole := by
  -- The only hole that a comparison of roots could report is in one of the two shapes.
  simp only [rootMismatch?, isHole_of_isWhole ht, isHole_of_isWhole hi, Bool.false_and,
    Bool.or_self, Bool.false_eq_true, if_false] at h
  split at h
  · exact Option.some.inj h ▸ mismatch_ne_hole ht hi _
  · split at h
    · cases h
    · split at h
      · exact Option.some.inj h ▸ mismatch_ne_hole ht hi _
      · split at h
        · exact Option.some.inj h ▸ mismatch_ne_hole ht hi _
        · cases h

/-- Binding a variable to a whole shape never meets a hole. -/
theorem bindVar_fine (name : Text) {inst : Shape} (hi : inst.isWhole = true) (s : Subst) :
    Fine (fun _ => True) (bindVar name inst s) := by
  have h := expression_fine hi
  unfold bindVar
  cases he : inst.expression with
  | error e =>
    rw [he] at h
    exact h
  | ok t => trivial

mutual

/-- Unifying whole shapes never meets a hole. -/
theorem unifyAt_fine : ∀ tmpl : Shape, tmpl.isWhole = true → ∀ (room : Nat) (inst : Shape),
    inst.isWhole = true → ∀ s, Fine (fun _ => True) (r.unifyAt room tmpl inst s)
  | .bare o, ht, room, inst, hi, s => by
    -- A variable takes what stands against it; other roots are compared, and then their slots.
    simp only [unifyAt]
    split
    · exact mismatch_ne_hole ht hi _
    · split
      · exact bindVar_fine _ hi s
      · trivial
      · split
        · rename_i he
          exact rootMismatch?_ne_hole r ht hi he
        · trivial
  | .applied o slots, ht, room, inst, hi, s => by
    simp only [unifyAt]
    split
    · exact mismatch_ne_hole ht hi _
    · split
      · exact bindVar_fine _ hi s
      · trivial
      · split
        · rename_i he
          exact rootMismatch?_ne_hole r ht hi he
        · exact unifySlots_fine slots (slotsWhole_of_isWhole ht) _ _
            (fun reason => mismatch_ne_hole ht hi reason) _ _ (slotsWhole_of_isWhole hi) _

/-- The same of lists of slots; `fail` makes the errors about their number and kinds. -/
theorem unifySlots_fine : ∀ ts : List Slot, slotsWhole ts = true →
    ∀ (room : Nat) (fail : MismatchReason → Error), (∀ reason, fail reason ≠ .hole) →
    ∀ (index : Nat) (is : List Slot), slotsWhole is = true → ∀ s,
      Fine (fun _ => True) (r.unifySlots room fail index ts is s)
  | [], _, _, _, _, _, _, _, _ => by
    simp only [unifySlots]
    trivial
  -- A slot of the template that is the wildcard is passed over, whatever stands against it.
  | .single t :: ts, ht, room, fail, hfail, index, is, hi, s => by
    simp only [slotsWhole, Bool.and_eq_true] at ht
    rcases is with _ | ⟨x | xs, is⟩
    · simp only [unifySlots]
      trivial
    · simp only [slotsWhole, Bool.and_eq_true] at hi
      simp only [unifySlots, isHole_of_isWhole ht.1, Bool.false_eq_true, if_false]
      split
      · exact unifySlots_fine ts ht.2 room fail hfail _ is hi.2 s
      · refine fine_bind (unifyAt_fine t ht.1 room x hi.1 s) fun s _ => ?_
        exact unifySlots_fine ts ht.2 room fail hfail _ is hi.2 s
    · simp only [slotsWhole, Bool.and_eq_true] at hi
      simp only [unifySlots, isHole_of_isWhole ht.1, Bool.false_eq_true, if_false]
      split
      · exact unifySlots_fine ts ht.2 room fail hfail _ is hi.2 s
      · exact hfail _
  | .group ps :: ts, ht, room, fail, hfail, index, is, hi, s => by
    simp only [slotsWhole, Bool.and_eq_true] at ht
    rcases is with _ | ⟨x | qs, is⟩
    · simp only [unifySlots]
      trivial
    · exact hfail _
    · simp only [slotsWhole, Bool.and_eq_true] at hi
      simp only [unifySlots]
      split
      · exact hfail _
      · refine fine_bind (unifyAll_fine ps ht.1 room qs hi.1 s) fun s _ => ?_
        exact unifySlots_fine ts ht.2 room fail hfail _ is hi.2 s

/-- The same of lists of shapes. -/
theorem unifyAll_fine : ∀ ts : List Shape, areWhole ts = true → ∀ (room : Nat) (is : List Shape),
    areWhole is = true → ∀ s, Fine (fun _ => True) (r.unifyAll room ts is s)
  | [], _, _, _, _, _ => by
    simp only [unifyAll]
    trivial
  | t :: ts, ht, room, is, hi, s => by
    simp only [areWhole, Bool.and_eq_true] at ht
    cases is with
    | nil =>
      simp only [unifyAll]
      trivial
    | cons x is =>
      simp only [areWhole, Bool.and_eq_true] at hi
      refine fine_bind (unifyAt_fine t ht.1 room x hi.1 s) fun s _ => ?_
      exact unifyAll_fine ts ht.2 room is hi.2 s

end

/-- Unifying two whole shapes from the beginning never meets a hole. -/
theorem unify_fine {tmpl inst : Shape} (ht : tmpl.isWhole = true) (hi : inst.isWhole = true) :
    Fine (fun _ => True) (r.unify tmpl inst) :=
  unifyAt_fine r tmpl ht _ inst hi []

end Registry

end TypeShape
