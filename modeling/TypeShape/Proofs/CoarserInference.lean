import TypeShape.Proofs.InferenceRuns

/-!
# Coarser inference

With less depth, inference stops at containers that it would have entered, and with a sample, it
misses elements.  Two inferences of one value are compared here: the one has at least the depth of
the other, and looks at no elements that the other does not look at.  What it infers is narrower,
with one exception.  A type that a value declares is cut down to its root when there is no depth
left, and a union that is cut down so has no branches and is above nothing.

## Key results

- `Registry.narrower_hostShape`: less depth coarsens the shapes of host types
- `Registry.narrower_inferSeen`: more depth and fewer elements narrow what is inferred
- `Engine.isSubtype_infer_sample`: the shape of a sample is a subtype of the shape of all elements
- `Engine.isSubtype_infer_depth`: the shape with more depth is a subtype of the shape with less
-/

namespace TypeShape

open Relation (ReflTransGen)

namespace Shape

/-! ## Unions that are cut down -/

/-- A union without its branches is somewhere in a shape. -/
inductive CutsUnion : Shape → Prop where
  | here {s : Shape} : s.isUnion = true → s.isParameterized = false → CutsUnion s
  | inside {s b : Shape} : b ∈ slotShapes s.slots → CutsUnion b → CutsUnion s

/-- What a shape without cut unions is: no such union itself, and none in its slots. -/
theorem not_cutsUnion_iff {s : Shape} : ¬ s.CutsUnion ↔
    (s.isUnion = true → s.isParameterized = true) ∧ ∀ b ∈ slotShapes s.slots, ¬ b.CutsUnion := by
  constructor
  · intro h
    refine ⟨fun hu => ?_, fun b hb hcut => h (.inside hb hcut)⟩
    by_contra hparam
    exact h (.here hu (by simpa using hparam))
  · rintro ⟨hroot, hslots⟩ (⟨hu, hparam⟩ | ⟨hb, hcut⟩)
    · simp [hroot hu] at hparam
    · exact hslots _ hb hcut

/-- Shapes that are the same are cut in the same places. -/
theorem CutsUnion.of_same {s t : Shape} (h : s.CutsUnion) (hsame : s.same t = true) :
    t.CutsUnion := by
  induction h generalizing t with
  | here hu hparam =>
    refine .here ((hasKind_of_same hsame .union).symm.trans hu) ?_
    exact (roots_of_same hsame).2.1.symm.trans hparam
  | inside hb _ ih =>
    obtain ⟨y, hy, hsame⟩ := Registry.exists_same_branch hsame hb
    exact .inside hy (ih hsame)

/-- A class has the cut unions of its arguments. -/
theorem CutsUnion.ofClass {name : Text} {args : List Shape} {s : Shape} (hs : s ∈ args)
    (h : s.CutsUnion) : (ofClass name args).CutsUnion := by
  refine .inside ?_ h
  rwa [slots_ofClass, slotShapes_map_single]

/-- A merged shape keeps the unions that are cut down in its parts. -/
theorem CutsUnion.mergeShapes {shapes : List Shape} {s : Shape} (hs : s ∈ shapes)
    (h : s.CutsUnion) : (mergeShapes shapes).CutsUnion := by
  obtain ⟨t, -, heq, hall⟩ | ⟨hu, -, hlike⟩ := Registry.mergeShapes_cases shapes
  · rw [heq]
    exact h.of_same (hall s hs)
  · obtain ⟨b, hb, hsame⟩ := hlike s hs
    rw [branches_eq hu] at hb
    exact .inside hb (h.of_same hsame)

end Shape

namespace Registry

variable {r : Registry} {see : View} {h : Host} {k k' : Int} {d d' : Nat}
variable {visiting : List Nat} {v : Value}

/-! ## Host types -/

/-- Over a list of host types, it is enough that one shape is narrower than the other for each type.
-/
theorem forall₂_map {f g : HostType → Shape} (hfg : ∀ t, r.Narrower (f t) (g t))
    (ts : List HostType) : List.Forall₂ r.Narrower (ts.map f) (ts.map g) := by
  rw [List.forall₂_map_left_iff, List.forall₂_map_right_iff, List.forall₂_same]
  exact fun t _ => hfg t

/-- A layer is narrower than the same layer without its parts. -/
theorem narrower_hostLayer_none {definitions : Table HostType} (f : HostType → Shape)
    (t : HostType) :
    r.Narrower (r.hostLayer definitions (some f) t) (r.hostLayer definitions none t) := by
  -- Without parts the layer is bare, or it has none in either case.
  unfold hostLayer
  split
  · exact narrower_refl (closed_leaf _)
  split
  · exact narrower_refl (closed_leaf _)
  cases t.form definitions with
  | slice _ | array _ _ | map _ _ | func _ _ _ => exact narrower_bare rfl
  | any => exact narrower_refl (Shape.closed_bare _ _)
  | _ => exact narrower_refl (closed_leaf _)

/-- A layer is narrower if its parts are. -/
theorem narrower_hostLayer_some {definitions : Table HostType} {f g : HostType → Shape}
    (hfg : ∀ t, r.Narrower (f t) (g t)) (t : HostType) :
    r.Narrower (r.hostLayer definitions (some f) t) (r.hostLayer definitions (some g) t) := by
  -- The parts are the element types, and those of a function its parameters and results.
  unfold hostLayer
  split
  · exact narrower_refl (closed_leaf _)
  split
  · exact narrower_refl (closed_leaf _)
  cases t.form definitions with
  | slice elem | array _ elem => exact narrower_ofClass Name.list (forall₂_map hfg [elem])
  | map key value => exact narrower_ofClass Name.map (forall₂_map hfg [key, value])
  | func params results _ =>
    refine narrower_callableOf (forall₂_map hfg params) ?_
    match results with
    | [] => exact narrower_refl (closed_leaf _)
    | [t] => exact hfg t
    | t :: u :: ts => exact narrower_ofClass Name.tuple (forall₂_map hfg (t :: u :: ts))
  | any => exact narrower_refl (Shape.closed_bare _ _)
  | _ => exact narrower_refl (closed_leaf _)

/-- Less depth coarsens the shapes of host types. -/
theorem narrower_hostShape (definitions : Table HostType) (hd : d ≤ d') (t : HostType) :
    r.Narrower (r.hostShape definitions d' t) (r.hostShape definitions d t) := by
  -- A pointer type is seen as the type at the end of its chain, at every depth.
  have hstep {inner inner' : Option (HostType → Shape)}
      (hlayer : ∀ t, r.Narrower (r.hostLayer definitions inner t)
        (r.hostLayer definitions inner' t)) (t : HostType) :
      r.Narrower (r.hostShapeStep definitions inner t)
        (r.hostShapeStep definitions inner' t) := by
    unfold hostShapeStep
    split
    · exact hlayer t
    split
    · exact narrower_refl (closed_leaf _)
    split
    · exact narrower_refl (closed_leaf _)
    · exact hlayer _
  induction d generalizing d' t with
  | zero =>
    cases d' with
    | zero => exact narrower_refl (closed_hostShape r definitions 0 t)
    | succ d' => exact hstep (narrower_hostLayer_none _) t
  | succ d ih =>
    obtain ⟨e, rfl⟩ : ∃ e, d' = e + 1 := ⟨d' - 1, by omega⟩
    exact hstep (narrower_hostLayer_some (ih (by omega))) t

/-! ## Values that are not entered -/

/-- A shape is narrower than its root, unless it is a union. -/
theorem narrower_coarsen {s : Shape} (hs : s.Closed) (hd : d ≤ d')
    (hcut : d < d' → ¬ (coarsen d s).CutsUnion) :
    r.Narrower (coarsen d' s) (coarsen d s) := by
  -- Only the last level of depth matters, where the arguments of the shape are dropped.
  cases d with
  | succ d =>
    obtain ⟨e, rfl⟩ : ∃ e, d' = e + 1 := ⟨d' - 1, by omega⟩
    exact narrower_refl hs
  | zero =>
    cases d' with
    | zero => exact narrower_refl (closed_coarsen hs 0)
    | succ d' =>
      have hu : s.isUnion = false := by
        by_contra hu
        have hu : (Shape.bare s.origin).isUnion = true := eq_true_of_ne_false hu
        exact hcut (Nat.succ_pos d') (.here hu rfl)
      exact narrower_bare (hs.isSolid hu)

/-- More depth narrows the shape of a value that is not entered, unless less depth cuts down a
union. -/
theorem narrower_plainSeen (hsee : see.IsWhole)
    (hv : ∀ t, r.embeddedType? v = some t → (r.shapeSeen see t).isConcrete = true) (hd : d ≤ d')
    (hcut : d < d' → ¬ (r.plainSeen see h d v).CutsUnion) :
    r.Narrower (r.plainSeen see h d' v) (r.plainSeen see h d v) := by
  have hclosed {t : TypeExpr} (ht : r.embeddedType? v = some t) : (r.shapeSeen see t).Closed :=
    ⟨hsee _, hv t ht⟩
  -- By the form of the value: a type, a declared type, a host type, or none of them.
  obtain ⟨t, rfl⟩ | ⟨t, ht⟩ | ⟨type, rfl⟩ | ⟨s, hs, hplain⟩ := r.plainSeen_cases h v
  · rw [plainSeen_typeObject, plainSeen_typeObject]
    have ht : (Shape.typeOf (r.shapeSeen see t)).Closed := Shape.closed_typeOf (hclosed rfl)
    by_cases hzero : d = 0
    · rw [if_pos hzero]
      split
      · exact narrower_refl (Shape.closed_bare _ _)
      · exact narrower_bare rfl
    · rw [if_neg hzero, if_neg (by omega)]
      exact narrower_refl ht
  · rw [plainSeen_declared ht] at hcut ⊢
    rw [plainSeen_declared ht]
    exact narrower_coarsen (hclosed (embeddedType?_of_declaredType? ht)) hd hcut
  · exact narrower_hostShape h.definitions hd type
  · rw [hplain, hplain]
    exact narrower_refl hs

/-! ## Containers -/

/-- Without a sample, all elements are looked at. -/
theorem sampleIndices_all {n : Nat} (hk : k ≤ 0) : sampleIndices n k = List.range n := by
  have hcount : ¬ (decide (0 < k) && decide (k < n)) = true := by simp; omega
  simp only [sampleIndices, if_neg hcount]
  refine (List.map_congr_left fun i hi => ?_).trans (List.map_id _)
  exact Nat.mul_div_cancel i (Nat.zero_lt_of_lt (List.mem_range.1 hi))

/-- What is looked at in a sample is looked at if there is no sample. -/
theorem Contents.parts_subset (hk : k = k' ∨ k' ≤ 0) (c : Contents) :
    c.parts k ⊆ c.parts k' := by
  -- Only lists are sampled, and every index of a sample is an index of the list.
  obtain rfl | hk := hk
  · exact List.Subset.refl _
  cases c with
  | elements items =>
    intro x hx
    obtain ⟨i, -, hi⟩ := List.mem_filterMap.1 hx
    refine List.mem_filterMap.2 ⟨i, ?_, hi⟩
    rw [sampleIndices_all hk]
    exact List.mem_range.2 (List.getElem?_eq_some_iff.1 hi).1
  | _ => exact List.Subset.refl _

/-- A container is narrower if fewer elements are looked at, each with a narrower shape. -/
theorem Contents.narrower_shape? {c : Contents} {f g : Value → Shape} {s s' : Shape}
    (hk : k = k' ∨ k' ≤ 0) (hs : c.shape? k f = some s) (hs' : c.shape? k' g = some s')
    (hf : ∀ x ∈ c.parts k, (f x).Closed) (hg : ∀ x ∈ c.parts k', (g x).Closed)
    (hfg : ∀ x ∈ c.parts k, r.Narrower (f x) (g x)) : r.Narrower s s' := by
  -- Tuples are compared position by position, the others by what their merged parts are.
  cases c with
  | none => cases hs
  | positions items =>
    cases hs
    cases hs'
    refine narrower_ofClass Name.tuple ?_
    rw [List.forall₂_map_left_iff, List.forall₂_map_right_iff, List.forall₂_same]
    exact hfg
  | elements items =>
    cases hs
    cases hs'
    refine narrower_ofClass Name.list (.cons ?_ .nil)
    refine narrower_mergeShapes (List.forall_mem_map.2 hf) (List.forall_mem_map.2 hg) ?_
    exact List.forall_mem_map.2 fun x hx =>
      ⟨g x, List.mem_map_of_mem (parts_subset hk _ hx), hfg x hx⟩
  | entries es =>
    cases hs
    cases hs'
    obtain ⟨hfkeys, hfvalues⟩ := forall_mem_entries.1 hf
    obtain ⟨hgkeys, hgvalues⟩ := forall_mem_entries.1 hg
    obtain ⟨hkeys, hvalues⟩ := forall_mem_entries.1 hfg
    refine narrower_ofClass Name.map (.cons ?_ (.cons ?_ .nil))
    · refine narrower_mergeShapes (List.forall_mem_map.2 hfkeys) (List.forall_mem_map.2 hgkeys) ?_
      exact List.forall_mem_map.2 fun e he => ⟨g e.1, List.mem_map.2 ⟨e, he, rfl⟩, hkeys e he⟩
    · refine narrower_mergeShapes (List.forall_mem_map.2 hfvalues)
        (List.forall_mem_map.2 hgvalues) ?_
      exact List.forall_mem_map.2 fun e he => ⟨g e.2, List.mem_map.2 ⟨e, he, rfl⟩, hvalues e he⟩

/-- A container keeps the unions that are cut down in its parts. -/
theorem Contents.cutsUnion_shape? {c : Contents} {f : Value → Shape} {s : Shape}
    (hs : c.shape? k f = some s) {x : Value} (hx : x ∈ c.parts k) (hcut : (f x).CutsUnion) :
    s.CutsUnion := by
  -- Merging keeps the unions of its parts, and so does the container around it.
  cases c with
  | none => cases hs
  | positions items =>
    cases hs
    exact hcut.ofClass (List.mem_map_of_mem hx)
  | elements items =>
    cases hs
    exact .ofClass (List.mem_singleton_self _) (hcut.mergeShapes (List.mem_map_of_mem hx))
  | entries es =>
    cases hs
    obtain ⟨e, he, hx⟩ := List.mem_flatMap.1 hx
    obtain rfl | hx := List.mem_cons.1 hx
    · exact .ofClass List.mem_cons_self (hcut.mergeShapes (List.mem_map.2 ⟨e, he, rfl⟩))
    · obtain rfl := List.mem_singleton.1 hx
      exact .ofClass (List.mem_cons_of_mem _ (List.mem_singleton_self _))
        (hcut.mergeShapes (List.mem_map.2 ⟨e, he, rfl⟩))

/-- A container that is entered has the root that it has when it is not entered. -/
theorem plainSeen_of_contents (r : Registry) (see : View) {f : Value → Shape} {s : Shape}
    (hs : (r.contents h v).shape? k f = some s) :
    s.isSolid = true ∧ r.plainSeen see h 0 v = .bare s.origin := by
  have hroot {name : Text} {args : List Shape} (hplain : r.plainSeen see h 0 v = .leaf name) :
      (Shape.ofClass name args).isSolid = true ∧
        r.plainSeen see h 0 v = .bare (Shape.ofClass name args).origin := by
    rw [Shape.origin_ofClass]
    exact ⟨Shape.isSolid_ofClass name args, hplain⟩
  -- A container of a type that is bound to a class is not entered.
  have hunbound {type : HostType} {name : Text} (htype : ¬ (r.hostClass? type).isSome = true) :
      r.containerShape type name = .leaf name := by
    rw [containerShape, Option.not_isSome_iff_eq_none.1 htype]
    rfl
  cases v with
  | tuple a n =>
    simp only [contents] at hs
    split at hs <;> cases hs
    exact hroot rfl
  | slice elem a n =>
    simp only [contents] at hs
    split at hs
    · cases hs
    rename_i htype
    split at hs <;> cases hs
    exact hroot (hunbound htype)
  | array elem items =>
    simp only [contents] at hs
    split at hs
    · cases hs
    rename_i htype
    split at hs <;> cases hs
    exact hroot (hunbound htype)
  | map key value a =>
    simp only [contents] at hs
    split at hs
    · cases hs
    rename_i htype
    split at hs <;> cases hs
    exact hroot (hunbound htype)
  | _ =>
    simp only [contents, ite_self] at hs
    cases hs

/-! ## Two inferences of one value -/

/-- More depth and fewer elements narrow what is inferred, unless less depth cuts down a union. -/
theorem narrower_inferSeen (hsee : see.IsWhole) (hk : k = k' ∨ k' ≤ 0) (hd : d ≤ d')
    (hv : r.EmbedsClosed see h v)
    (hcut : d < d' → ¬ (r.inferSeen see h k' d visiting v).CutsUnion) :
    r.Narrower (r.inferSeen see h k d' visiting v) (r.inferSeen see h k' d visiting v) := by
  -- By induction on the lesser depth, which is used up by both inferences at the same containers.
  induction d generalizing d' visiting v with
  | zero =>
    obtain ⟨type, hrepeated⟩ | ⟨visiting', w, hleads, hplain, hentered⟩ :=
      r.inferSeen_cases see h visiting v
    · rw [hrepeated, hrepeated]
      exact narrower_refl (closed_hostShape r h.definitions 0 type)
    have hw := fun t => hv w t hleads
    rw [hplain (.inl rfl)] at hcut ⊢
    cases d' with
    | zero =>
      rw [hplain (.inl rfl)]
      exact narrower_refl (closed_plainSeen hsee hw 0)
    | succ d' =>
      cases hshape : (r.contents h w).shape? k (r.inferSeen see h k d' visiting') with
      | none =>
        rw [hplain (.inr (Contents.shape?_eq_none.1 hshape))]
        exact narrower_plainSeen hsee hw hd hcut
      | some s =>
        -- Only the narrower inference enters the container.
        obtain ⟨hsolid, hroot⟩ := r.plainSeen_of_contents see hshape
        rw [hentered hshape, hroot]
        exact narrower_bare hsolid
  | succ d ih =>
    obtain ⟨e, rfl⟩ : ∃ e, d' = e + 1 := ⟨d' - 1, by omega⟩
    obtain ⟨type, hrepeated⟩ | ⟨visiting', w, hleads, hplain, hentered⟩ :=
      r.inferSeen_cases see h visiting v
    · rw [hrepeated, hrepeated]
      exact narrower_refl (closed_hostShape r h.definitions 0 type)
    have hw := fun t => hv w t hleads
    cases hshape : (r.contents h w).shape? k (r.inferSeen see h k e visiting') with
    | none =>
      have hnone := Contents.shape?_eq_none.1 hshape
      rw [hplain (.inr hnone)] at hcut ⊢
      rw [hplain (.inr hnone)]
      exact narrower_plainSeen hsee hw hd hcut
    | some s =>
      cases hshape' : (r.contents h w).shape? k' (r.inferSeen see h k' d visiting') with
      | none =>
        rw [Contents.shape?_eq_none.1 hshape'] at hshape
        cases hshape
      | some s' =>
        -- Both enter the container, and each part is inferred twice.
        rw [hentered hshape'] at hcut ⊢
        rw [hentered hshape]
        have hparts {j : Int} : ∀ x ∈ (r.contents h w).parts j, r.EmbedsClosed see h x :=
          fun x hx => hv.of_leads (hleads.tail (leads_of_mem_parts hx))
        refine Contents.narrower_shape? hk hshape hshape'
          (fun x hx => closed_inferSeen hsee (hparts x hx))
          (fun x hx => closed_inferSeen hsee (hparts x hx)) fun x hx => ?_
        refine ih (by omega) (hparts x hx) fun hlt hcutx => hcut (by omega) ?_
        exact Contents.cutsUnion_shape? hshape' (Contents.parts_subset hk _ hx) hcutx

end Registry

/-! ## The inference of the engine -/

namespace Engine

variable {e : Engine} {h : Host} {v : Value} {d d' k k' : Int}

/-- What is narrower is a subtype, up to the limit on depth. -/
theorem isSubtype_of_narrower (hmemo : e.memo.IsWhole) {s t : Shape} (hs : s.Closed)
    (ht : t.Closed) (hdepth : s.depth + t.depth ≤ maxRecursion) (hst : e.registry.Narrower s t) :
    (e.isSubtype s t).1 = true := by
  rw [e.isSubtype_iff_holds s t (Memo.view_agrees _)]
  exact Registry.holds_of_narrower (e.subtypeRun_isWhole hmemo s t).view hs ht
    (Nat.le_succ_of_le hdepth) hst

/-- Two inferences, one after the other: the first has at least the depth of the second, and looks at
no elements that the second does not look at. -/
theorem isSubtype_infer (hmemo : e.memo.IsWhole)
    (hv : e.registry.EmbedsClosed e.memo.view h v) (hd : d ≤ d') (hk : k = k' ∨ k' ≤ 0) :
    ∃ s t, (e.infer h v d' k).1 = some s ∧ ((e.infer h v d' k).2.infer h v d k').1 = some t ∧
      ((d < d' → ¬ t.CutsUnion) → s.depth + t.depth ≤ maxRecursion →
        (((e.infer h v d' k).2.infer h v d k').2.isSubtype s t).1 = true) := by
  have hwhole := e.infer_isWhole h v d' k hmemo
  have hembeds := infer_embedsClosed d' k hv
  have hanswer {see : View} (hsee : see.Agrees _) := e.infer_eq h v d' k hsee
  have hregistry := e.infer_registry h v d' k
  generalize e.infer h v d' k = first at hwhole hembeds hanswer hregistry ⊢
  have hwhole' := first.2.infer_isWhole h v d k' hwhole
  have hembeds' := infer_embedsClosed d k' (hregistry ▸ hembeds)
  have hanswer' {see : View} (hsee : see.Agrees _) := first.2.infer_eq h v d k' hsee
  have hextends := first.2.infer_extends h v d k'
  have hregistry' := first.2.infer_registry h v d k'
  generalize first.2.infer h v d k' = second at hwhole' hembeds' hanswer' hextends hregistry' ⊢
  rw [hregistry] at hembeds' hanswer' hregistry'
  -- The memo at the end tells both answers.
  have hsee := Memo.view_agrees second.2.memo
  refine ⟨_, _, hanswer (hsee.of_extends hextends), hanswer' hsee, fun hcut hdepth => ?_⟩
  refine isSubtype_of_narrower hwhole' (Registry.closed_inferSeen hwhole'.view hembeds')
    (Registry.closed_inferSeen hwhole'.view hembeds') hdepth ?_
  rw [hregistry']
  exact Registry.narrower_inferSeen hwhole'.view hk (by omega) hembeds' fun hlt =>
    hcut (by omega)

/-- A list of a value that declares its type, and of a number. -/
def typedList : Value := .slice .any 0 2

/-- The heap with the elements of the list. -/
def typedHeap (t : TypeExpr) : Host := { cells := #[.items [.typed t, .int .int 1]] }

/-- The list leads to itself and its two elements. -/
theorem leads_typedList {t : TypeExpr} {w : Value}
    (hw : ReflTransGen (typedHeap t).Leads typedList w) :
    w = typedList ∨ w = .typed t ∨ w = .int .int 1 := by
  -- By induction on the way; the elements hold nothing that could be entered.
  induction hw with
  | refl => exact .inl rfl
  | tail _ hstep ih =>
    obtain rfl | rfl | rfl := ih
    · obtain rfl | hstep := List.mem_cons.1 hstep
      · exact .inr (.inl rfl)
      · exact .inr (.inr (List.mem_singleton.1 hstep))
    · cases hstep
    · cases hstep

/-- The list has no type expressions in it but the one that the value declares. -/
theorem eq_of_embeddedType?_typedList {r : Registry} {t u : TypeExpr} {w : Value}
    (hw : ReflTransGen (typedHeap t).Leads typedList w) (hu : r.embeddedType? w = some u) :
    u = t := by
  obtain rfl | rfl | rfl := leads_typedList hw
  · cases hu
  · cases hu
    rfl
  · cases hu

/-- If the type of the first element has no variables, the list embeds closed types only. -/
theorem embedsClosed_typedList {r : Registry} {see : View} {t : TypeExpr}
    (ht : (r.shapeSeen see t).isConcrete = true) :
    r.EmbedsClosed see (typedHeap t) typedList := by
  intro w u hw hu
  rwa [eq_of_embeddedType?_typedList hw hu]

/-- The shapes of the two elements are merged in the order in which they are written. -/
theorem mergeShapes_listOfInt :
    mergeShapes [.ofClass Name.list [.leaf Name.int], .leaf Name.int] =
      .unionOf [.leaf Name.int, .ofClass Name.list [.leaf Name.int]] :=
  Registry.mergeShapes_pair (a := .ofClass Name.list [.leaf Name.int]) (b := .leaf Name.int) rfl

/-- Sampling only narrows.  The shape of a value, inferred from a sample of the elements at each
level, is a subtype of its shape inferred from all elements, if the type expressions in the value
have no variables and the depths of the two shapes are within the limit. -/
theorem isSubtype_infer_sample (hmemo : e.memo.IsWhole)
    (hv : e.registry.EmbedsClosed e.memo.view h v) :
    ∃ s t, (e.infer h v d k).1 = some s ∧ ((e.infer h v d k).2.infer h v d (-1)).1 = some t ∧
      (s.depth + t.depth ≤ maxRecursion →
        (((e.infer h v d k).2.infer h v d (-1)).2.isSubtype s t).1 = true) := by
  have hall : k = -1 ∨ (-1 : Int) ≤ 0 := .inr (by decide)
  obtain ⟨s, t, hs, ht, hsub⟩ := isSubtype_infer hmemo hv (Int.le_refl d) hall
  exact ⟨s, t, hs, ht, hsub fun hlt => absurd hlt (Int.lt_irrefl d)⟩

/-- The list is inferred from its first element, and from both. -/
theorem isSubtype_infer_sample_list :
    let first := ({} : Engine).infer (typedHeap (.app Name.list [.con Name.int])) typedList 2 1
    let second := first.2.infer (typedHeap (.app Name.list [.con Name.int])) typedList 2 (-1)
    let s := Shape.ofClass Name.list [.ofClass Name.list [.leaf Name.int]]
    let t := Shape.ofClass Name.list
      [.unionOf [.leaf Name.int, .ofClass Name.list [.leaf Name.int]]]
    first.1 = some s ∧ second.1 = some t ∧ (second.2.isSubtype s t).1 = true := by
  intro first second s t
  have hs : first.1 = some
      (.ofClass Name.list [mergeShapes [.ofClass Name.list [.leaf Name.int]]]) := rfl
  have ht : second.1 = some t :=
    congrArg (fun s => some (Shape.ofClass Name.list [s])) mergeShapes_listOfInt
  -- The theorem is about what is inferred, so its shapes are those computed above.
  obtain ⟨s', t', hs', ht', hsub⟩ := isSubtype_infer_sample (e := {}) (d := 2) (k := 1)
    Memo.isWhole_nil (embedsClosed_typedList (t := .app Name.list [.con Name.int]) rfl)
  obtain rfl : s = s' := Option.some.inj (hs.symm.trans hs')
  obtain rfl : t = t' := Option.some.inj (ht.symm.trans ht')
  exact ⟨hs, ht, hsub (by decide)⟩

/-- An engine that knows a type variable, and an alias for it. -/
def aliasing : Engine := (({} : Engine).declare do
  Registry.declareVar { name := text "T" }
  Registry.declareAlias (text "X") (.var (text "T") .omitted [])).2

/-- If the alias is the type of the value, there is no type variable in any expression as it is
written.  The shape of the first element is the type variable, and no union accepts it. -/
theorem not_isSubtype_infer_sample :
    let h := typedHeap (.con (text "X"))
    let first := aliasing.infer (typedHeap (.con (text "X"))) typedList 2 1
    let second := first.2.infer (typedHeap (.con (text "X"))) typedList 2 (-1)
    let s := Shape.ofClass Name.list [.ofVar { name := text "T" }]
    let t := Shape.ofClass Name.list [.unionOf [.leaf Name.int, .ofVar { name := text "T" }]]
    (∀ w u, ReflTransGen h.Leads typedList w → aliasing.registry.embeddedType? w = some u →
      u.freeVars = []) ∧
    first.1 = some s ∧ second.1 = some t ∧ s.depth + t.depth ≤ maxRecursion ∧
      (second.2.isSubtype s t).1 = false := by
  intro h first second s t
  refine ⟨fun w u hw hu => ?_, rfl, ?_, by decide, by decide⟩
  -- There is no variable in the alias as it is written, only in what it stands for.
  · rw [eq_of_embeddedType?_typedList hw hu]
    rfl
  · have hmerge : mergeShapes [.ofVar { name := text "T" }, .leaf Name.int] = _ :=
      Registry.mergeShapes_pair rfl
    exact congrArg (fun s => some (Shape.ofClass Name.list [s])) hmerge

/-- Less depth only coarsens.  The shape of a value that is inferred with more depth is a subtype of
the shape that is inferred with less, if the type expressions in the value have no variables and the
depths of the two shapes are within the limit; unless depth was lost and a type that is a union was
cut down for lack of it. -/
theorem isSubtype_infer_depth (hmemo : e.memo.IsWhole)
    (hv : e.registry.EmbedsClosed e.memo.view h v) (hd : d ≤ d') :
    ∃ s t, (e.infer h v d' k).1 = some s ∧ ((e.infer h v d' k).2.infer h v d k).1 = some t ∧
      ((d < d' → ¬ t.CutsUnion) → s.depth + t.depth ≤ maxRecursion →
        (((e.infer h v d' k).2.infer h v d k).2.isSubtype s t).1 = true) :=
  isSubtype_infer hmemo hv hd (.inl rfl)

/-- The list is inferred with two levels, and with one. -/
theorem isSubtype_infer_depth_list :
    let first := ({} : Engine).infer (typedHeap (.app Name.list [.con Name.int])) typedList 2 (-1)
    let second := first.2.infer (typedHeap (.app Name.list [.con Name.int])) typedList 1 (-1)
    let s := Shape.ofClass Name.list
      [.unionOf [.leaf Name.int, .ofClass Name.list [.leaf Name.int]]]
    let t := Shape.ofClass Name.list [.unionOf [.leaf Name.int, .leaf Name.list]]
    first.1 = some s ∧ second.1 = some t ∧ ¬ t.CutsUnion ∧
      (second.2.isSubtype s t).1 = true := by
  intro first second s t
  have hs : first.1 = some s :=
    congrArg (fun s => some (Shape.ofClass Name.list [s])) mergeShapes_listOfInt
  have ht : second.1 = some t := by
    have hmerge : mergeShapes [.leaf Name.list, .leaf Name.int] = _ :=
      Registry.mergeShapes_pair rfl
    exact congrArg (fun s => some (Shape.ofClass Name.list [s])) hmerge
  -- No leaf is a union, and the union of the example is not bare.
  have hleaf (name : Text) : ¬ (Shape.leaf name).CutsUnion :=
    Shape.not_cutsUnion_iff.2 ⟨fun hu => (by cases hu), fun _ hb => (by cases hb)⟩
  have hunion : ¬ (Shape.unionOf [.leaf Name.int, .leaf Name.list]).CutsUnion :=
    Shape.not_cutsUnion_iff.2 ⟨fun _ => rfl,
      List.forall_mem_cons.2 ⟨hleaf _, List.forall_mem_singleton.2 (hleaf _)⟩⟩
  have hcut : ¬ t.CutsUnion :=
    Shape.not_cutsUnion_iff.2 ⟨fun _ => rfl, List.forall_mem_singleton.2 hunion⟩
  obtain ⟨s', t', hs', ht', hsub⟩ := isSubtype_infer_depth (e := {}) (k := -1)
    Memo.isWhole_nil (embedsClosed_typedList (t := .app Name.list [.con Name.int]) rfl)
    (show (1 : Int) ≤ 2 by decide)
  obtain rfl : s = s' := Option.some.inj (hs.symm.trans hs')
  obtain rfl : t = t' := Option.some.inj (ht.symm.trans ht')
  exact ⟨hs, ht, hcut, hsub (fun _ => hcut) (by decide)⟩

/-- A value that declares a union. -/
def typedUnion : Value := .typed (.union [.con Name.int, .con Name.string] false)

/-- Without depth the union is cut down to its root, which has no branches.  The whole union is not
below it, and it is itself below every shape: an engine without depth takes the value for a list. -/
theorem not_isSubtype_infer_depth :
    let first := ({} : Engine).infer {} typedUnion 1 (-1)
    let second := first.2.infer {} typedUnion 0 (-1)
    let s := Shape.unionOf [.leaf Name.int, .leaf Name.string]
    let t := Shape.bare s.origin
    first.1 = some s ∧ second.1 = some t ∧ s.depth + t.depth ≤ maxRecursion ∧
      (second.2.isSubtype s t).1 = false ∧
      (({ maxDepth := 0, judge := none } : Engine).isInstance {} typedUnion
        (.app Name.list [.con Name.int])).1 = true := by
  intro first second s t
  exact ⟨rfl, rfl, by decide, by decide, by decide⟩

end Engine

end TypeShape
