import TypeShape.Proofs.MemoAnswers
import TypeShape.Proofs.NarrowerShapes

/-!
# Runs of inference

Values may carry type expressions, and inference reduces these through the memo of the engine.  What
it answers is told by what the memo shows in the end (`inferSeen`).  The memo only grows, so if the
expressions in a value have no type variables as they are seen at first, they have none as they are
seen later on, and all shapes that are inferred are closed.

## Key results

- `Registry.inferSeen_repeated`, `Registry.inferSeen_plain`, `Registry.inferSeen_entered`: inference
  level by level
- `Registry.closed_inferSeen`: what is inferred is closed if the expressions in the value are
- `Engine.infer_eq`: the inference of the engine, told by what its memo shows in the end
- `Engine.infer_embedsClosed`: inference brings no type variables into the expressions of a value
-/

namespace TypeShape

open Relation (ReflTransGen)

/-! ## Inference in two monads at once -/

namespace Simulation

variable {m n : Type → Type} [Monad m] [Monad n] [Reducing m] [Reducing n]
variable (S : Simulation m n) (r : Registry) (h : Host)

/-- The shape of a value that is not entered is worked out alike in both monads. -/
theorem inferPlain (depth : Nat) (v : Value) :
    S.Rel (r.inferPlain h depth v) (r.inferPlain h depth v) := by
  -- An expression in a value is reduced and then coarsened.
  have coarsened (t : TypeExpr) : S.Rel
      (do let s ← r.shapeM t; pure (coarsen depth s))
      (do let s ← r.shapeM t; pure (coarsen depth s)) :=
    S.rel_bind (S.shapeM r t) fun _ => S.rel_pure _
  cases v with
  | typeObject t =>
    simp only [Registry.inferPlain]
    split
    · exact S.rel_pure _
    · exact S.rel_bind (S.shapeM r t) fun _ => S.rel_pure _
  | typed t => exact coarsened t
  | hooked hostType t =>
    simp only [Registry.inferPlain]
    split
    · exact coarsened t
    · exact S.rel_pure _
  | message hostType name descriptor =>
    simp only [Registry.inferPlain]
    split
    · exact coarsened (.con name)
    · exact S.rel_pure _
  | pointer type a =>
    cases a with
    | none =>
      simp only [Registry.inferPlain]
      split <;> exact S.rel_pure _
    | some a => exact S.rel_pure _
  | _ => exact S.rel_pure _

/-- What is inferred is worked out alike in both monads. -/
theorem inferAt (maxSample : Int) (depth : Nat) (visiting : List Nat) (v : Value) :
    S.Rel (r.inferAt h maxSample depth visiting v) (r.inferAt h maxSample depth visiting v) := by
  -- The depth is the recursion of inference; each part is inferred with one level less.
  induction depth generalizing visiting v with
  | zero =>
    simp only [Registry.inferAt]
    split
    · exact S.rel_pure _
    · exact S.inferPlain r h 0 _
  | succ depth ih =>
    simp only [Registry.inferAt]
    split
    · exact S.rel_pure _
    · split
      · exact S.inferPlain r h (depth + 1) _
      · exact S.rel_bind (S.mapM (ih _) _) fun _ => S.rel_pure _
      · exact S.rel_bind (S.mapM (ih _) _) fun _ => S.rel_pure _
      · exact S.rel_bind (S.mapM (fun (e : Value × Value) => S.rel_bind (ih _ e.1) fun _ =>
          S.rel_bind (ih _ e.2) fun _ => S.rel_pure _) _) fun _ => S.rel_pure _

end Simulation

namespace Registry

variable {r : Registry} {see : View} {h : Host} {maxSample : Int} {depth : Nat}
variable {visiting visiting' : List Nat} {v w : Value}

/-! ## Type expressions in values -/

/-- The type that a value declares, or that a hook gives it. -/
def declaredType? (r : Registry) : Value → Option TypeExpr
  | .typed t => some t
  | .hooked _ t => if r.typers.contains .custom then some t else none
  | .message _ name _ => if r.typers.contains .messages then some (.con name) else none
  | _ => none

/-- The type expression that a value carries: the one it is, or the type that it declares. -/
def embeddedType? (r : Registry) : Value → Option TypeExpr
  | .typeObject t => some t
  | v => r.declaredType? v

/-- A value without a type expression does not tell its own type. -/
theorem isSelfTyped_of_embeddedType? (hv : r.embeddedType? v = none) :
    r.isSelfTyped v = false := by
  cases v <;> simp_all [embeddedType?, declaredType?, isSelfTyped]

/-- The type expressions in all values that a value leads to have no type variables, as they are
seen. -/
def EmbedsClosed (r : Registry) (see : View) (h : Host) (v : Value) : Prop :=
  ∀ w t, ReflTransGen h.Leads v w → r.embeddedType? w = some t →
    (r.shapeSeen see t).isConcrete = true

/-- What a value leads to embeds no variables if the value embeds none. -/
theorem EmbedsClosed.of_leads (hv : r.EmbedsClosed see h v) (hw : ReflTransGen h.Leads v w) :
    r.EmbedsClosed see h w :=
  fun u t hu => hv u t (hw.trans hu)

/-! ## Inference level by level -/

/-- The shape that is inferred, as expressions are seen. -/
def inferSeen (r : Registry) (see : View) (h : Host) (maxSample : Int) (depth : Nat)
    (visiting : List Nat) (v : Value) : Shape :=
  (r.inferAt h maxSample depth visiting v : Seeing Shape).run see

/-- The shape of a value that is not entered, as expressions are seen. -/
def plainSeen (r : Registry) (see : View) (h : Host) (depth : Nat) (v : Value) : Shape :=
  (r.inferPlain h depth v : Seeing Shape).run see

/-- A pointer that is being followed already has the shape of its type. -/
theorem inferSeen_repeated {type : HostType}
    (hland : r.land h (h.cells.size + 1) visiting v = (visiting', .repeated type)) (depth : Nat) :
    r.inferSeen see h maxSample depth visiting v = r.hostShape h.definitions 0 type := by
  rw [inferSeen, inferAt_repeated hland]
  rfl

/-- A value that is not entered has the shape that it has as a whole. -/
theorem inferSeen_plain
    (hland : r.land h (h.cells.size + 1) visiting v = (visiting', .value w))
    (hplain : depth = 0 ∨ r.contents h w = .none) :
    r.inferSeen see h maxSample depth visiting v = r.plainSeen see h depth w := by
  rw [inferSeen, inferAt_plain hland hplain]
  rfl

/-- A loop that sees the view gives what each round sees. -/
theorem run_mapM_seeing {α β : Type} (f : α → Seeing β) (as : List α) :
    (as.mapM f).run see = as.map fun a => (f a).run see := by
  induction as with
  | nil => rw [List.mapM_nil]; rfl
  | cons a as ih =>
    rw [List.mapM_cons, List.map_cons, ← ih]
    rfl

/-- A value that is entered has the shape made of the shapes of its parts. -/
theorem inferSeen_entered {s : Shape}
    (hland : r.land h (h.cells.size + 1) visiting v = (visiting', .value w))
    (hshape : (r.contents h w).shape? maxSample (r.inferSeen see h maxSample depth visiting') =
      some s) :
    r.inferSeen see h maxSample (depth + 1) visiting v = s := by
  simp only [inferSeen, inferAt, hland]
  -- Each kind of contents is worked out by a loop of its own.
  cases hcontents : r.contents h w with
  | none =>
    rw [hcontents] at hshape
    cases hshape
  | positions items =>
    rw [hcontents] at hshape
    cases hshape
    show Shape.ofClass Name.tuple ((items.mapM _ : Seeing (List Shape)).run see) = _
    rw [run_mapM_seeing]
    rfl
  | elements items =>
    rw [hcontents] at hshape
    cases hshape
    show Shape.ofClass Name.list [mergeShapes ((List.mapM _ _ : Seeing (List Shape)).run see)] = _
    rw [run_mapM_seeing]
    rfl
  | entries es =>
    rw [hcontents] at hshape
    cases hshape
    show Shape.ofClass Name.map
      [mergeShapes (((es.mapM _ : Seeing (List (Shape × Shape))).run see).map (·.1)),
        mergeShapes (((es.mapM _ : Seeing (List (Shape × Shape))).run see).map (·.2))] = _
    rw [run_mapM_seeing, List.map_map, List.map_map]
    rfl

/-- A pointer that is being followed already has the shape of its type.  Any other value is seen as
the value that its pointers end at: as a whole if there is no depth left or nothing to enter, and
else part by part. -/
theorem inferSeen_cases (r : Registry) (see : View) (h : Host) (visiting : List Nat) (v : Value) :
    (∃ type, ∀ maxSample depth, r.inferSeen see h maxSample depth visiting v =
      r.hostShape h.definitions 0 type) ∨
    ∃ visiting' w, ReflTransGen h.Leads v w ∧
      (∀ {maxSample depth}, depth = 0 ∨ r.contents h w = .none →
        r.inferSeen see h maxSample depth visiting v = r.plainSeen see h depth w) ∧
      ∀ {maxSample depth s},
        (r.contents h w).shape? maxSample (r.inferSeen see h maxSample depth visiting') = some s →
        r.inferSeen see h maxSample (depth + 1) visiting v = s := by
  -- Where following the pointers ends is found before anything is inferred.
  have hlands := lands_land_size (r := r) (h := h) visiting v
  rcases hland : r.land h (h.cells.size + 1) visiting v with ⟨visiting', w | type⟩
  · rw [hland] at hlands
    exact .inr ⟨visiting', w, hlands.leads, inferSeen_plain hland, inferSeen_entered hland⟩
  · exact .inl ⟨type, fun _ => inferSeen_repeated hland⟩

/-! ## Shapes of host types -/

/-- A class without arguments is closed. -/
theorem closed_leaf (name : Text) : (Shape.leaf name).Closed := Shape.closed_bare .nominal name

/-- The parts of a layer are closed, if there are any. -/
theorem closed_hostLayer {definitions : Table HostType} {inner : Option (HostType → Shape)}
    (hinner : ∀ f, inner = some f → ∀ t, (f t).Closed) (t : HostType) :
    (r.hostLayer definitions inner t).Closed := by
  have hparts {f : HostType → Shape} (hf : inner = some f) (ts : List HostType) :
      ∀ s ∈ ts.map f, s.Closed := by
    intro s hs
    obtain ⟨t, -, rfl⟩ := List.mem_map.1 hs
    exact hinner f hf t
  -- Types with a class of their own come first, and then each form of a type has its layer.
  unfold hostLayer
  split
  · exact closed_leaf _
  split
  · exact closed_leaf _
  cases t.form definitions with
  | slice elem | array _ elem =>
    cases inner with
    | none => exact closed_leaf _
    | some f => exact Shape.closed_ofClass Name.list (hparts rfl [elem])
  | map key value =>
    cases inner with
    | none => exact closed_leaf _
    | some f => exact Shape.closed_ofClass Name.map (hparts rfl [key, value])
  | func params results _ =>
    cases inner with
    | none => exact Shape.closed_bare _ _
    | some f =>
      refine Shape.closed_callableOf (hparts rfl params) ?_
      match results with
      | [] => exact closed_leaf _
      | [t] => exact hinner f rfl t
      | t :: u :: ts => exact Shape.closed_ofClass Name.tuple (hparts rfl (t :: u :: ts))
  | any => exact Shape.closed_bare _ _
  | _ => exact closed_leaf _

/-- The shape of a host type is closed, to any depth. -/
theorem closed_hostShape (r : Registry) (definitions : Table HostType) (depth : Nat) (t : HostType) :
    (r.hostShape definitions depth t).Closed := by
  -- A layer is closed if its parts are, and the last layer has no parts.
  have hstep {inner : Option (HostType → Shape)}
      (hinner : ∀ f, inner = some f → ∀ t, (f t).Closed) (t : HostType) :
      (r.hostShapeStep definitions inner t).Closed := by
    unfold hostShapeStep
    split
    · exact closed_hostLayer hinner t
    split
    · exact closed_leaf _
    split
    · exact closed_leaf _
    · exact closed_hostLayer hinner _
  induction depth generalizing t with
  | zero => exact hstep (fun _ hnone => by cases hnone) t
  | succ depth ih =>
    refine hstep ?_ t
    rintro f hf t
    cases hf
    exact ih t

/-! ## Values that are not entered -/

/-- A type as a value is the type of what it denotes, or the type of types without depth left. -/
theorem plainSeen_typeObject (t : TypeExpr) :
    r.plainSeen see h depth (.typeObject t) =
      if depth = 0 then .anyType else .typeOf (r.shapeSeen see t) := by
  simp only [plainSeen, inferPlain]
  split <;> rfl

/-- A value that declares its type has the shape of that type, coarsened. -/
theorem plainSeen_declared {t : TypeExpr} (hv : r.declaredType? v = some t) :
    r.plainSeen see h depth v = coarsen depth (r.shapeSeen see t) := by
  -- Values of other kinds declare no type; hooks count only if they are installed.
  cases v with
  | typed t =>
    cases hv
    rfl
  | hooked hostType t =>
    rw [declaredType?] at hv
    split at hv
    · rename_i hhook
      cases hv
      rw [plainSeen, inferPlain, if_pos hhook]
      rfl
    · cases hv
  | message hostType name descriptor =>
    rw [declaredType?] at hv
    split at hv
    · rename_i hhook
      cases hv
      rw [plainSeen, inferPlain, if_pos hhook]
      rfl
    · cases hv
  | _ => cases hv

/-- A value that is not entered is a type, declares one, is a function, or has a shape that depends
neither on the depth nor on how expressions are seen. -/
theorem plainSeen_cases (r : Registry) (h : Host) (v : Value) :
    (∃ t, v = .typeObject t) ∨ (∃ t, r.declaredType? v = some t) ∨ (∃ type, v = .func type) ∨
      ∃ s : Shape, s.Closed ∧ ∀ see depth, r.plainSeen see h depth v = s := by
  have hconstant {s : Shape} (hs : s.Closed) (hplain : ∀ see depth, r.plainSeen see h depth v = s) :
      (∃ t, v = .typeObject t) ∨ (∃ t, r.declaredType? v = some t) ∨ (∃ type, v = .func type) ∨
        ∃ s : Shape, s.Closed ∧ ∀ see depth, r.plainSeen see h depth v = s :=
    .inr (.inr (.inr ⟨s, hs, hplain⟩))
  -- The shape of a value that is none of these is found in its static type, or in its class.
  have hstatic := hconstant (closed_hostShape r h.definitions 0 v.hostType)
  cases v with
  | typeObject t => exact .inl ⟨t, rfl⟩
  | typed t => exact .inr (.inl ⟨t, rfl⟩)
  | func type => exact .inr (.inr (.inl ⟨type, rfl⟩))
  | hooked hostType t =>
    by_cases hhook : r.typers.contains .custom = true
    · exact .inr (.inl ⟨t, if_pos hhook⟩)
    · refine hconstant (closed_hostShape r h.definitions 0 hostType) fun see depth => ?_
      rw [plainSeen, inferPlain, if_neg hhook]
      rfl
  | message hostType name descriptor =>
    by_cases hhook : r.typers.contains .messages = true
    · exact .inr (.inl ⟨.con name, if_pos hhook⟩)
    · refine hconstant (closed_hostShape r h.definitions 0 (.pointer hostType)) fun see depth => ?_
      rw [plainSeen, inferPlain, if_neg hhook]
      rfl
  | pointer type a =>
    cases a with
    | none =>
      cases hclass : r.hostClass? type with
      | none =>
        refine hconstant (closed_leaf Name.nil) fun see depth => ?_
        simp only [plainSeen, inferPlain, hclass]
        rfl
      | some name =>
        refine hconstant (closed_leaf name) fun see depth => ?_
        simp only [plainSeen, inferPlain, hclass]
        rfl
    | some a => exact hstatic fun _ _ => rfl
  | nil | bytes _ | tuple _ _ | slice _ _ _ | array _ _ | map _ _ _ =>
    exact hconstant (closed_leaf _) fun _ _ => rfl
  | _ => exact hstatic fun _ _ => rfl

/-- A type that is declared is embedded. -/
theorem embeddedType?_of_declaredType? {t : TypeExpr} (hv : r.declaredType? v = some t) :
    r.embeddedType? v = some t := by
  cases v with
  | typeObject u => cases hv
  | _ => exact hv

/-- Coarsening keeps a shape closed. -/
theorem closed_coarsen {s : Shape} (hs : s.Closed) (depth : Nat) : (coarsen depth s).Closed := by
  unfold coarsen
  split
  · obtain ⟨kind, name, ho⟩ := hs.exists_origin
    rw [ho]
    exact Shape.closed_bare kind name
  · exact hs

/-- The shape of a value that is not entered is closed, if the expression in it has no variables. -/
theorem closed_plainSeen (hsee : see.IsWhole)
    (hv : ∀ t, r.embeddedType? v = some t → (r.shapeSeen see t).isConcrete = true) (depth : Nat) :
    (r.plainSeen see h depth v).Closed := by
  have hclosed {t : TypeExpr} (ht : r.embeddedType? v = some t) : (r.shapeSeen see t).Closed :=
    ⟨hsee _, hv t ht⟩
  -- By the form of the value; only the first two have an expression in them.
  obtain ⟨t, rfl⟩ | ⟨t, ht⟩ | ⟨type, rfl⟩ | ⟨s, hs, hplain⟩ := r.plainSeen_cases h v
  · rw [plainSeen_typeObject]
    split
    · exact Shape.closed_bare _ _
    · exact Shape.closed_typeOf (hclosed rfl)
  · rw [plainSeen_declared ht]
    exact closed_coarsen (hclosed (embeddedType?_of_declaredType? ht)) depth
  · exact closed_hostShape r h.definitions depth type
  · rw [hplain]
    exact hs

/-! ## Containers -/

/-- The shape made of closed shapes is closed. -/
theorem Contents.closed_shape? {c : Contents} {f : Value → Shape} {s : Shape}
    (hs : c.shape? maxSample f = some s) (hf : ∀ x ∈ c.parts maxSample, (f x).Closed) :
    s.Closed := by
  -- The container is an application of a class, whose arguments are merged from closed shapes.
  cases c with
  | none => cases hs
  | positions items =>
    cases hs
    exact Shape.closed_ofClass Name.tuple (List.forall_mem_map.2 hf)
  | elements items =>
    cases hs
    refine Shape.closed_ofClass Name.list (List.forall_mem_singleton.2 ?_)
    exact closed_mergeShapes (List.forall_mem_map.2 hf)
  | entries es =>
    cases hs
    obtain ⟨hkeys, hvalues⟩ := Contents.forall_mem_entries.1 hf
    refine Shape.closed_ofClass Name.map (List.forall_mem_cons.2 ⟨?_, ?_⟩)
    · exact closed_mergeShapes (List.forall_mem_map.2 hkeys)
    · exact List.forall_mem_singleton.2 (closed_mergeShapes (List.forall_mem_map.2 hvalues))

/-- What is inferred is closed, if the type expressions in the value have no type variables. -/
theorem closed_inferSeen (hsee : see.IsWhole) (hv : r.EmbedsClosed see h v) :
    (r.inferSeen see h maxSample depth visiting v).Closed := by
  -- The induction is on the depth; the parts are led to by the value, so they embed no variables
  -- either.
  induction depth generalizing visiting v with
  | zero =>
    obtain ⟨type, hrepeated⟩ | ⟨_, w, hleads, hplain, -⟩ := r.inferSeen_cases see h visiting v
    · rw [hrepeated]
      exact closed_hostShape r h.definitions 0 type
    · rw [hplain (.inl rfl)]
      exact closed_plainSeen hsee (fun t => hv w t hleads) 0
  | succ depth ih =>
    obtain ⟨type, hrepeated⟩ | ⟨visiting', w, hleads, hplain, hentered⟩ :=
      r.inferSeen_cases see h visiting v
    · rw [hrepeated]
      exact closed_hostShape r h.definitions 0 type
    cases hshape : (r.contents h w).shape? maxSample
        (r.inferSeen see h maxSample depth visiting') with
    | none =>
      rw [hplain (.inr (Contents.shape?_eq_none.1 hshape))]
      exact closed_plainSeen hsee (fun t => hv w t hleads) _
    | some s =>
      rw [hentered hshape]
      exact Contents.closed_shape? hshape fun x hx =>
        ih (hv.of_leads (hleads.tail (leads_of_mem_parts hx)))

end Registry

/-! ## What the memo shows on the way -/

/-- After a reduction every expression is seen as before, or as the expression that was reduced. -/
theorem Memo.view_run_reduce (t u : TypeExpr) (memo : Memo) :
    (StateT.run (Memo.reduce t) memo).2.view u = memo.view u ∨
      (StateT.run (Memo.reduce t) memo).2.view u = memo.view t := by
  rw [run_reduce]
  split
  · exact .inl rfl
  rename_i homitted
  split
  · exact .inl rfl
  · rename_i hnone
    -- A reduction adds one entry, so only expressions with its key are seen anew.
    by_cases hu : u.isOmitted = true
    · exact .inl (by simp [view, hu])
    by_cases hkey : u.key = t.key
    · exact .inr (by simp [view, hu, homitted, hkey, hnone])
    · exact .inl (by simp [view, hu, hkey])

/-- A query leaves memos with a property as they are, as far as the property goes. -/
def KeepsMemo (good : Memo → Prop) {α : Type} (q : Query α) : Prop :=
  ∀ memo, good memo → good (StateT.run (OptionT.run q) memo).2

namespace KeepsMemo

variable {good : Memo → Prop} {α β : Type}

/-- A value is answered without touching the memo. -/
theorem pure (a : α) : KeepsMemo good (pure a) := fun _ hgood => hgood

/-- What both parts of a sequence keep is kept by the sequence. -/
theorem bind {q : Query α} {f : α → Query β} (hq : KeepsMemo good q)
    (hf : ∀ a, KeepsMemo good (f a)) : KeepsMemo good (q >>= f) := by
  intro memo hgood
  have hq := hq memo hgood
  simp only [OptionT.run_bind, Option.elimM, StateT.run_bind]
  rcases hrun : StateT.run (OptionT.run q) memo with ⟨answer, memo'⟩
  rw [hrun] at hq
  cases answer with
  | none => exact hq
  | some a => exact hf a memo' hq

/-- What each round of a loop keeps is kept by the loop. -/
theorem mapM {f : α → Query β} {as : List α} (hf : ∀ a ∈ as, KeepsMemo good (f a)) :
    KeepsMemo good (as.mapM f) := by
  induction as with
  | nil => exact KeepsMemo.pure []
  | cons a as ih =>
    obtain ⟨ha, has⟩ := List.forall_mem_cons.1 hf
    rw [List.mapM_cons]
    exact ha.bind fun _ => (ih has).bind fun _ => KeepsMemo.pure _

end KeepsMemo

namespace Registry

variable {r : Registry} {h : Host} {root v : Value} {t : TypeExpr}

/-- A type expression in a value may be reduced. -/
theorem keeps_shapeM (hv : ReflTransGen h.Leads root v) (ht : r.embeddedType? v = some t) :
    KeepsMemo (r.EmbedsClosed ·.view h root) (r.shapeM t : Query Shape) := by
  intro memo hgood w u hw hu
  have hview := Memo.view_run_reduce (r.expandAliases t) (r.expandAliases u) memo
  obtain hview | hview := hview
  · exact (congrArg (·.shape.isConcrete) hview).trans (hgood w u hw hu)
  · exact (congrArg (·.shape.isConcrete) hview).trans (hgood v t hv ht)

/-- A value that is not entered reduces the expression in it, if any, and nothing else. -/
theorem keeps_inferPlain (hv : ReflTransGen h.Leads root v) (depth : Nat) :
    KeepsMemo (r.EmbedsClosed ·.view h root) (r.inferPlain h depth v : Query Shape) := by
  have coarsened {t : TypeExpr} (ht : r.embeddedType? v = some t) :
      KeepsMemo (r.EmbedsClosed ·.view h root)
        (do let s ← r.shapeM t; pure (coarsen depth s) : Query Shape) :=
    (keeps_shapeM hv ht).bind fun _ => KeepsMemo.pure _
  cases hembedded : r.embeddedType? v with
  | none =>
    -- Nothing is reduced.
    rw [inferPlain_eq_pure (isSelfTyped_of_embeddedType? hembedded)]
    exact KeepsMemo.pure _
  | some t =>
    cases v with
    | typeObject t =>
      simp only [inferPlain]
      split
      · exact KeepsMemo.pure _
      · exact (keeps_shapeM hv rfl).bind fun _ => KeepsMemo.pure _
    | typed t => exact coarsened rfl
    | hooked hostType t =>
      simp only [inferPlain]
      split
      · rename_i hhook
        exact coarsened (if_pos hhook)
      · exact KeepsMemo.pure _
    | message hostType name descriptor =>
      simp only [inferPlain]
      split
      · rename_i hhook
        exact coarsened (if_pos hhook)
      · exact KeepsMemo.pure _
    | _ => cases hembedded

/-- Inference reduces nothing but the type expressions in values that the root leads to. -/
theorem keeps_inferAt (maxSample : Int) (depth : Nat) (visiting : List Nat)
    (hv : ReflTransGen h.Leads root v) :
    KeepsMemo (r.EmbedsClosed ·.view h root)
      (r.inferAt h maxSample depth visiting v : Query Shape) := by
  -- The induction is on the depth; where pointers lead and what is entered is led to by the root.
  induction depth generalizing visiting v with
  | zero =>
    have hlands := lands_land_size (r := r) (h := h) visiting v
    rcases hland : r.land h (h.cells.size + 1) visiting v with ⟨visiting', w | type⟩
    all_goals rw [hland] at hlands
    · rw [inferAt_plain hland (.inl rfl)]
      exact keeps_inferPlain (hv.trans hlands.leads) 0
    · rw [inferAt_repeated hland]
      exact KeepsMemo.pure _
  | succ depth ih =>
    have hlands := lands_land_size (r := r) (h := h) visiting v
    rcases hland : r.land h (h.cells.size + 1) visiting v with ⟨visiting', w | type⟩
    all_goals rw [hland] at hlands
    · have hw := hv.trans hlands.leads
      have hparts : ∀ x ∈ (r.contents h w).parts maxSample, KeepsMemo (r.EmbedsClosed ·.view h root)
          (r.inferAt h maxSample depth visiting' x : Query Shape) :=
        fun x hx => ih visiting' (hw.tail (leads_of_mem_parts hx))
      simp only [inferAt, hland]
      cases hcontents : r.contents h w with
      | none => exact keeps_inferPlain hw _
      | positions items =>
        rw [hcontents] at hparts
        exact (KeepsMemo.mapM hparts).bind fun _ => KeepsMemo.pure _
      | elements items =>
        rw [hcontents] at hparts
        exact (KeepsMemo.mapM hparts).bind fun _ => KeepsMemo.pure _
      | entries es =>
        rw [hcontents] at hparts
        obtain ⟨hkeys, hvalues⟩ := Contents.forall_mem_entries.1 hparts
        refine KeepsMemo.bind (KeepsMemo.mapM fun e he => ?_) fun _ => KeepsMemo.pure _
        exact (hkeys e he).bind fun _ => (hvalues e he).bind fun _ => KeepsMemo.pure _
    · rw [inferAt_repeated hland]
      exact KeepsMemo.pure _

end Registry

/-! ## The inference of the engine -/

namespace Engine

/-- The shape that is inferred for a value. -/
def infer (e : Engine) (h : Host) (v : Value) (maxDepth maxSample : Int) : Option Shape × Engine :=
  e.run (e.registry.inferM h v maxDepth maxSample)

variable (e : Engine) (h : Host) (v : Value) (maxDepth maxSample : Int)

/-- Inference does not change the registry. -/
theorem infer_registry : (e.infer h v maxDepth maxSample).2.registry = e.registry := rfl

/-- Inference only adds to the memo. -/
theorem infer_extends : (e.infer h v maxDepth maxSample).2.memo.Extends e.memo :=
  (e.run_of_alike (e.registry.inferM h v maxDepth maxSample) fun S =>
    S.inferAt e.registry h maxSample _ [] v).2.1

/-- A memo of whole shapes is one after inference too. -/
theorem infer_isWhole (hmemo : e.memo.IsWhole) :
    (e.infer h v maxDepth maxSample).2.memo.IsWhole :=
  (e.run_of_alike (e.registry.inferM h v maxDepth maxSample) fun S =>
    S.inferAt e.registry h maxSample _ [] v).2.2.1 hmemo

/-- Inference always answers, with the shape that is told by what the memo shows in the end, or at
any time later. -/
theorem infer_eq {see : View} (hsee : see.Agrees (e.infer h v maxDepth maxSample).2.memo) :
    (e.infer h v maxDepth maxSample).1 =
      some (e.registry.inferSeen see h maxSample (min maxDepth.toNat maxRecursion) [] v) :=
  (e.run_of_alike (e.registry.inferM h v maxDepth maxSample) fun S =>
    S.inferAt e.registry h maxSample _ [] v).2.2.2 see hsee

variable {e h v} in
/-- Inference brings no type variables into the type expressions of the value. -/
theorem infer_embedsClosed (hv : e.registry.EmbedsClosed e.memo.view h v) :
    e.registry.EmbedsClosed (e.infer h v maxDepth maxSample).2.memo.view h v :=
  Registry.keeps_inferAt maxSample _ [] .refl e.memo hv

end Engine

end TypeShape
