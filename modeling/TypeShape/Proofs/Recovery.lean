import TypeShape.Proofs.Erasure
import TypeShape.Proofs.Substitutions
import TypeShape.Proofs.UnificationRuns

/-!
# Unification recovers a substitution

A template unifies with what comes of it when its variables are replaced.  The roots match because
replacing leaves every origin alone, and a variable meets the shape of its own binding, so the
expression of this shape is what it is bound to.  A variable that is met again is bound to the same
again, so it makes no difference that the last binding counts.

## Key results

- `Registry.unifyAt_recovers`: unifying recovers the bindings, from any bindings made before
- `Registry.unify_substitute`: unifying with an instance of the template gives the substitution back
-/

namespace TypeShape

namespace Shape

/-- A tidy shape is no hole. -/
theorem Tidy.isHole {t : Shape} (h : t.Tidy) : t.isHole = false := by
  cases h <;> rfl

/-- The variables of slots are those of the shapes in them. -/
theorem varOccurrencesSlots_eq_flatMap (slots : List Slot) :
    varOccurrencesSlots slots = (slotShapes slots).flatMap varOccurrences := by
  induction slots with
  | nil => simp
  | cons slot slots ih =>
    cases slot <;>
      simp [Registry.varOccurrencesAll_eq_flatMap, ih]

end Shape

namespace Registry

open Shape

variable {r : Registry} {s : Subst}

/-- The bindings `s₁` are those of `s₀` with the variables `vs` bound as by `s`, through the shapes
of what `s` binds them to. -/
structure Recovers (s : Subst) (vs : List TypeVar) (s₀ s₁ : Subst) : Prop where
  bound : ∀ v ∈ vs, ∃ t u, Table.find? s v.name = some t ∧ t.shape.expression = .ok u ∧
    Table.find? s₁ v.name = some u
  kept : ∀ n, (∀ v ∈ vs, v.name ≠ n) → Table.find? s₁ n = Table.find? s₀ n

/-- Nothing is recovered of no variables. -/
theorem Recovers.nil (s s₀ : Subst) : Recovers s [] s₀ s₀ := ⟨nofun, fun _ _ => rfl⟩

/-- Later bindings of a name are the same again. -/
theorem Recovers.append {vs ws : List TypeVar} {s₀ s₁ s₂ : Subst} (h : Recovers s vs s₀ s₁)
    (h' : Recovers s ws s₁ s₂) : Recovers s (vs ++ ws) s₀ s₂ := by
  refine ⟨fun v hv => ?_, fun n hn => ?_⟩
  -- A variable that is met again later is bound by the later run, to the same expression.
  · by_cases hagain : ∃ w ∈ ws, w.name = v.name
    · obtain ⟨w, hw, hname⟩ := hagain
      rw [← hname]
      exact h'.bound w hw
    · have hmem : v ∈ vs :=
        (List.mem_append.1 hv).resolve_right fun hw => hagain ⟨v, hw, rfl⟩
      rw [h'.kept v.name fun w hw hname => hagain ⟨w, hw, hname⟩]
      exact h.bound v hmem
  · obtain ⟨hvs, hws⟩ := List.forall_mem_append.1 hn
    exact (h'.kept n hws).trans (h.kept n hvs)

/-- Unifying a template with what comes of it recovers the bindings of its variables. -/
def Recoverable (r : Registry) (s : Subst) (room : Nat) (t : Shape) : Prop :=
  ∀ s₀, ∃ s₁, r.unifyAt room t (t.substitute s) s₀ = .ok s₁ ∧
    Recovers s t.varOccurrences s₀ s₁

/-! ## Roots and slots -/

/-- Roots of one origin match when they carry equally many slots. -/
theorem rootMismatch?_of_origin {tmpl inst : Shape} {kind : OriginKind} {name : Text}
    (htmpl : tmpl.origin = .plain kind name) (hinst : inst.origin = .plain kind name)
    (hparam : inst.isParameterized = tmpl.isParameterized)
    (hlen : inst.slots.length = tmpl.slots.length) : r.rootMismatch? tmpl inst = none := by
  have horigin : r.originSatisfies inst tmpl = true := by
    cases kind <;> simp [originSatisfies, htmpl, hinst, isSubclass_refl]
  have hhole : tmpl.isHole = false := by simp [isHole, htmpl]
  have hhole' : inst.isHole = false := by simp [isHole, hinst]
  cases h : tmpl.isParameterized <;>
    simp [rootMismatch?, horigin, hhole, hhole', hparam, hlen, h]

/-- Unifying shapes with what comes of them recovers the bindings of their variables. -/
theorem unifyAll_recovers {room : Nat} {ts : List Shape} (h : ∀ t ∈ ts, r.Recoverable s room t)
    (s₀ : Subst) : ∃ s₁, r.unifyAll room ts (ts.map (·.substitute s)) s₀ = .ok s₁ ∧
      Recovers s (varOccurrencesAll ts) s₀ s₁ := by
  induction ts generalizing s₀ with
  | nil => exact ⟨s₀, by simp [unifyAll], .nil s s₀⟩
  | cons t ts ih =>
    obtain ⟨ht, hts⟩ := List.forall_mem_cons.1 h
    -- The rest of the list starts from what the first shape has bound.
    obtain ⟨s₁, hstep, hrecovers⟩ := ht s₀
    obtain ⟨s₂, hrest, hrecovers'⟩ := ih hts s₁
    refine ⟨s₂, ?_, hrecovers.append hrecovers'⟩
    rw [List.map_cons, unifyAll]
    exact bind_eq_ok.2 ⟨s₁, hstep, hrest⟩

/-- So does unifying slots. -/
theorem unifySlots_recovers {room : Nat} {slots : List Slot} (fail : MismatchReason → Error)
    (htidy : ∀ t ∈ slotShapes slots, t.Tidy) (h : ∀ t ∈ slotShapes slots, r.Recoverable s room t)
    (index : Nat) (s₀ : Subst) :
    ∃ s₁, r.unifySlots room fail index slots (slots.map (Slot.substitute s)) s₀ = .ok s₁ ∧
      Recovers s (varOccurrencesSlots slots) s₀ s₁ := by
  -- By induction on the slots, from any bindings; each slot adds those of its own variables.
  induction slots generalizing index s₀ with
  | nil => exact ⟨s₀, by simp [unifySlots], .nil s s₀⟩
  | cons slot slots ih =>
    cases slot with
    | single t =>
      obtain ⟨htt, htts⟩ := List.forall_mem_cons.1 htidy
      obtain ⟨ht, hts⟩ := List.forall_mem_cons.1 h
      rw [List.map_cons, Slot.substitute]
      simp only [unifySlots, htt.isHole, Bool.false_eq_true, if_false]
      by_cases hany : t.isAny = true
      · -- The wildcard in a slot is passed over, and it has no variables.
        rw [if_pos hany]
        obtain rfl := htt.eq_any hany
        exact ih htts hts (index + 1) s₀
      · rw [if_neg hany]
        obtain ⟨s₁, hstep, hrecovers⟩ := ht s₀
        obtain ⟨s₂, hrest, hrecovers'⟩ := ih htts hts (index + 1) s₁
        exact ⟨s₂, bind_eq_ok.2 ⟨s₁, hstep, hrest⟩, hrecovers.append hrecovers'⟩
    | group ts =>
      obtain ⟨-, htts⟩ := List.forall_mem_append.1 htidy
      obtain ⟨ht, hts⟩ := List.forall_mem_append.1 h
      rw [List.map_cons, Slot.substitute]
      simp only [unifySlots, List.length_map, ne_eq, not_true_eq_false, if_false]
      obtain ⟨s₁, hall, hrecovers⟩ := unifyAll_recovers ht s₀
      obtain ⟨s₂, hrest, hrecovers'⟩ := ih htts hts (index + 1) s₁
      exact ⟨s₂, bind_eq_ok.2 ⟨s₁, hall, hrest⟩, hrecovers.append hrecovers'⟩

/-! ## Templates -/

/-- Where there is room for its levels, a template recovers the bindings of its variables. -/
theorem unifyAt_recovers {t : Shape} (ht : t.Tidy)
    (hs : ∀ v ∈ t.varOccurrences, ∃ u e, Table.find? s v.name = some u ∧
      u.shape.expression = .ok e) {room : Nat} (hroom : t.depth ≤ room) :
    r.Recoverable s room t := by
  -- By induction on the template.
  induction ht generalizing room with
  | any =>
    intro s₀
    have hpos : room ≠ 0 := by simp only [any, depth] at hroom; omega
    exact ⟨s₀, by simp [any, unifyAt, hpos], .nil s s₀⟩
  -- A variable takes the expression of the shape that it meets, which is that of its binding.
  | ofVar v =>
    intro s₀
    have hpos : room ≠ 0 := by simp only [ofVar, depth] at hroom; omega
    obtain ⟨u, e, hfind, hexpr⟩ := hs v (List.mem_singleton_self v)
    refine ⟨Table.put v.name e s₀, ?_, fun w hw => ?_, fun n hn => ?_⟩
    · rw [substitute_ofVar, Subst.value, hfind, ofVar, unifyAt, if_neg hpos]
      simp [bindVar, hexpr, Except.map]
    · rw [List.mem_singleton.1 hw]
      exact ⟨u, e, hfind, hexpr, Table.find?_put_self _ _ _⟩
    · exact Table.find?_put_of_ne (hn v (List.mem_singleton_self v)).symm e s₀
  | @bare kind name hany hunion =>
    intro s₀
    have hpos : room ≠ 0 := by simp only [depth] at hroom; omega
    have hroot : r.rootMismatch? (.bare (.plain kind name)) (.bare (.plain kind name)) = none :=
      rootMismatch?_of_origin rfl rfl rfl rfl
    refine ⟨s₀, ?_, .nil s s₀⟩
    rw [substitute_plain, unifyAt]
    · rw [if_neg hpos, hroot]
    · simp
    · simp [hany]
  -- The origin is kept, so the roots match, and the slots have one level of room less.
  | @applied kind name slots hany htidy ih =>
    intro s₀
    obtain ⟨room, rfl⟩ : ∃ k, room = k + 1 := ⟨room - 1, by simp only [depth] at hroom; omega⟩
    have hroot : r.rootMismatch? (.applied (.plain kind name) slots)
        (.applied (.plain kind name) (slots.map (Slot.substitute s))) = none :=
      rootMismatch?_of_origin rfl rfl rfl (List.length_map _)
    have hslots : ∀ t ∈ slotShapes slots, r.Recoverable s room t := by
      intro t ht
      have hlt : t.depth < (applied (.plain kind name) slots).depth := depth_lt_of_mem_slotShapes ht
      refine ih t ht (fun v hv => hs v ?_) (by omega)
      rw [varOccurrences_applied, varOccurrencesSlots_eq_flatMap]
      exact List.mem_flatMap.2 ⟨t, ht, hv⟩
    obtain ⟨s₁, hrun, hrecovers⟩ := unifySlots_recovers
      (mismatch (.applied (.plain kind name) slots)
        (.applied (.plain kind name) (slots.map (Slot.substitute s)))) htidy hslots 0 s₀
    refine ⟨s₁, ?_, by rwa [varOccurrences_applied]⟩
    rw [substitute_applied, unifyAt]
    · rw [if_neg (Nat.succ_ne_zero room), hroot]
      exact hrun
    · simp
    · simp [hany]

/-- A type that was read in the scope of some registry without aliases. -/
def WasRead (t : TypeExpr) : Prop :=
  ∃ (r : Registry) (source : Text), r.aliases = [] ∧ r.parse source = .ok t

/-- What was read is regular. -/
theorem WasRead.regular {t : TypeExpr} : WasRead t → t.Regular :=
  fun ⟨_, _, haliases, hread⟩ => regular_of_parse haliases hread

/-- Unifying a template with what comes of it under a substitution gives the substitution back: it
binds the variables of the template and nothing else, each to what the substitution binds it to, up
to the spelling of unions. -/
theorem unify_substitute (r : Registry) {t : TypeExpr} (hread : WasRead t)
    (hdepth : t.shape.depth ≤ maxRecursion) {s : Subst}
    (hs : ∀ v ∈ t.shape.varOccurrences,
      ∃ u, Table.find? s v.name = some u ∧ WasRead u ∧ u.IsFree) :
    ∃ s', r.unify t.shape (t.shape.substitute s) = .ok s' ∧
      (∀ n, (Table.find? s' n).isSome = true ↔ ∃ v ∈ t.shape.varOccurrences, v.name = n) ∧
      ∀ v ∈ t.shape.varOccurrences, ∀ u, Table.find? s v.name = some u →
        ∃ u', Table.find? s' v.name = some u' ∧ u'.same u = true := by
  have ht := hread.regular.shape.tidy
  -- A binding comes back as the expression of its shape, and has no constraint to lose on the way.
  have hback : ∀ v ∈ t.shape.varOccurrences, ∃ u e, Table.find? s v.name = some u ∧
      u.shape.expression = .ok e ∧ e.same u = true := by
    intro v hv
    obtain ⟨u, hfind, hread, hfree⟩ := hs v hv
    obtain ⟨e, hexpr, hsame⟩ := hread.regular.expression_erased
    rw [TypeExpr.erased_of_free hread.regular hfree] at hsame
    exact ⟨u, e, hfind, hexpr, hsame⟩
  have hexpr : ∀ v ∈ t.shape.varOccurrences, ∃ u e, Table.find? s v.name = some u ∧
      u.shape.expression = .ok e := by
    intro v hv
    obtain ⟨u, e, hfind, hexpr, -⟩ := hback v hv
    exact ⟨u, e, hfind, hexpr⟩
  obtain ⟨s', hunify, hrecovers⟩ := r.unifyAt_recovers ht hexpr (Nat.le_succ_of_le hdepth) []
  -- Nothing was bound before, so every name that is bound now is a variable of the template.
  refine ⟨s', hunify, fun n => ⟨fun hn => ?_, ?_⟩, fun v hv u hfind => ?_⟩
  · by_contra hnone
    rw [hrecovers.kept n fun v hv hname => hnone ⟨v, hv, hname⟩] at hn
    cases hn
  · rintro ⟨v, hv, rfl⟩
    obtain ⟨-, e, -, -, hbound⟩ := hrecovers.bound v hv
    rw [hbound]
    rfl
  · obtain ⟨u', e, hfind', hexpr, hbound⟩ := hrecovers.bound v hv
    obtain ⟨u'', e', hfind'', hexpr', hsame⟩ := hback v hv
    -- Both facts are about the one binding of the name, and about its one expression.
    obtain rfl : u = u' := by simpa [hfind] using hfind'
    obtain rfl : u = u'' := by simpa [hfind] using hfind''
    obtain rfl : e = e' := by simpa [hexpr] using hexpr'
    exact ⟨e, hbound, hsame⟩

/-- A variable that occurs twice, and is bound to a union, is recovered. -/
theorem map_unify_substitute :
    let t := TypeExpr.app Name.map
      [keyVar.toExpr, .callable [] keyVar.toExpr true]
    let u := TypeExpr.optionalOf .nil
    let s : Subst := [(keyVar.name, u)]
    builtin.parse (text "Map[_K, Callable[..., _K]]") = .ok t ∧
      builtin.parse (text "Optional[Nil]") = .ok u ∧
      ∃ s', builtin.unify t.shape (t.shape.substitute s) = .ok s' ∧
        ∃ u', Table.find? s' keyVar.name = some u' ∧ u'.same u = true := by
  intro t u s
  have hread : builtin.parse (text "Map[_K, Callable[..., _K]]") = .ok t := rfl
  have hreadu : builtin.parse (text "Optional[Nil]") = .ok u := rfl
  -- The variable occurs as the key and as the result of the callable.
  have hvars : t.shape.varOccurrences = [keyVar, keyVar] := rfl
  have hfree : u.IsFree := by
    refine .union fun t ht => ?_
    obtain rfl : t = .nil := by simpa using ht
    exact .con Name.nil
  have hs : ∀ v ∈ t.shape.varOccurrences,
      ∃ w, Table.find? s v.name = some w ∧ WasRead w ∧ w.IsFree := by
    intro v hv
    rw [hvars] at hv
    obtain rfl : v = keyVar := by simpa using hv
    exact ⟨u, rfl, ⟨builtin, _, rfl, hreadu⟩, hfree⟩
  obtain ⟨s', hunify, -, hbound⟩ :=
    unify_substitute builtin ⟨builtin, _, rfl, hread⟩ (by decide) hs
  refine ⟨hread, hreadu, s', hunify, hbound keyVar ?_ u rfl⟩
  rw [hvars]
  exact List.mem_cons_self

end Registry

end TypeShape
