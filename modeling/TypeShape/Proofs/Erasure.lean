import TypeShape.Proofs.Occurrence
import TypeShape.Proofs.Rebuilding
import TypeShape.Proofs.RoundTrip

/-!
# What reduction leaves of a type

Reduction sets value constraints aside: an annotated type counts as the type that is annotated, and
a literal type as the union of the classes of its values.  The expression that is built from the
shape of a regular type is this remainder again, up to the spelling of an `Optional` of `Nil`.

## Key results

- `TypeExpr.Regular.expression_erased`: the way through the shape erases constraints, and only them
- `TypeExpr.erased_of_free`: there is nothing to erase where no constraint occurs
- `distinctNames_eq_eraseDups`: the classes of a literal type stand in the order in which they occur
  first
- `Registry.expression_of_parse`: what is read, its shape and back, and the way to the shape again
-/

namespace TypeShape

namespace TypeExpr

mutual

/-- The expression without constraints on values. -/
@[simp] def erased : TypeExpr → TypeExpr
  | omitted => omitted
  | con name => con name
  | app head args => app head (erasedAll args)
  | var name bound constraints => var name bound constraints
  | union members optional => union (erasedAll members) optional
  | callable params result ellipsis => callable (erasedAll params) (erased result) ellipsis
  | typeOf operand => typeOf (erased operand)
  | annotated inner _ => erased inner
  | literal values => literalClasses values

/-- The expressions of a list without constraints on values. -/
@[simp] def erasedAll : List TypeExpr → List TypeExpr
  | [] => []
  | t :: ts => erased t :: erasedAll ts

end

/-- Erasing in a list is erasing one by one. -/
theorem erasedAll_eq_map (ts : List TypeExpr) : erasedAll ts = ts.map erased := by
  induction ts with
  | nil => rfl
  | cons t ts ih => rw [erasedAll, ih, List.map_cons]

/-! ## Nothing to erase -/

/-- No constraint on values is written in the expression. -/
def IsFree (t : TypeExpr) : Prop :=
  (∀ inner metadata, ¬ Occurs (.annotated inner metadata) t) ∧
    ∀ values, ¬ Occurs (.literal values) t

/-- A part of a type without constraints has none. -/
theorem IsFree.of_occurs {t : TypeExpr} (h : t.IsFree) {u : TypeExpr}
    (hu : ∀ s, Occurs s u → Occurs s t) : u.IsFree :=
  ⟨fun inner metadata hs => h.1 inner metadata (hu _ hs), fun values hs => h.2 values (hu _ hs)⟩

/-- A class without arguments has no constraints. -/
theorem IsFree.con (name : Text) : IsFree (.con name) :=
  ⟨fun _ _ h => (nomatch h), fun _ h => (nomatch h)⟩

/-- A union of types without constraints has none. -/
theorem IsFree.union {members : List TypeExpr} {optional : Bool} (h : ∀ t ∈ members, t.IsFree) :
    IsFree (.union members optional) := by
  constructor
  · rintro inner metadata hoccurs
    cases hoccurs with
    | member ht hoccurs => exact (h _ ht).1 inner metadata hoccurs
  · rintro values hoccurs
    cases hoccurs with
    | member ht hoccurs => exact (h _ ht).2 values hoccurs

/-- There is nothing to erase in a list of types that have nothing to erase. -/
theorem erasedAll_of_free {ts : List TypeExpr} (h : ∀ t ∈ ts, t.erased = t) :
    erasedAll ts = ts := by
  rw [erasedAll_eq_map]
  exact (List.map_congr_left h).trans (List.map_id' ts)

/-- There is nothing to erase in a regular type without constraints. -/
theorem erased_of_free {t : TypeExpr} (ht : t.Regular) (h : t.IsFree) : t.erased = t := by
  -- By induction on the type: constraints stand in annotated and literal types only.
  induction ht with
  | con name => rfl
  | app _ _ ih =>
    rw [erased, erasedAll_of_free fun t ht => ih t ht (h.of_occurs fun _ => .argument ht)]
  | var name bound constraints => rfl
  | union _ ih =>
    rw [erased, erasedAll_of_free fun t ht => ih t ht (h.of_occurs fun _ => .member ht)]
  | @optional t _ ih =>
    have ht := ih (h.of_occurs fun _ => .member List.mem_cons_self)
    show union [t.erased, .nil] true = _
    rw [ht]
    rfl
  | callable _ _ ih₁ ih₂ =>
    rw [erased, erasedAll_of_free fun t ht => ih₁ t ht (h.of_occurs fun _ => .parameter ht),
      ih₂ (h.of_occurs fun _ => .result)]
  | variadic _ ih =>
    rw [erased, ih (h.of_occurs fun _ => .result)]
    rfl
  | bareType => rfl
  | typeOf _ ih => rw [erased, ih (h.of_occurs fun _ => .operand)]
  | annotated _ _ => exact absurd .self (h.1 _ _)
  | literal values => exact absurd .self (h.2 values)

/-! ## Through the shape and back -/

/-- What is built of a list is the list without constraints, if it is so for every element. -/
theorem build_erasedAll {ts : List TypeExpr}
    (h : ∀ t ∈ ts, ∃ u, Shape.build [] false t.shape = .ok u ∧ u.same t.erased = true) :
    ∃ us, Shape.buildAll [] false (ts.map shape) = .ok us ∧ sameAll us (erasedAll ts) = true := by
  induction ts with
  | nil => exact ⟨[], by simp [Shape.buildAll], rfl⟩
  | cons t ts ih =>
    obtain ⟨⟨u, hu, hsame⟩, hts⟩ := List.forall_mem_cons.1 h
    obtain ⟨us, hus, hsames⟩ := ih hts
    refine ⟨u :: us, ?_, by rw [erasedAll, sameAll, hsame, hsames]; rfl⟩
    rw [List.map_cons, Shape.buildAll, hu, hus]
    rfl

/-- What is built from the shape of a regular type is the type without constraints. -/
theorem Regular.build_erased {t : TypeExpr} (h : t.Regular) :
    ∃ u, Shape.build [] false t.shape = .ok u ∧ u.same t.erased = true := by
  -- By induction on the type, along the shape of each form.
  induction h with
  | con name =>
    obtain ⟨-, -, -, hbuild⟩ := build_con [] false name
    exact ⟨.con name, hbuild, same_self _⟩
  | @app head args hne _ ih =>
    obtain ⟨us, hus, hsames⟩ := build_erasedAll ih
    have hne' : args.map TypeExpr.shape ≠ [] := by simpa using hne
    refine ⟨.app head us, ?_, by simp [hsames]⟩
    rw [shape_app, Shape.build_ofClass [] false head hne', hus]
    rfl
  | var name bound constraints => exact ⟨_, rfl, same_self _⟩
  | union _ ih =>
    obtain ⟨us, hus, hsames⟩ := build_erasedAll ih
    refine ⟨.union us false, ?_, hsames⟩
    rw [shape_union, Shape.build_unionOf, hus]
    rfl
  | @optional t _ ih =>
    obtain ⟨u, hu, hsame⟩ := ih
    -- Both spellings have the same members, and the spelling does not count.
    obtain ⟨optional, hbuild⟩ := Shape.exists_build_optionalOf hu
    have hnil : TypeExpr.nil.same TypeExpr.nil.erased = true := same_self .nil
    exact ⟨_, hbuild, by simp [hsame, hnil, optionalOf]⟩
  | callable _ _ ih₁ ih₂ =>
    obtain ⟨us, hus, hsames⟩ := build_erasedAll ih₁
    obtain ⟨u, hu, hsame⟩ := ih₂
    refine ⟨.callable us u false, ?_, by simp [hsames, hsame]⟩
    rw [shape_callable, Shape.build_callableOf, hu, hus]
    rfl
  | variadic _ ih =>
    obtain ⟨u, hu, hsame⟩ := ih
    refine ⟨.callable [] u true, ?_, by simp [hsame]⟩
    rw [shape_variadic, Shape.build_variadicOf, hu]
    rfl
  | bareType => exact ⟨.typeOf .omitted, rfl, rfl⟩
  | typeOf h ih =>
    obtain ⟨u, hu, hsame⟩ := ih
    refine ⟨.typeOf u, ?_, hsame⟩
    rw [shape_typeOf h.isOmitted, Shape.build_typeOf, hu]
    rfl
  | annotated _ ih => exact ih
  | literal values => exact ⟨_, build_literalShape [] false values, same_self _⟩

/-- The expression of the shape of a regular type is the type without constraints. -/
theorem Regular.expression_erased {t : TypeExpr} (h : t.Regular) :
    ∃ u, t.shape.expression = .ok u ∧ u.same t.erased = true := by
  obtain ⟨u, hu, hsame⟩ := h.build_erased
  exact ⟨u, by rw [Shape.expression, hu], hsame⟩

end TypeExpr

/-! ## The classes of literal types -/

/-- Leaving out repetitions and choosing names may be done in either order. -/
theorem filter_distinctNames (p : Text → Bool) (names : List Text) :
    (distinctNames names).filter p = distinctNames (names.filter p) := by
  induction names with
  | nil => rfl
  | cons n ns ih =>
    have hcomm : ((distinctNames ns).filter (· != n)).filter p =
        ((distinctNames ns).filter p).filter (· != n) := List.filter_comm _ _ _
    cases hn : p n with
    | true => simp only [distinctNames, List.filter_cons, hn, if_true, hcomm, ih]
    | false =>
      -- A name that is left out is none of those that are kept.
      have hkept : ∀ m ∈ distinctNames (ns.filter p), (m != n) = true := by
        intro m hm
        have hpm := (List.mem_filter.1 (mem_of_mem_distinctNames hm)).2
        exact bne_iff_ne.2 fun heq => by simp [heq, hn] at hpm
      have hnone := List.filter_eq_self.2 hkept
      simp [distinctNames, hn, hcomm, ih, hnone]

/-- Of each name the first occurrence is kept, and these stay in order. -/
theorem distinctNames_eq_eraseDups (names : List Text) :
    distinctNames names = names.eraseDups := by
  -- By induction on the number of names, since filtering may leave out more than one.
  induction h : names.length using Nat.strongRecOn generalizing names with
  | ind k ih =>
    cases names with
    | nil => simp [distinctNames]
    | cons n ns =>
      have hlt : (ns.filter (· != n)).length < k := by
        have hle := List.length_filter_le (· != n) ns
        simp only [List.length_cons] at h
        omega
      rw [distinctNames, filter_distinctNames, ih _ hlt _ rfl, List.eraseDups_cons]
      rfl

/-! ## What is read -/

namespace Registry

/-- The shape of a type that was read without aliases has an expression: the type without
constraints on values, up to the spelling of an `Optional` of `Nil`.  The shape of this expression
is the shape of the type again. -/
theorem expression_of_parse {r : Registry} (haliases : r.aliases = []) {source : Text}
    {t : TypeExpr} (hread : r.parse source = .ok t) :
    ∃ u, Shape.build [] false t.shape = .ok u ∧ t.shape.expression = .ok u ∧
      u.same t.erased = true ∧ u.shape.same t.shape = true := by
  have ht := regular_of_parse haliases hread
  obtain ⟨u, hbuild, hsame⟩ := ht.build_erased
  obtain ⟨u', hexpr, hshape, -⟩ := ht.shape.expression
  have hu : t.shape.expression = .ok u := by rw [Shape.expression, hbuild]
  obtain rfl : u = u' := by simpa [hu] using hexpr
  exact ⟨u, hbuild, hu, hsame, Shape.same_symm hshape⟩

/-- A callable loses the constraints on its result and the `Optional` of its parameter. -/
theorem expression_of_parse_callable :
    let t : TypeExpr := .callable [.optionalOf (.literal [.nil])]
      (.annotated (.literal [.int 1, .bool true, .int 2]) [text ">0"]) false
    builtin.aliases = [] ∧
      builtin.parse (text
        "Callable[[Optional[Literal[Nil]]], Annotated[Literal[1, true, 2], \">0\"]]") = .ok t ∧
      t.erased = .callable [.optionalOf .nil] (.union [.con Name.int, .con Name.bool] false) false ∧
      t.shape.expression = .ok (.callable [.union [.nil, .nil] false]
        (.union [.con Name.int, .con Name.bool] false) false) ∧
      ∃ u, Shape.build [] false t.shape = .ok u ∧ t.shape.expression = .ok u ∧
        u.same t.erased = true ∧ u.shape.same t.shape = true := by
  intro t
  -- Each literal is one symbol, so the source is spelled out and need not be scanned.
  have hliterals : ∀ v ∈ [Literal.nil, .int 1, .bool true, .int 2],
      ∃ s : Symbol, Spelled v.render [s] ∧ s.literal? = some v := by
    intro v hv
    simp only [List.mem_cons, List.not_mem_nil, or_false] at hv
    obtain rfl | rfl | rfl | rfl := hv
    · exact ⟨.name Name.nil, .name (by decide), by decide⟩
    · exact ⟨.number (Text.ofInt 1), .number 1, parseNumber?_ofInt (by decide)⟩
    · exact ⟨.name (text "true"), .name (by decide), by decide⟩
    · exact ⟨.number (Text.ofInt 2), .number 2, parseNumber?_ofInt (by decide)⟩
  have hparam : Written builtin.lookup (.optionalOf (.literal [.nil])) :=
    written_optional (written_literal (by simp) fun v hv => hliterals v (by simp_all))
  have hresult : Written builtin.lookup
      (.annotated (.literal [.int 1, .bool true, .int 2]) [text ">0"]) :=
    written_annotated (written_literal (by simp) fun v hv => hliterals v (by simp_all)) _
  obtain ⟨ss, hss, hterm⟩ := (written_callable (List.forall_mem_singleton.2 hparam) hresult).term
  have hread : builtin.parse t.render = .ok t := parse_of_produces hss.lexes (.single hterm)
  have htext : t.render = text
      "Callable[[Optional[Literal[Nil]]], Annotated[Literal[1, true, 2], \">0\"]]" := by
    decide +kernel
  rw [htext] at hread
  exact ⟨rfl, hread, rfl, rfl, expression_of_parse rfl hread⟩

end Registry

end TypeShape
