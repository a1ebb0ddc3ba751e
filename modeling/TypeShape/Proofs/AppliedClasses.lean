import TypeShape.Declaration.Apply
import TypeShape.Proofs.Entries

/-!
# What the entries of a declaration file denote

Applying a class of a declaration file declares its type parameters, reads its bases and members in
the scope made so, and declares the class.  When all of this succeeds, the entry denotes a class,
which has been entered together with the parameters; so the denotation tells without any states what
applying the class does.

## Key results

- `Registry.after_declare_ok`: when a class is declared
- `DeclarationFile.after_applyClass_ok`: a class is applied exactly if its entry denotes a class
- `DeclarationFile.after_enterClass_new`: when a class is entered by name
-/

namespace TypeShape

open Declaring Registry

namespace Registry

variable {r r' : Registry}

/-! ## Declarations that succeed -/

/-- A variable that is new is declared if it may have its name. -/
theorem after_declareVar_new {v : TypeVar} (h : r.var? v.name = none) :
    after (declareVar v) r = (.ok (), r') ↔
      r.MayName v.name ∧ r' = { r with vars := Table.put v.name v r.vars } := by
  constructor
  · intro hrun
    have hname := MayName.of_declareVar hrun
    rw [hname.after_declareVar, h] at hrun
    cases hrun
    exact ⟨hname, rfl⟩
  · rintro ⟨hname, rfl⟩
    rw [hname.after_declareVar, h]

/-- A variable that is known in the same form may be declared again, which changes nothing. -/
theorem after_declareVar_again {v : TypeVar} (h : r.var? v.name = some v) :
    after (declareVar v) r = (.ok (), r') ↔ r.MayName v.name ∧ r' = r := by
  -- The key is the same, so the declarations agree.
  constructor
  · intro hrun
    have hname := MayName.of_declareVar hrun
    rw [hname.after_declareVar, h] at hrun
    simp only [beq_self_eq_true, Bool.or_true, if_true] at hrun
    cases hrun
    exact ⟨hname, rfl⟩
  · rintro ⟨hname, rfl⟩
    rw [hname.after_declareVar, h]
    simp

/-- Whether a variable may be declared: its name is free, or that of a variable it agrees with. -/
def accepts (r : Registry) (v : TypeVar) : Bool :=
  !v.name.isEmpty && !Name.isReserved v.name && !r.classes.has v.name &&
    match r.var? v.name with
    | some existing => v.unrestricted || existing.toExpr.key == v.toExpr.key
    | none => true

/-- A variable that is accepted has a name that it may have. -/
theorem mayName_of_accepts {v : TypeVar} (h : r.accepts v = true) : r.MayName v.name := by
  unfold accepts at h
  simp only [Bool.and_eq_true, Bool.not_eq_true'] at h
  obtain ⟨⟨⟨hempty, hreserved⟩, hclass⟩, -⟩ := h
  exact ⟨hempty, hreserved, has_eq_false.1 hclass⟩

/-- A variable with a name that it may have is accepted unless another one is known by it. -/
theorem accepts_of_mayName {v : TypeVar} (h : r.MayName v.name) :
    r.accepts v = match r.var? v.name with
      | some existing => v.unrestricted || existing.toExpr.key == v.toExpr.key
      | none => true := by
  simp [accepts, h.nonempty, h.unreserved, has_eq_false.2 h.no_class]

/-- A variable that is accepted is declared, and entered if it is new. -/
theorem after_declareVar_of_accepts {v : TypeVar} (h : r.accepts v = true) :
    after (declareVar v) r = (.ok (), if (r.var? v.name).isSome then r
      else { r with vars := Table.put v.name v r.vars }) := by
  have hname := mayName_of_accepts h
  rw [accepts_of_mayName hname] at h
  rw [hname.after_declareVar]
  cases hvar : r.var? v.name with
  | none => rfl
  | some existing =>
    rw [hvar] at h
    exact if_pos h

/-- A variable that is not accepted is refused. -/
theorem after_declareVar_of_refuses {v : TypeVar} (h : ¬ r.accepts v = true) :
    ∃ e, after (declareVar v) r = (.error e, r) := by
  by_cases hname : r.MayName v.name
  · rw [accepts_of_mayName hname] at h
    rw [hname.after_declareVar]
    cases hvar : r.var? v.name with
    | none => simp [hvar] at h
    | some existing =>
      rw [hvar] at h
      exact ⟨_, if_neg h⟩
  · exact after_declareVar_of_not hname

/-- A variable that has been declared is accepted again, as one that is known. -/
theorem accepts_of_declareVar {v : TypeVar} (h : after (declareVar v) r = (.ok (), r')) :
    r'.accepts v = true ∧ (r'.var? v.name).isSome = true := by
  have haccepts : r.accepts v = true := by
    by_contra hrefused
    obtain ⟨e, hrun⟩ := after_declareVar_of_refuses hrefused
    rw [h] at hrun
    cases hrun
  have hname := mayName_of_accepts haccepts
  refine ⟨?_, var?_of_declareVar h⟩
  rw [after_declareVar_of_accepts haccepts] at h
  by_cases hknown : (r.var? v.name).isSome = true
  · rw [if_pos hknown] at h
    cases h
    exact haccepts
  · rw [if_neg hknown] at h
    cases h
    -- The variable agrees with itself.
    have hname' : MayName { r with vars := Table.put v.name v r.vars } v.name :=
      ⟨hname.nonempty, hname.unreserved, hname.no_class⟩
    have hvar : var? { r with vars := Table.put v.name v r.vars } v.name = some v :=
      Table.find?_put_self v.name v r.vars
    rw [accepts_of_mayName hname', hvar]
    simp

/-- A known variable is accepted as long as no class takes its name. -/
theorem accepts_mono {s : Registry} {v : TypeVar} (h : r.accepts v = true)
    (hknown : (r.var? v.name).isSome = true) (hclass : s.class? v.name = none)
    (hvars : ∀ w, r.var? v.name = some w → s.var? v.name = some w) : s.accepts v = true := by
  obtain ⟨w, hw⟩ := Option.isSome_iff_exists.1 hknown
  have hname := mayName_of_accepts h
  have hname' : s.MayName v.name := ⟨hname.nonempty, hname.unreserved, hclass⟩
  rw [accepts_of_mayName hname, hw] at h
  rw [accepts_of_mayName hname', hvars w hw]
  exact h

/-- Parameters that are known already are declared without any change, if they have names of their
own. -/
theorem after_declareParams_known {owner : Text} {seen : List Text} {params : List TypeVar}
    (h : ∀ p ∈ params, r.var? p.name = some p) :
    after (declareParams owner seen params) r = (.ok (), r') ↔
      ((params.map (·.name)).Nodup ∧ (∀ p ∈ params, p.name ∉ seen) ∧
        ∀ p ∈ params, r.MayName p.name) ∧ r' = r := by
  -- The induction is on the parameters, for every list of names seen before them.
  induction params generalizing seen with
  | nil =>
    show ((Except.ok (), r) : Except Error Unit × Registry) = _ ↔ _
    simp [eq_comm]
  | cons p ps ih =>
    obtain ⟨hp, hps⟩ := List.forall_mem_cons.1 h
    unfold declareParams
    split
    · rename_i hseen
      rw [after_refuse]
      have hmem : p.name ∈ seen := List.contains_iff_mem.1 hseen
      constructor
      · intro hrefused
        cases hrefused
      · rintro ⟨⟨-, hfresh, -⟩, -⟩
        exact absurd hmem (hfresh p List.mem_cons_self)
    · rename_i hseen
      have hfresh : p.name ∉ seen := fun hmem => hseen (List.contains_iff_mem.2 hmem)
      -- The first parameter agrees with its declaration, so the others meet the same registry.
      rw [after_bind_ok]
      simp only [after_declareVar_again hp]
      constructor
      · rintro ⟨_, r₁, ⟨hname, rfl⟩, hrest⟩
        obtain ⟨⟨hnodup, hfresh', hnames⟩, rfl⟩ := (ih hps).1 hrest
        refine ⟨⟨?_, ?_, List.forall_mem_cons.2 ⟨hname, hnames⟩⟩, rfl⟩
        · refine List.nodup_cons.2 ⟨fun hmem => ?_, hnodup⟩
          obtain ⟨q, hq, heq⟩ := List.mem_map.1 hmem
          exact hfresh' q hq (by simp [heq])
        · exact List.forall_mem_cons.2
            ⟨hfresh, fun q hq hmem => hfresh' q hq (List.mem_cons_of_mem _ hmem)⟩
      · rintro ⟨⟨hnodup, hfresh', hnames⟩, rfl⟩
        obtain ⟨hname, hnames⟩ := List.forall_mem_cons.1 hnames
        obtain ⟨hnotin, hnodup⟩ := List.nodup_cons.1 hnodup
        refine ⟨(), r', ⟨hname, rfl⟩, (ih hps).2 ⟨⟨hnodup, fun q hq hmem => ?_, hnames⟩, rfl⟩⟩
        obtain heq | hmem := List.mem_cons.1 hmem
        · exact hnotin (List.mem_map.2 ⟨q, hq, heq⟩)
        · exact hfresh' q (List.mem_cons_of_mem _ hq) hmem

/-- When a class is declared, and what it leaves. -/
theorem after_declare_ok {c : Class} : after (declare c) r = (.ok (), r') ↔
    (c.name.isEmpty = false ∧ Name.isReserved c.name = false ∧ r.var? c.name = none) ∧
    ∃ r₁, after (declareParams c.name [] c.params) r = (.ok (), r₁) ∧
      (∀ base ∈ c.bases, r₁.baseFault? c.name base = none) ∧
      firstRepeated [] (c.members.map (·.name)) = none ∧
      r' = { r₁ with classes := Table.put c.name c r₁.classes } := by
  rw [after_declare]
  -- The conditions are the checks of the declaration in their order; each that fails makes both
  -- sides false.
  split
  · rename_i hempty
    simp [hempty]
  rename_i hempty
  split
  · rename_i hreserved
    simp [hreserved]
  rename_i hreserved
  split
  · rename_i hvar
    have hsome : r.var? c.name ≠ none := Option.isSome_iff_ne_none.1 hvar
    simp [hsome]
  rename_i hvar
  have hmay : c.name.isEmpty = false ∧ Name.isReserved c.name = false ∧ r.var? c.name = none :=
    ⟨by simpa using hempty, by simpa using hreserved, eq_none_of_not_has hvar⟩
  rcases after (declareParams c.name [] c.params) r with ⟨_ | _, r₁⟩
  · simp
  dsimp only
  -- The bases and the members are checked where the parameters have been declared.
  split
  · rename_i fault hfault
    have hbases : ¬ ∀ base ∈ c.bases, r₁.baseFault? c.name base = none := by
      rw [← List.findSome?_eq_none_iff, hfault]
      simp
    simp [hbases]
  · rename_i hfault
    have hbases := List.findSome?_eq_none_iff.1 hfault
    split
    · rename_i name hname
      simp [hname]
    · rename_i hdistinct
      constructor
      · intro h
        cases h
        exact ⟨hmay, r₁, rfl, hbases, hdistinct, rfl⟩
      · rintro ⟨-, r₂, hparams, -, -, rfl⟩
        cases hparams
        rfl

/-- Declaring an alias in one equation. -/
theorem after_declareAlias (name : Text) (t : TypeExpr) (r : Registry) :
    after (declareAlias name t) r =
      if name.isEmpty || Name.isReserved name then (.error (.declaration name .invalidAlias), r)
      else if r.classes.has name then (.error (.declaration name .isClass), r)
      else if r.vars.has name then (.error (.declaration name .isVariable), r)
      else (.ok (), { r with aliases := Table.put name t r.aliases }) := by
  unfold declareAlias
  rw [after_get_bind]
  repeat' split
  all_goals rfl

/-- When an alias is declared, and what it leaves. -/
theorem after_declareAlias_ok {name : Text} {t : TypeExpr} :
    after (declareAlias name t) r = (.ok (), r') ↔ (r.MayName name ∧ r.var? name = none) ∧
      r' = { r with aliases := Table.put name t r.aliases } := by
  -- Each of the three checks is one part of what a name must be.
  rw [after_declareAlias]
  split
  · rename_i hinvalid
    have hnot : ¬ r.MayName name := by
      intro hname
      simp [hname.nonempty, hname.unreserved] at hinvalid
    simp [hnot]
  rename_i hvalid
  split
  · rename_i hclass
    have hnot : ¬ r.MayName name := by
      intro hname
      rw [has_eq_false.2 hname.no_class] at hclass
      cases hclass
    simp [hnot]
  rename_i hclass
  split
  · rename_i hvar
    have hknown : r.var? name ≠ none := Option.isSome_iff_ne_none.1 hvar
    simp [hknown]
  rename_i hvar
  obtain ⟨hempty, hreserved⟩ : name.isEmpty = false ∧ Name.isReserved name = false := by
    simpa using hvalid
  have hname : r.MayName name := ⟨hempty, hreserved, eq_none_of_not_has hclass⟩
  have hfree : r.var? name = none := eq_none_of_not_has hvar
  simp [hname, hfree, eq_comm]

/-! ## Type parameters -/

/-- The variable that a type parameter names: the one declared, or one without restriction. -/
def paramOf (r : Registry) (n : Text) : TypeVar :=
  (r.var? n).getD { name := n }

/-- The registry with a name as a variable, unless it is one. -/
def withParam (r : Registry) (n : Text) : Registry :=
  if (r.var? n).isSome then r else { r with vars := Table.put n { name := n } r.vars }

/-- The registry with the names of type parameters as variables. -/
def withParams (r : Registry) (names : List Text) : Registry :=
  names.foldl withParam r

/-- A parameter that is known adds nothing. -/
theorem withParam_of_known {n : Text} (h : (r.var? n).isSome = true) : r.withParam n = r :=
  if_pos h

/-- A parameter that is new becomes a variable without restrictions. -/
theorem withParam_of_new {n : Text} (h : r.var? n = none) :
    r.withParam n = { r with vars := Table.put n { name := n } r.vars } :=
  if_neg (by simp [h])

/-- A parameter changes no class. -/
theorem classes_withParam (r : Registry) (n : Text) : (r.withParam n).classes = r.classes := by
  unfold withParam
  split <;> rfl

/-- A parameter changes no alias. -/
theorem aliases_withParam (r : Registry) (n : Text) : (r.withParam n).aliases = r.aliases := by
  unfold withParam
  split <;> rfl

/-- A name stands for its parameter, and every other name for what it stood for. -/
theorem var?_withParam (r : Registry) (n m : Text) :
    (r.withParam n).var? m = if m = n then some (r.paramOf n) else r.var? m := by
  -- A parameter that was known already keeps its place and its declaration.
  cases hvar : r.var? n with
  | none =>
    rw [withParam_of_new hvar, paramOf, hvar]
    exact Table.find?_put n m _ r.vars
  | some v =>
    rw [withParam_of_known (by rw [hvar]; rfl), paramOf, hvar]
    split
    · rename_i hm
      rw [hm, hvar]
      rfl
    · rfl

/-- A parameter is found in the same form after another one was added. -/
theorem paramOf_withParam (r : Registry) (n m : Text) :
    (r.withParam n).paramOf m = r.paramOf m := by
  rw [paramOf, var?_withParam]
  split
  · rename_i hm
    rw [hm]
    rfl
  · rfl

/-- Parameters change no class. -/
theorem classes_withParams (r : Registry) (names : List Text) :
    (r.withParams names).classes = r.classes := by
  induction names generalizing r with
  | nil => rfl
  | cons n names ih => exact (ih (r.withParam n)).trans (r.classes_withParam n)

/-- Parameters change no alias. -/
theorem aliases_withParams (r : Registry) (names : List Text) :
    (r.withParams names).aliases = r.aliases := by
  induction names generalizing r with
  | nil => rfl
  | cons n names ih => exact (ih (r.withParam n)).trans (r.aliases_withParam n)

/-- The names of parameters stand for them, and every other name for what it stood for. -/
theorem var?_withParams (r : Registry) (names : List Text) (m : Text) :
    (r.withParams names).var? m = if m ∈ names then some (r.paramOf m) else r.var? m := by
  -- By induction on the names; a later one of the same name changes nothing.
  induction names generalizing r with
  | nil => simp [withParams]
  | cons n names ih =>
    have hcons : r.withParams (n :: names) = (r.withParam n).withParams names := rfl
    rw [hcons, ih, paramOf_withParam, var?_withParam]
    by_cases hmem : m ∈ names
    · simp [hmem]
    · by_cases hm : m = n
      · simp [hm]
      · simp [hmem, hm]

/-- A parameter is filed under its name. -/
theorem VarsFiled.name_paramOf (h : r.VarsFiled) (n : Text) : (r.paramOf n).name = n := by
  unfold paramOf
  cases hvar : r.var? n with
  | none => rfl
  | some v => exact h n v hvar

end Registry

namespace DeclarationFile

variable {r r' : Registry}

/-- Reading a source succeeds as it does without states, and changes nothing. -/
theorem after_parseType_ok {source : Text} {t : TypeExpr} :
    after (parseType source) r = (.ok t, r') ↔ r.parse source = .ok t ∧ r' = r := by
  unfold parseType
  rw [after_get_bind]
  -- Failures of reading become failures of the computation.
  cases r.parse source with
  | error e =>
    show ((Except.error e, r) : Except Error TypeExpr × Registry) = _ ↔ _
    simp
  | ok u =>
    dsimp only
    rw [after_pure_ok]
    simp [eq_comm]

/-- A parameter of a class is found, or declared if it is new and may have its name. -/
theorem after_parameter_ok {doing n : Text} {v : TypeVar} :
    after (parameter doing n) r = (.ok v, r') ↔
      ((r.var? n).isSome = true ∨ r.MayName n) ∧ v = r.paramOf n ∧ r' = r.withParam n := by
  unfold parameter
  rw [after_get_bind]
  -- A parameter that is known is taken as it is.
  cases hvar : r.var? n with
  | some w =>
    rw [withParam_of_known (by rw [hvar]; rfl), paramOf, hvar]
    dsimp only
    rw [after_pure_ok]
    simp
  | none =>
    rw [withParam_of_new hvar, paramOf, hvar]
    dsimp only
    rw [after_bind_ok]
    simp only [after_within_ok, after_declareVar_new (v := { name := n }) hvar]
    constructor
    · rintro ⟨_, r₁, ⟨hname, rfl⟩, hv⟩
      obtain ⟨rfl, rfl⟩ := after_pure_ok.1 hv
      exact ⟨.inr hname, rfl, rfl⟩
    · rintro ⟨hname, rfl, rfl⟩
      exact ⟨(), _, ⟨hname.resolve_left (by simp), rfl⟩, rfl⟩

/-- The parameters of a class are found or declared one by one. -/
theorem after_parameters_ok {doing : Text} {names : List Text} {vs : List TypeVar} :
    after (names.mapM (parameter doing)) r = (.ok vs, r') ↔
      (∀ n ∈ names, (r.var? n).isSome = true ∨ r.MayName n) ∧ vs = names.map r.paramOf ∧
        r' = r.withParams names := by
  induction names generalizing r vs with
  | nil =>
    rw [List.mapM_nil, after_pure_ok]
    simp [withParams]
  | cons n names ih =>
    have hmap : names.map (r.withParam n).paramOf = names.map r.paramOf :=
      List.map_congr_left fun m _ => r.paramOf_withParam n m
    -- The first parameter makes no other name a variable.
    have hnames (hn : (r.var? n).isSome = true ∨ r.MayName n) :
        (∀ m ∈ names, ((r.withParam n).var? m).isSome = true ∨ (r.withParam n).MayName m) ↔
          ∀ m ∈ names, (r.var? m).isSome = true ∨ r.MayName m := by
      refine forall₂_congr fun m _ => ?_
      have hmay : (r.withParam n).MayName m ↔ r.MayName m :=
        mayName_congr (by rw [class?, classes_withParam, class?])
      rw [hmay, var?_withParam]
      by_cases hm : m = n
      · subst hm
        simp [hn]
      · simp [hm]
    rw [after_mapM_cons_ok]
    simp only [after_parameter_ok, List.forall_mem_cons, List.map_cons]
    constructor
    · rintro ⟨v, r₁, ws, ⟨hn, rfl, rfl⟩, hrest, rfl⟩
      obtain ⟨hall, rfl, rfl⟩ := ih.1 hrest
      exact ⟨⟨hn, (hnames hn).1 hall⟩, by rw [hmap], rfl⟩
    · rintro ⟨⟨hn, hall⟩, rfl, rfl⟩
      exact ⟨_, _, _, ⟨hn, rfl, rfl⟩, ih.2 ⟨(hnames hn).2 hall, hmap.symm, rfl⟩, rfl⟩

end DeclarationFile

namespace Registry

variable {r r' : Registry}

/-! ## Classes -/

/-- The entry of a class denotes a class in the scope of a registry and of its own type
parameters, and the class passes the checks. -/
structure Denotes (r : Registry) (c : ClassEntry) (C : Class) : Prop where
  name : C.name = c.name
  kind : C.kind = (DeclarationFile.kindOf? c.kind).getD .nominal
  nonempty : c.name.isEmpty = false
  unreserved : Name.isReserved c.name = false
  no_param : c.name ∉ c.params
  no_var : r.var? c.name = none
  params : C.params = c.params.map r.paramOf
  params_nodup : c.params.Nodup
  params_may : ∀ n ∈ c.params, r.MayName n
  bases : List.Forall₂ (fun source t => (r.withParams c.params).parse source = .ok t) c.bases C.bases
  bases_known : ∀ base ∈ C.bases, r.baseFault? c.name base = none
  members : List.Forall₂ (fun m M => (r.withParams c.params).parse m.type = .ok M.type ∧
    M.name = m.name) c.members C.members
  members_distinct : firstRepeated [] (C.members.map (·.name)) = none

/-- The registry with a class and its type parameters. -/
def enter (r : Registry) (c : ClassEntry) (C : Class) : Registry :=
  { r.withParams c.params with classes := Table.put c.name C r.classes }

/-- Whether a base is faulty depends on which classes are known. -/
theorem baseFault?_congr (h : ∀ n, (r.class? n).isSome = (r'.class? n).isSome) (owner : Text)
    (base : TypeExpr) : r.baseFault? owner base = r'.baseFault? owner base := by
  unfold baseFault?
  split
  · rfl
  · rename_i name _
    rw [show r.classes.has name = r'.classes.has name from h name]

/-- Parameters that are variables already are declared when they have names of their own. -/
theorem after_declareParams_withParams (hr : r.VarsFiled) (owner : Text) (names : List Text) :
    after (declareParams owner [] (names.map r.paramOf)) (r.withParams names) = (.ok (), r') ↔
      (names.Nodup ∧ ∀ n ∈ names, r.MayName n) ∧ r' = r.withParams names := by
  -- Every parameter is a variable by now, under its own name.
  have hknown : ∀ p ∈ names.map r.paramOf, (r.withParams names).var? p.name = some p := by
    intro p hp
    obtain ⟨n, hn, rfl⟩ := List.mem_map.1 hp
    rw [hr.name_paramOf, var?_withParams, if_pos hn]
  have hmap : (names.map r.paramOf).map (·.name) = names := by
    rw [List.map_map]
    exact (List.map_congr_left fun n _ => hr.name_paramOf n).trans (List.map_id names)
  have hmay : ∀ n, (r.withParams names).MayName n ↔ r.MayName n :=
    fun n => mayName_congr (by rw [class?, classes_withParams, class?])
  rw [after_declareParams_known hknown, hmap]
  simp only [List.forall_mem_map, hr.name_paramOf, hmay, List.not_mem_nil, not_false_eq_true,
    implies_true, true_and]

end Registry

namespace DeclarationFile

variable {r r' : Registry}

/-- A class is applied exactly if its entry denotes a class, which is entered then. -/
theorem after_applyClass_ok (hr : r.VarsFiled) (f : DeclarationFile) (c : ClassEntry) :
    after (f.applyClass c) r = (.ok (), r') ↔ ∃ C, r.Denotes c C ∧ r' = r.enter c C := by
  have hclasses : ∀ n, ((r.withParams c.params).class? n).isSome = (r.class? n).isSome := by
    intro n
    rw [class?, classes_withParams, class?]
  -- Reading bases and members changes nothing, so all of them are read in one scope.
  have hreads {doing source : Text} {t : TypeExpr} {s s' : Registry} :
      after (Declaring.within doing (parseType source)) s = (.ok t, s') ↔
        s.parse source = .ok t ∧ s' = s := by
    rw [after_within_ok, after_parseType_ok]
  have hmember {doing : Text} {s s' : Registry} {m : MemberEntry} {M : Member} :
      after (do
        let type ← Declaring.within doing (parseType m.type)
        pure (Member.mk m.name type)) s = (.ok M, s') ↔
      (s.parse m.type = .ok M.type ∧ M.name = m.name) ∧ s' = s := by
    rw [after_bind_ok]
    simp only [hreads]
    constructor
    · rintro ⟨t, s₁, ⟨ht, rfl⟩, hM⟩
      obtain ⟨rfl, rfl⟩ := after_pure_ok.1 hM
      exact ⟨⟨ht, rfl⟩, rfl⟩
    · rintro ⟨⟨ht, hname⟩, rfl⟩
      refine ⟨M.type, s', ⟨ht, rfl⟩, after_pure_ok.2 ⟨?_, rfl⟩⟩
      rw [← hname]
  unfold applyClass
  constructor
  -- The runs are followed step by step: parameters, bases, members, and the declaration.
  · intro h
    obtain ⟨params, r₁, hparams, h⟩ := after_bind_ok.1 h
    obtain ⟨-, rfl, rfl⟩ := after_parameters_ok.1 hparams
    obtain ⟨bases, r₁, hrun, h⟩ := after_bind_ok.1 h
    obtain ⟨hbases, rfl⟩ := (after_mapM_reads fun _ _ _ => hreads).1 hrun
    obtain ⟨members, r₁, hrun, h⟩ := after_bind_ok.1 h
    obtain ⟨hmembers, rfl⟩ := (after_mapM_reads fun _ _ _ => hmember).1 hrun
    obtain ⟨⟨hempty, hreserved, hvar⟩, r₁, hdeclared, hknown, hdistinct, rfl⟩ :=
      after_declare_ok.1 (after_within_ok.1 h)
    obtain ⟨⟨hnodup, hmay⟩, rfl⟩ := (after_declareParams_withParams hr _ _).1 hdeclared
    -- The name is no variable where the parameters are variables, so it is none of them either.
    rw [var?_withParams] at hvar
    split at hvar
    · cases hvar
    rename_i hparam
    refine ⟨_, ⟨rfl, rfl, hempty, hreserved, hparam, hvar, rfl, hnodup, hmay, hbases, ?_, hmembers,
      hdistinct⟩, ?_⟩
    · exact fun base hbase => (baseFault?_congr hclasses _ _).symm.trans (hknown base hbase)
    · rw [enter, classes_withParams]
  -- A class that the entry denotes passes each of the steps.
  · rintro ⟨C, hC, rfl⟩
    refine after_bind_ok.2 ⟨_, _, after_parameters_ok.2
      ⟨fun n hn => .inr (hC.params_may n hn), rfl, rfl⟩, ?_⟩
    refine after_bind_ok.2 ⟨C.bases, _, (after_mapM_reads fun _ _ _ => hreads).2 ⟨hC.bases, rfl⟩, ?_⟩
    refine after_bind_ok.2 ⟨C.members, _,
      (after_mapM_reads fun _ _ _ => hmember).2 ⟨hC.members, rfl⟩, ?_⟩
    refine after_within_ok.2 (after_declare_ok.2 ⟨⟨hC.nonempty, hC.unreserved, ?_⟩, _,
      (after_declareParams_withParams hr _ _).2 ⟨⟨hC.params_nodup, hC.params_may⟩, rfl⟩, ?_,
      hC.members_distinct, ?_⟩)
    · rw [var?_withParams, if_neg hC.no_param]
      exact hC.no_var
    · exact fun base hbase => (baseFault?_congr hclasses _ _).trans (hC.bases_known base hbase)
    · rw [enter, classes_withParams, ← hC.params, ← hC.name, ← hC.kind]

/-! ## Classes by name -/

/-- What a class is before it is read. -/
def placeholder (c : ClassEntry) : Class :=
  { name := c.name, kind := (kindOf? c.kind).getD .nominal }

/-- A class that is known is not entered again. -/
theorem enterClass_known {f : DeclarationFile} {c : ClassEntry} (h : (r.class? c.name).isSome = true) :
    after (f.enterClass c) r = (.ok (), r) := by
  unfold enterClass
  rw [after_get_bind]
  have hhas : r.classes.has c.name = true := h
  dsimp only
  rw [if_pos hhas]
  rfl

/-- A class that is new is entered under a name that is no variable. -/
theorem after_enterClass_new {f : DeclarationFile} {c : ClassEntry} (h : r.class? c.name = none) :
    after (f.enterClass c) r = (.ok (), r') ↔
      (c.name.isEmpty = false ∧ Name.isReserved c.name = false ∧ r.var? c.name = none) ∧
        r' = { r with classes := Table.put c.name (placeholder c) r.classes } := by
  have hhas : ¬ r.classes.has c.name = true := by
    rw [has_eq_false.2 h]
    simp
  unfold enterClass
  rw [after_get_bind]
  dsimp only
  rw [if_neg hhas, after_within_ok, after_declare_ok]
  refine and_congr_right fun _ => ?_
  -- A placeholder has no parameters, bases or members that could be at fault.
  constructor
  · rintro ⟨r₁, hparams, -, -, hr'⟩
    cases hparams
    exact hr'
  · rintro rfl
    exact ⟨r, rfl, by simp, rfl, rfl⟩

end DeclarationFile

end TypeShape
