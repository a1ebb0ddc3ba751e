import Mathlib.Data.List.Nodup
import TypeShape.Proofs.DeclaringRuns

/-!
# Declarations as entries

Whatever a declaration does to a registry, it enters one thing after the other, and it checks a
thing before it enters it.  A declaration that fails keeps what it has entered so far, so what it
leads to is described by the path of entries and not by its outcome.

## Key results

- `Registry.Entry.grows`, `Registry.Entry.wellFormed`: what one entry keeps
- `Registry.declare_cases`: declaring a class enters its parameters, and then the class or nothing
- `Registry.leads_declare`: no class is entered beside a variable of its name, unless it is a new one
  that lists its own name
-/

namespace TypeShape

open Relation (ReflTransGen)

namespace Registry

open Declaring

/-! ## Entries -/

/-- A class of a registry has passed the checks of its declaration. -/
structure ClassChecked (r : Registry) (name : Text) (c : Class) : Prop where
  name_eq : c.name = name
  unreserved : Name.isReserved name = false
  params_nodup : (c.params.map (·.name)).Nodup
  bases : ∀ base ∈ c.bases, ∃ super, base.className? = some super ∧ super ≠ name ∧
    (r.class? super).isSome = true

/-- A class has passed all checks of its declaration, those after its parameters were declared as
well. -/
structure ClassFormed (r : Registry) (name : Text) (c : Class) : Prop
    extends ClassChecked r name c where
  params_known : ∀ p ∈ c.params, (r.var? p.name).isSome = true
  members_nodup : (c.members.map (·.name)).Nodup

/-- A class or a type variable is entered under a name that is not of the other kind. -/
inductive NameEntry : Registry → Registry → Prop where
  | var {r : Registry} (v : TypeVar) : r.class? v.name = none → r.var? v.name = none →
    NameEntry r { r with vars := Table.put v.name v r.vars }
  | cls {r : Registry} (c : Class) : r.var? c.name = none → r.ClassFormed c.name c →
    NameEntry r { r with classes := Table.put c.name c r.classes }

/-- Something else than a class or a type variable is entered. -/
inductive SideEntry : Registry → Registry → Prop where
  | aliasOf {r : Registry} (name : Text) (t : TypeExpr) : r.class? name = none →
    r.var? name = none → SideEntry r { r with aliases := Table.put name t r.aliases }
  | hostType {r : Registry} (t : HostType) (name : Text) : (r.class? name).isSome = true →
    SideEntry r { r with hostTypes := putHostType t name r.hostTypes }
  | typer {r : Registry} (typer : Typer) : SideEntry r { r with typers := r.typers ++ [typer] }

/-- A thing is entered in a registry. -/
inductive Entry : Registry → Registry → Prop where
  | name {r r' : Registry} : NameEntry r r' → Entry r r'
  | side {r r' : Registry} : SideEntry r r' → Entry r r'
  /-- A class that lists its own name as a type parameter, and was not known before, is entered
  beside the variable. -/
  | ownParam {r : Registry} (c : Class) : c.name ∈ c.params.map (·.name) → r.ClassFormed c.name c →
    Entry r { r with classes := Table.put c.name c r.classes }

variable {r r' : Registry}

/-! ## What entries keep -/

/-- No name is lost, and a variable keeps its declaration. -/
structure Grows (r r' : Registry) : Prop where
  classes : ∀ n, (r.class? n).isSome = true → (r'.class? n).isSome = true
  vars : ∀ n v, r.var? n = some v → r'.var? n = some v
  aliases : ∀ n, (r.alias? n).isSome = true → (r'.alias? n).isSome = true

/-- A registry has what it has. -/
theorem Grows.refl (r : Registry) : r.Grows r := ⟨fun _ => id, fun _ _ => id, fun _ => id⟩

/-- Growing twice is growing. -/
theorem Grows.trans {r'' : Registry} (h : r.Grows r') (h' : r'.Grows r'') : r.Grows r'' :=
  ⟨fun n hn => h'.classes n (h.classes n hn), fun n v hv => h'.vars n v (h.vars n v hv),
    fun n hn => h'.aliases n (h.aliases n hn)⟩

/-- A variable that is known stays known. -/
theorem Grows.known {n : Text} (h : r.Grows r') (hn : (r.var? n).isSome = true) :
    (r'.var? n).isSome = true := by
  obtain ⟨v, hv⟩ := Option.isSome_iff_exists.1 hn
  rw [h.vars n v hv]
  rfl

/-- A name that has an entry has one after another is made. -/
theorem isSome_find?_put {α : Type} {t : Table α} {n : Text} (name : Text) (a : α)
    (h : (t.find? n).isSome = true) : ((Table.put name a t).find? n).isSome = true := by
  rw [Table.find?_put]
  split
  · rfl
  · exact h

/-- Entering a class keeps every name that has an entry. -/
theorem grows_put_class (name : Text) (c : Class) (r : Registry) :
    r.Grows { r with classes := Table.put name c r.classes } :=
  ⟨fun _ => isSome_find?_put name c, fun _ _ => id, fun _ => id⟩

/-- Entering a variable or a class keeps every name that has an entry. -/
theorem NameEntry.grows (h : NameEntry r r') : r.Grows r' := by
  cases h with
  | var v hclass hvar =>
    refine ⟨fun _ => id, fun n w hw => ?_, fun _ => id⟩
    -- The variable is new, so it replaces none.
    have hn : n ≠ v.name := by
      rintro rfl
      rw [hvar] at hw
      cases hw
    exact (Table.find?_put_of_ne hn v r.vars).trans hw
  | cls c _ _ => exact grows_put_class c.name c r

/-- Entering an alias, a host type or a typer keeps every name that has an entry. -/
theorem SideEntry.grows (h : SideEntry r r') : r.Grows r' := by
  cases h with
  | aliasOf name t _ _ => exact ⟨fun _ => id, fun _ _ => id, fun _ => isSome_find?_put name t⟩
  | hostType t name _ => exact ⟨fun _ => id, fun _ _ => id, fun _ => id⟩
  | typer typer => exact ⟨fun _ => id, fun _ _ => id, fun _ => id⟩

/-- Every entry keeps every name that has an entry. -/
theorem Entry.grows (h : Entry r r') : r.Grows r' := by
  cases h with
  | name h => exact h.grows
  | side h => exact h.grows
  | ownParam c _ _ => exact grows_put_class c.name c r

/-- Along a path of entries nothing is lost. -/
theorem grows_of_path {S : Registry → Registry → Prop} (hS : ∀ r r', S r r' → r.Grows r')
    (h : ReflTransGen S r r') : r.Grows r' := by
  induction h with
  | refl => exact .refl r
  | tail _ hstep ih => exact ih.trans (hS _ _ hstep)

/-- Entering classes and variables changes no alias. -/
theorem aliases_of_names (h : ReflTransGen NameEntry r r') : r'.aliases = r.aliases := by
  induction h with
  | refl => rfl
  | tail _ hstep ih => cases hstep <;> exact ih

/-- A class that has passed its checks passes them in a registry that knows more. -/
theorem ClassFormed.mono {name : Text} {c : Class} (h : r.ClassFormed name c)
    (hgrows : r.Grows r') : r'.ClassFormed name c := by
  refine ⟨⟨h.name_eq, h.unreserved, h.params_nodup, fun base hbase => ?_⟩,
    fun p hp => hgrows.known (h.params_known p hp), h.members_nodup⟩
  obtain ⟨super, hsuper, hne, hknown⟩ := h.bases base hbase
  exact ⟨super, hsuper, hne, hgrows.classes super hknown⟩

/-- All classes of a registry have passed all checks, and the values of its host types are instances
of classes that it has. -/
structure WellFormed (r : Registry) : Prop where
  classes : ∀ name c, r.class? name = some c → r.ClassFormed name c
  hostTypes : ∀ entry ∈ r.hostTypes, (r.class? entry.2).isSome = true

/-- What has neither other classes nor other host types is as well formed, if it has grown. -/
theorem WellFormed.of_grows (h : r.WellFormed) (hgrows : r.Grows r')
    (hclasses : r'.classes = r.classes) (hhost : r'.hostTypes = r.hostTypes) : r'.WellFormed := by
  refine ⟨fun name c hc => ?_, fun entry hentry => ?_⟩
  · rw [class?, hclasses] at hc
    exact (h.classes name c hc).mono hgrows
  · rw [hhost] at hentry
    exact hgrows.classes _ (h.hostTypes entry hentry)

/-- A class that is formed may be entered. -/
theorem WellFormed.put_class (h : r.WellFormed) {c : Class} (hc : r.ClassFormed c.name c) :
    WellFormed { r with classes := Table.put c.name c r.classes } := by
  have hgrows := grows_put_class c.name c r
  refine ⟨fun name d hd => ?_, fun entry hentry => hgrows.classes _ (h.hostTypes entry hentry)⟩
  have hfind : (Table.put c.name c r.classes).find? name = some d := hd
  rw [Table.find?_put] at hfind
  split at hfind
  · -- The class itself, which may replace one of its name.
    rename_i hname
    cases hfind
    rw [hname]
    exact hc.mono hgrows
  · exact (h.classes name d hfind).mono hgrows

/-- A binding of a host type is the new one or was there before. -/
theorem mem_putHostType {t : HostType} {name : Text} {bindings : List (HostType × Text)}
    {entry : HostType × Text} (h : entry ∈ putHostType t name bindings) :
    entry.2 = name ∨ entry ∈ bindings := by
  induction bindings with
  | nil =>
    rw [putHostType, List.mem_singleton] at h
    exact .inl (by rw [h])
  -- The binding is replaced where its host type stands, and added at the end if it stands nowhere.
  | cons binding rest ih =>
    obtain ⟨u, n⟩ := binding
    rw [putHostType] at h
    split at h
    · obtain rfl | h := List.mem_cons.1 h
      · exact .inl rfl
      · exact .inr (List.mem_cons_of_mem _ h)
    · obtain rfl | h := List.mem_cons.1 h
      · exact .inr List.mem_cons_self
      · exact (ih h).imp_right (List.mem_cons_of_mem _)

/-- A registry stays well formed when a thing is entered. -/
theorem Entry.wellFormed (h : Entry r r') (hr : r.WellFormed) : r'.WellFormed := by
  have hgrows := h.grows
  -- Only the entry of a class can break a class, and only that of a host type can bind a name.
  cases h with
  | name h =>
    cases h with
    | var v _ _ => exact hr.of_grows hgrows rfl rfl
    | cls c _ hformed => exact hr.put_class hformed
  | side h =>
    cases h with
    | aliasOf name t _ _ => exact hr.of_grows hgrows rfl rfl
    | hostType t name hknown =>
      refine ⟨fun n c hc => (hr.classes n c hc).mono hgrows, fun entry hentry => ?_⟩
      obtain hname | hentry := mem_putHostType hentry
      · rw [hname]
        exact hknown
      · exact hr.hostTypes entry hentry
    | typer typer => exact hr.of_grows hgrows rfl rfl
  | ownParam c _ hformed => exact hr.put_class hformed

/-- Well-formedness is kept along a path of entries. -/
theorem stable_wellFormed : Stable WellFormed Entry := fun _ _ => Entry.wellFormed

/-- Every variable of a registry stands under its own name. -/
def VarsFiled (r : Registry) : Prop :=
  ∀ name v, r.var? name = some v → v.name = name

/-- A variable stays filed under its own name. -/
theorem Entry.varsFiled (h : Entry r r') (hr : r.VarsFiled) : r'.VarsFiled := by
  -- Only the entry of a variable changes the table, and it files the variable under its name.
  cases h with
  | name h =>
    cases h with
    | var v _ _ =>
      intro name w hw
      have hfind : (Table.put v.name v r.vars).find? name = some w := hw
      rw [Table.find?_put] at hfind
      split at hfind
      · rename_i hname
        cases hfind
        exact hname.symm
      · exact hr name w hfind
    | cls c _ _ => exact hr
  | side h => cases h <;> exact hr
  | ownParam c _ _ => exact hr

/-- That variables are filed under their names is kept along a path of entries. -/
theorem stable_varsFiled : Stable VarsFiled Entry := fun _ _ => Entry.varsFiled

/-! ## What declarations enter -/

/-- A declaration that is refused leaves the registry as it was. -/
theorem after_refuse {α : Type} (name : Text) (fault : DeclarationFault) (r : Registry) :
    after (refuse name fault : Declaring α) r = (.error (.declaration name fault), r) := rfl

/-- A name without an entry is found nowhere. -/
theorem has_eq_false {α : Type} {t : Table α} {n : Text} : t.has n = false ↔ t.find? n = none := by
  simp [Table.has]

/-- A name that has no entry is not found. -/
theorem eq_none_of_not_has {α : Type} {t : Table α} {n : Text} (h : ¬ t.has n = true) :
    t.find? n = none :=
  has_eq_false.1 (by simpa using h)

/-- A name may be that of a new variable. -/
structure MayName (r : Registry) (n : Text) : Prop where
  nonempty : n.isEmpty = false
  unreserved : Name.isReserved n = false
  no_class : r.class? n = none

/-- Whether a name may be given to a variable depends on the classes alone. -/
theorem mayName_congr {n : Text} (h : (r.class? n).isSome = (r'.class? n).isSome) :
    r.MayName n ↔ r'.MayName n := by
  have hclass : r.class? n = none ↔ r'.class? n = none := by
    rw [← Option.not_isSome_iff_eq_none, ← Option.not_isSome_iff_eq_none, h]
  exact ⟨fun hn => ⟨hn.nonempty, hn.unreserved, hclass.1 hn.no_class⟩,
    fun hn => ⟨hn.nonempty, hn.unreserved, hclass.2 hn.no_class⟩⟩

/-- A variable is declared only under a name that it may have. -/
theorem after_declareVar_of_not {v : TypeVar} (h : ¬ r.MayName v.name) :
    ∃ e, after (declareVar v) r = (.error e, r) := by
  unfold declareVar
  rw [after_get_bind]
  -- The checks are made in this order: the name is there, it is not reserved, and it names no
  -- class.
  split
  · exact ⟨_, rfl⟩
  rename_i hempty
  split
  · exact ⟨_, rfl⟩
  rename_i hreserved
  split
  · exact ⟨_, rfl⟩
  rename_i hclass
  exact absurd ⟨by simpa using hempty, by simpa using hreserved, eq_none_of_not_has hclass⟩ h

/-- Declaring a variable under a name it may have enters it, or finds it declared before. -/
theorem MayName.after_declareVar {v : TypeVar} (h : r.MayName v.name) :
    after (declareVar v) r =
      match r.var? v.name with
      | some existing =>
        if v.unrestricted || existing.toExpr.key == v.toExpr.key then (.ok (), r)
        else (.error (.declaration v.name .conflictingVariable), r)
      | none => (.ok (), { r with vars := Table.put v.name v r.vars }) := by
  -- The checks of the name pass, so what is left is what is known of a variable of the name.
  have hclass : r.classes.has v.name = false := has_eq_false.2 h.no_class
  unfold declareVar
  rw [after_get_bind]
  simp only [h.nonempty, h.unreserved, hclass, Bool.false_eq_true, if_false]
  cases r.var? v.name with
  | none => rfl
  | some existing =>
    dsimp only
    split <;> rfl

/-- A variable that was declared had a name that it may have. -/
theorem MayName.of_declareVar {v : TypeVar} (h : after (declareVar v) r = (.ok (), r')) :
    r.MayName v.name := by
  by_contra hname
  obtain ⟨e, hafter⟩ := after_declareVar_of_not hname
  rw [h] at hafter
  cases hafter

/-- Declaring a variable enters it, or changes nothing, or fails. -/
theorem declareVar_cases (v : TypeVar) (r : Registry) :
    after (declareVar v) r =
        (.ok (), { r with vars := Table.put v.name v r.vars }) ∧
      r.class? v.name = none ∧ r.var? v.name = none ∨
    after (declareVar v) r = (.ok (), r) ∧ (r.var? v.name).isSome = true ∨
    ∃ e, after (declareVar v) r = (.error e, r) := by
  -- A name that may not be declared is refused before anything is looked up.
  by_cases hname : r.MayName v.name
  · rw [hname.after_declareVar]
    cases hvar : r.var? v.name with
    | none => exact .inl ⟨rfl, hname.no_class, rfl⟩
    | some existing =>
      dsimp only
      split
      · exact .inr (.inl ⟨rfl, rfl⟩)
      · exact .inr (.inr ⟨_, rfl⟩)
  · exact .inr (.inr (after_declareVar_of_not hname))

/-- A variable that was declared is known. -/
theorem var?_of_declareVar {v : TypeVar} (h : after (declareVar v) r = (.ok (), r')) :
    (r'.var? v.name).isSome = true := by
  obtain ⟨hafter, -⟩ | ⟨hafter, hknown⟩ | ⟨e, hafter⟩ := declareVar_cases v r
  -- Either the variable was entered, or one of its name was there before.
  · rw [h] at hafter
    cases hafter
    show ((Table.put v.name v r.vars).find? v.name).isSome = true
    rw [Table.find?_put_self]
    rfl
  · rw [h] at hafter
    cases hafter
    exact hknown
  · rw [h] at hafter
    cases hafter

/-- Declaring a variable makes at most one entry. -/
theorem leads_declareVar (v : TypeVar) : Leads (fun _ => True) NameEntry (declareVar v) := by
  intro r _
  obtain ⟨h, hclass, hvar⟩ | ⟨h, -⟩ | ⟨e, h⟩ := declareVar_cases v r
  · rw [h]
    exact .single (.var v hclass hvar)
  · rw [h]
  · rw [h]

/-- Declaring parameters enters variables one by one. -/
theorem leads_declareParams (owner : Text) (seen : List Text) (params : List TypeVar) :
    Leads (fun _ => True) NameEntry (declareParams owner seen params) := by
  induction params generalizing seen with
  | nil => exact .pure ()
  | cons p ps ih =>
    unfold declareParams
    split
    · exact .throw _
    · exact .bind (stable_true _) (leads_declareVar p) fun _ => ih _

/-- Declaring variables of other names does not make a name a variable. -/
theorem declareParams_var? {owner n : Text} {seen : List Text} {params : List TypeVar}
    (hn : n ∉ params.map (·.name)) (r : Registry) :
    (after (declareParams owner seen params) r).2.var? n = r.var? n := by
  -- The registry changes with each parameter, so the induction is for every registry.
  induction params generalizing seen r with
  | nil => rfl
  | cons p ps ih =>
    obtain ⟨hp, hps⟩ := List.ne_and_not_mem_of_not_mem_cons hn
    have hfirst : (after (declareVar p) r).2.var? n = r.var? n := by
      obtain ⟨h, -⟩ | ⟨h, -⟩ | ⟨e, h⟩ := declareVar_cases p r
      · rw [h]
        exact Table.find?_put_of_ne hp p r.vars
      · rw [h]
      · rw [h]
    unfold declareParams
    split
    · rfl
    · rw [after_bind]
      rcases hvar : after (declareVar p) r with ⟨_ | _, r'⟩
      · rwa [hvar] at hfirst
      · rw [hvar] at hfirst
        exact (ih hps r').trans hfirst

/-- Type parameters that are declared are variables with names of their own. -/
theorem declareParams_ok {owner : Text} {seen : List Text} {params : List TypeVar}
    (h : after (declareParams owner seen params) r = (.ok (), r')) :
    (params.map (·.name)).Nodup ∧ (∀ p ∈ params, p.name ∉ seen) ∧
      ∀ p ∈ params, (r'.var? p.name).isSome = true := by
  induction params generalizing seen r with
  | nil => simp
  | cons p ps ih =>
    unfold declareParams at h
    split at h
    · cases h
    rename_i hseen
    obtain ⟨_, r₁, hvar, hrest⟩ := after_bind_ok.1 h
    obtain ⟨hnodup, hfresh, hknown⟩ := ih hrest
    -- The first parameter is still a variable after the others.
    have hpath := (leads_declareParams owner (p.name :: seen) ps).path trivial hrest
    refine ⟨?_, ?_, List.forall_mem_cons.2
      ⟨(grows_of_path (fun _ _ => NameEntry.grows) hpath).known (var?_of_declareVar hvar), hknown⟩⟩
    · rw [List.map_cons, List.nodup_cons]
      refine ⟨fun hmem => ?_, hnodup⟩
      obtain ⟨q, hq, hname⟩ := List.mem_map.1 hmem
      exact hfresh q hq (by simp [hname])
    · refine List.forall_mem_cons.2 ⟨fun hmem => hseen (List.contains_iff_mem.2 hmem), ?_⟩
      exact fun q hq hmem => hfresh q hq (List.mem_cons_of_mem _ hmem)

/-- A base without a fault is another class that is known. -/
theorem baseFault?_eq_none {owner : Text} {base : TypeExpr}
    (h : r.baseFault? owner base = none) : ∃ super, base.className? = some super ∧
      super ≠ owner ∧ (r.class? super).isSome = true := by
  -- The three checks: that the base is a class, another one, and known.
  unfold baseFault? at h
  split at h
  · cases h
  · rename_i super hsuper
    split at h
    · cases h
    · rename_i hne
      split at h
      · rename_i hhas
        exact ⟨super, hsuper, hne, hhas⟩
      · cases h

/-- Where no name is found twice, and none that was seen, all names differ. -/
theorem nodup_of_firstRepeated {seen names : List Text} (h : firstRepeated seen names = none) :
    names.Nodup ∧ ∀ n ∈ names, n ∉ seen := by
  -- By induction on the names, for those seen so far.
  induction names generalizing seen with
  | nil => simp
  | cons n ns ih =>
    unfold firstRepeated at h
    split at h
    · cases h
    rename_i hseen
    obtain ⟨hnodup, hfresh⟩ := ih h
    refine ⟨List.nodup_cons.2 ⟨fun hmem => hfresh n hmem List.mem_cons_self, hnodup⟩, ?_⟩
    refine List.forall_mem_cons.2 ⟨fun hmem => hseen (List.contains_iff_mem.2 hmem), ?_⟩
    exact fun m hm hmem => hfresh m hm (List.mem_cons_of_mem _ hmem)

/-- Declaring a class in one equation: the checks before its parameters, the parameters, and the
checks behind them. -/
theorem after_declare (c : Class) (r : Registry) :
    after (declare c) r =
      if c.name.isEmpty then (.error (.declaration (text "<class>") .nameRequired), r)
      else if Name.isReserved c.name then (.error (.declaration c.name .nameReserved), r)
      else if r.vars.has c.name then (.error (.declaration c.name .isVariable), r)
      else match after (declareParams c.name [] c.params) r with
        | (.error e, r₁) => (.error e, r₁)
        | (.ok (), r₁) =>
          match c.bases.findSome? (r₁.baseFault? c.name) with
          | some fault => (.error (.declaration c.name fault), r₁)
          | none =>
            match firstRepeated [] (c.members.map (·.name)) with
            | some name => (.error (.declaration c.name (.duplicateMember name)), r₁)
            | none => (.ok (), { r₁ with classes := Table.put c.name c r₁.classes }) := by
  -- The checks are made in this order, and the registry left is that at the first that fails.
  unfold declare
  rw [after_get_bind]
  split
  · rfl
  split
  · rfl
  split
  · rfl
  rw [after_bind]
  rcases after (declareParams c.name [] c.params) r with ⟨_ | _, r₁⟩
  · rfl
  simp only [after_get_bind]
  cases c.bases.findSome? (r₁.baseFault? c.name) with
  | some fault => rfl
  | none => cases firstRepeated [] (c.members.map (·.name)) <;> rfl

/-- Declaring a class fails at once, or fails after its parameters, or enters the class after its
parameters. -/
theorem declare_cases (c : Class) (r : Registry) :
    let params := (after (declareParams c.name [] c.params) r).2
    (∃ e, after (declare c) r = (.error e, r)) ∨ (∃ e, after (declare c) r = (.error e, params)) ∨
    r.var? c.name = none ∧ params.ClassFormed c.name c ∧ after (declare c) r =
      (.ok (), { params with classes := Table.put c.name c params.classes }) := by
  rw [after_declare]
  -- One case for each check; what has passed them all is what a formed class has to show.
  split
  · exact .inl ⟨_, rfl⟩
  split
  · exact .inl ⟨_, rfl⟩
  rename_i hreserved
  split
  · exact .inl ⟨_, rfl⟩
  rename_i hvar
  rcases hparams : after (declareParams c.name [] c.params) r with ⟨_ | _, r₁⟩
  · exact .inr (.inl ⟨_, rfl⟩)
  obtain ⟨hnodup, -, hknown⟩ := declareParams_ok hparams
  dsimp only
  split
  · exact .inr (.inl ⟨_, rfl⟩)
  rename_i hfault
  split
  · exact .inr (.inl ⟨_, rfl⟩)
  rename_i hmembers
  refine .inr (.inr ⟨eq_none_of_not_has hvar, ⟨⟨rfl, by simpa using hreserved, hnodup, ?_⟩,
    hknown, (nodup_of_firstRepeated hmembers).1⟩, rfl⟩)
  exact fun base hbase => baseFault?_eq_none (List.findSome?_eq_none_iff.1 hfault base hbase)

/-- A class that was declared is known. -/
theorem class?_of_declare {c : Class} (h : after (declare c) r = (.ok (), r')) :
    (r'.class? c.name).isSome = true := by
  obtain ⟨e, hafter⟩ | ⟨e, hafter⟩ | ⟨-, -, hafter⟩ := declare_cases c r
  · rw [h] at hafter
    cases hafter
  · rw [h] at hafter
    cases hafter
  · rw [h] at hafter
    cases hafter
    -- The class is put into the table in the end.
    show (Table.find? (Table.put c.name c _) c.name).isSome = true
    rw [Table.find?_put_self]
    rfl

/-- A name that is a class and no variable stays so. -/
theorem stable_class_name (n : Text) :
    Stable (fun r => (r.class? n).isSome = true ∧ r.var? n = none) NameEntry := by
  rintro r r' h ⟨hclass, hvar⟩
  refine ⟨h.grows.classes n hclass, ?_⟩
  -- The entry of a variable asks for a name that is no class.
  cases h with
  | var v hnew _ =>
    have hn : n ≠ v.name := by
      rintro rfl
      rw [hnew] at hclass
      cases hclass
    exact (Table.find?_put_of_ne hn v r.vars).trans hvar
  | cls c _ _ => exact hvar

/-- A class that is known already, or does not list its own name, is entered like any other. -/
theorem leads_declare (c : Class) :
    Leads (fun r => (r.class? c.name).isSome = true ∨ c.name ∉ c.params.map (·.name)) NameEntry
      (declare c) := by
  intro r hr
  have hpath := leads_declareParams c.name [] c.params r trivial
  obtain ⟨e, h⟩ | ⟨e, h⟩ | ⟨hvar, hformed, h⟩ := declare_cases c r
  · rw [h]
  · rw [h]
    exact hpath
  · rw [h]
    refine hpath.tail (.cls c ?_ hformed)
    -- The name was no variable, and the parameters have not made it one.
    obtain hclass | hparams := hr
    · exact ((stable_class_name c.name).path hpath ⟨hclass, hvar⟩).2
    · rw [declareParams_var? hparams, hvar]

/-- Declaring any class is a path of entries; one that lists its own name is entered as such. -/
theorem leads_declare_entry (c : Class) : Leads (fun _ => True) Entry (declare c) := by
  intro r _
  -- A class that lists its own name declares it as a variable before it is entered.
  by_cases hown : c.name ∈ c.params.map (·.name)
  · have hpath := (leads_declareParams c.name [] c.params).mono (fun _ => id)
      (fun _ _ => Entry.name) r trivial
    obtain ⟨e, h⟩ | ⟨e, h⟩ | ⟨-, hformed, h⟩ := declare_cases c r
    · rw [h]
    · rw [h]
      exact hpath
    · rw [h]
      exact hpath.tail (.ownParam c hown hformed)
  · exact (leads_declare c).mono (fun _ => id) (fun _ _ => Entry.name) r (.inr hown)

/-- Declaring an alias makes at most one entry. -/
theorem leads_declareAlias (name : Text) (t : TypeExpr) :
    Leads (fun _ => True) SideEntry (declareAlias name t) := by
  -- Three checks are made before the entry, each of which may end the computation.
  intro r _
  unfold declareAlias
  rw [after_get_bind]
  split
  · exact .refl
  split
  · exact .refl
  rename_i hclass
  split
  · exact .refl
  rename_i hvar
  exact .single (.aliasOf name t (eq_none_of_not_has hclass) (eq_none_of_not_has hvar))

/-- Binding a host type makes at most one entry. -/
theorem leads_bindHostType (t : HostType) (name : Text) :
    Leads (fun _ => True) SideEntry (bindHostType t name) := by
  intro r _
  unfold bindHostType
  rw [after_get_bind]
  split
  · rename_i hclass
    exact .single (.hostType t name hclass)
  · exact .refl

/-- Adding a typer makes one entry. -/
theorem leads_addTyper (typer : Typer) : Leads (fun _ => True) SideEntry (addTyper typer) :=
  fun _ _ => .single (.typer typer)

end Registry

end TypeShape
