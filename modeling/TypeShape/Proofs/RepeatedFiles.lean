import TypeShape.Proofs.DeclarationOrder

/-!
# Applying a declaration file again

After a file has been applied, all it declares is there: the second time its types are read where
more variables and the aliases of the file are known, and every declaration finds what it would
enter.  Reading is not changed by what is known in addition, because the names that were found the
first time are still found and stand for the same.

## Key results

- `Registry.Extends.parse`: what was read before variables and aliases were added is read after it
- `Registry.Denotes.mono`: so the entry of a class denotes the same class
- `DeclarationFile.apply_again`: applying a file again succeeds and changes nothing
-/

namespace TypeShape

open Declaring Registry

namespace Registry

variable {r s : Registry} {c d : ClassEntry} {C D : Class}

/-! ## Registries that know more variables and aliases -/

/-- A registry has the classes of another one by name, and knows its variables and aliases and
perhaps more, but no alias has become a variable. -/
structure Extends (r s : Registry) : Prop where
  classes : ∀ n, (s.class? n).isSome = (r.class? n).isSome
  vars : ∀ n v, r.var? n = some v → s.var? n = some v
  aliases : ∀ n t, r.alias? n = some t → s.alias? n = some t ∧ s.var? n = r.var? n

/-- A registry extends itself. -/
theorem Extends.refl (r : Registry) : r.Extends r :=
  ⟨fun _ => rfl, fun _ _ => id, fun _ _ h => ⟨h, rfl⟩⟩

/-- What extends an extension of a registry extends it. -/
theorem Extends.trans {u : Registry} (h : r.Extends s) (h' : s.Extends u) : r.Extends u := by
  refine ⟨fun n => (h'.classes n).trans (h.classes n), fun n v hv => h'.vars n v (h.vars n v hv),
    fun n t ht => ?_⟩
  obtain ⟨halias, hvar⟩ := h.aliases n t ht
  obtain ⟨halias', hvar'⟩ := h'.aliases n t halias
  exact ⟨halias', hvar'.trans hvar⟩

/-- Whether a name may be given depends on the classes only. -/
theorem Extends.mayName (h : r.Extends s) (n : Text) : s.MayName n ↔ r.MayName n :=
  mayName_congr (h.classes n)

/-- So does whether a base has a fault. -/
theorem Extends.baseFault? (h : r.Extends s) (owner : Text) (base : TypeExpr) :
    s.baseFault? owner base = r.baseFault? owner base :=
  baseFault?_congr h.classes owner base

/-- A name that stands for something stands for the same where more is known. -/
theorem Extends.lookup (h : r.Extends s) {n : Text} {t : TypeExpr} (ht : r.lookup n = some t) :
    s.lookup n = some t := by
  unfold Registry.lookup at ht ⊢
  by_cases hany : n = Name.any
  · rwa [if_pos hany] at ht ⊢
  rw [if_neg hany] at ht ⊢
  rw [h.classes n]
  by_cases hclass : (r.class? n).isSome = true
  · rwa [if_pos hclass] at ht ⊢
  rw [if_neg hclass] at ht ⊢
  cases hvar : r.var? n with
  | some v =>
    rw [hvar] at ht
    rw [h.vars n v hvar]
    exact ht
  | none =>
    -- The name is an alias, which has not become a variable.
    rw [hvar] at ht
    obtain ⟨halias, hsame⟩ := h.aliases n t ht
    rw [hsame, hvar]
    exact halias

/-- What was read is read in the same way where more is known. -/
theorem Extends.parse (h : r.Extends s) {source : Text} {t : TypeExpr}
    (ht : r.parse source = .ok t) : s.parse source = .ok t :=
  TypeExpr.parse_mono (fun _ _ => h.lookup) ht

/-- Where there are no aliases, new variables hide nothing. -/
theorem extends_of_no_aliases (haliases : r.aliases = [])
    (hclasses : ∀ n, (s.class? n).isSome = (r.class? n).isSome)
    (hvars : ∀ n v, r.var? n = some v → s.var? n = some v) : r.Extends s := by
  refine ⟨hclasses, hvars, fun n t ht => ?_⟩
  rw [alias?, haliases] at ht
  cases ht

/-- The type parameters of a class stand for the same where more is known, if none of them has been
declared in another way. -/
theorem Extends.withParams (h : r.Extends s) (hparam : ∀ n, s.paramOf n = r.paramOf n)
    (names : List Text) : (r.withParams names).Extends (s.withParams names) := by
  -- A parameter stands for the same variable in both, any other name for what it did.
  refine ⟨fun n => ?_, fun n v hv => ?_, fun n t ht => ?_⟩
  · rw [class?, classes_withParams, class?, classes_withParams]
    exact h.classes n
  · rw [var?_withParams] at hv ⊢
    by_cases hn : n ∈ names
    · rw [if_pos hn] at hv ⊢
      rwa [hparam]
    · rw [if_neg hn] at hv ⊢
      exact h.vars n v hv
  · rw [alias?, aliases_withParams] at ht
    obtain ⟨halias, hvar⟩ := h.aliases n t ht
    refine ⟨?_, ?_⟩
    · rw [alias?, aliases_withParams]
      exact halias
    · rw [var?_withParams, var?_withParams, hparam, hvar]

/-- The entry of a class denotes the same class where more is known. -/
theorem Denotes.mono (hC : r.Denotes c C) (h : r.Extends s)
    (hparam : ∀ n, s.paramOf n = r.paramOf n) (hvar : s.var? c.name = r.var? c.name) :
    s.Denotes c C :=
  hC.congr h.classes hparam hvar fun _ _ _ => (h.withParams hparam c.params).parse

/-- A registry has what the entry of a class denotes: entering it would change nothing. -/
def HasClass (r : Registry) (c : ClassEntry) : Prop :=
  ∃ C, r.Denotes c C ∧ r.enter c C = r

/-- Type parameters that are variables already change nothing. -/
theorem withParams_of_known {names : List Text} (h : ∀ n ∈ names, (r.var? n).isSome = true) :
    r.withParams names = r := by
  induction names with
  | nil => rfl
  | cons n names ih =>
    obtain ⟨hn, hnames⟩ := List.forall_mem_cons.1 h
    have hcons : r.withParams (n :: names) = (r.withParam n).withParams names := rfl
    rw [hcons, withParam_of_known hn, ih hnames]

/-- Entering a class that is there changes nothing. -/
theorem enter_eq_self (hclass : r.class? c.name = some C)
    (hparams : ∀ n ∈ c.params, (r.var? n).isSome = true) : r.enter c C = r := by
  rw [enter, withParams_of_known hparams, Table.put_of_find?_eq_some hclass]

/-- What more than a class and its type parameters is entered does not matter to them. -/
theorem HasClass.mono (hc : r.HasClass c) (h : r.Extends s) (hparam : ∀ n, s.paramOf n = r.paramOf n)
    (hvar : s.var? c.name = r.var? c.name) (hclass : s.class? c.name = r.class? c.name) :
    s.HasClass c := by
  obtain ⟨C, hC, henter⟩ := hc
  refine ⟨C, hC.mono h hparam hvar, enter_eq_self ?_ fun n hn => ?_⟩
  · rw [hclass, ← henter, class?_enter, if_pos rfl]
  · have hknown : r.var? n = some (r.paramOf n) := by
      rw [← henter, var?_enter, if_pos hn, paramOf_enter]
    rw [h.vars n _ hknown]
    rfl

/-- The entry of a variable denotes a variable in the scope of a registry. -/
structure DenotesVar (r : Registry) (v : VarEntry) (V : TypeVar) : Prop where
  name : V.name = v.name
  bound : if v.bound.isEmpty then V.bound = .omitted else r.parse v.bound = .ok V.bound
  constraints : List.Forall₂ (fun source t => r.parse source = .ok t) v.constraints V.constraints

/-- The entry of a variable denotes the same where more is known. -/
theorem DenotesVar.mono {v : VarEntry} {V : TypeVar} (hV : r.DenotesVar v V) (h : r.Extends s) :
    s.DenotesVar v V := by
  refine ⟨hV.name, ?_, hV.constraints.imp fun _ _ => h.parse⟩
  have hbound := hV.bound
  by_cases hempty : v.bound.isEmpty = true
  · rwa [if_pos hempty] at hbound ⊢
  · rw [if_neg hempty] at hbound ⊢
    exact h.parse hbound

/-! ## The steps of a file -/

/-- A variable that has been declared agrees with its declaration, and can be declared again. -/
theorem declareVar_again {r' : Registry} {v : TypeVar} (h : after (declareVar v) r = (.ok (), r'))
    (hs : r'.Extends s) : after (declareVar v) s = (.ok (), s) := by
  obtain ⟨haccepts, hknown⟩ := accepts_of_declareVar h
  have hname : s.MayName v.name := (hs.mayName v.name).2 (mayName_of_accepts haccepts)
  have hagain := accepts_mono haccepts hknown hname.no_class (hs.vars v.name)
  obtain ⟨w, hw⟩ := Option.isSome_iff_exists.1 hknown
  rw [after_declareVar_of_accepts hagain, hs.vars v.name w hw]
  rfl

/-- A class that is known is entered again with its type parameters. -/
theorem extends_enter (haliases : r.aliases = []) (hknown : (r.class? c.name).isSome = true)
    (C : Class) : r.Extends (r.enter c C) := by
  refine extends_of_no_aliases haliases (isSome_class?_enter hknown C) fun n v hv => ?_
  rw [var?_enter, paramOf, hv]
  split <;> rfl

/-- Once it is entered, a registry has what the entry denotes. -/
theorem hasClass_enter (hC : r.Denotes c C) (haliases : r.aliases = [])
    (hknown : (r.class? c.name).isSome = true) : (r.enter c C).HasClass c := by
  refine ⟨C, hC.mono (extends_enter haliases hknown C) (r.paramOf_enter c C) ?_,
    enter_eq_self ?_ fun n hn => ?_⟩
  · rw [var?_enter, if_neg hC.no_param]
  · rw [class?_enter, if_pos rfl]
  · rw [var?_enter, if_pos hn]
    rfl

end Registry

namespace DeclarationFile

variable {r r' s : Registry} {f : DeclarationFile}

/-- A variable is applied exactly if its entry denotes a variable that can be declared. -/
theorem after_applyVar_ok {v : VarEntry} :
    after (f.applyVar v) r = (.ok (), r') ↔
      ∃ V, r.DenotesVar v V ∧ after (declareVar V) r = (.ok (), r') := by
  -- The types of an entry are read without changing the registry.
  have hreads {doing source : Text} {t : TypeExpr} {s : Registry} :
      after (Declaring.within doing (parseType source)) r = (.ok t, s) ↔
        r.parse source = .ok t ∧ s = r := by
    rw [after_within_ok, after_parseType_ok]
  have hbound {s : Registry} {t : TypeExpr} :
      after (if v.bound.isEmpty then pure .omitted
        else Declaring.within (f.doing "var" v.name ++ text ": bound") (parseType v.bound)) r =
          (.ok t, s) ↔
        (if v.bound.isEmpty then t = .omitted else r.parse v.bound = .ok t) ∧ s = r := by
    split
    · exact after_pure_ok
    · exact hreads
  rw [applyVar_eq]
  constructor
  · intro h
    obtain ⟨bound, r₁, hfirst, hrest⟩ := after_bind_ok.1 h
    obtain ⟨ht, rfl⟩ := hbound.1 hfirst
    obtain ⟨constraints, r₂, hsecond, hlast⟩ := after_bind_ok.1 hrest
    obtain ⟨hts, rfl⟩ := (after_mapM_reads fun _ _ _ => hreads).1 hsecond
    exact ⟨⟨v.name, bound, constraints⟩, ⟨rfl, ht, hts⟩, after_within_ok.1 hlast⟩
  · rintro ⟨⟨name, bound, constraints⟩, ⟨rfl, ht, hts⟩, h⟩
    refine after_bind_ok.2 ⟨bound, r, hbound.2 ⟨ht, rfl⟩, ?_⟩
    refine after_bind_ok.2
      ⟨constraints, r, (after_mapM_reads fun _ _ _ => hreads).2 ⟨hts, rfl⟩, ?_⟩
    exact after_within_ok.2 h

/-- Where a variable has been applied, or more is known, it can be applied again. -/
theorem applyVar_again {v : VarEntry} (h : after (f.applyVar v) r = (.ok (), r'))
    (hr : r.Extends r') (hs : r'.Extends s) : after (f.applyVar v) s = (.ok (), s) := by
  obtain ⟨V, hV, hrun⟩ := after_applyVar_ok.1 h
  exact after_applyVar_ok.2 ⟨V, hV.mono (hr.trans hs), declareVar_again hrun hs⟩

/-- Variables are entered in no other way than as variables. -/
theorem extends_applyVar {v : VarEntry} (h : after (f.applyVar v) r = (.ok (), r'))
    (haliases : r.aliases = []) : r.Extends r' ∧ r'.aliases = [] := by
  obtain ⟨V, -, hrun⟩ := after_applyVar_ok.1 h
  obtain ⟨hafter, -, hvar⟩ | ⟨hafter, -⟩ | ⟨e, hafter⟩ := declareVar_cases V r
  · rw [hrun] at hafter
    cases hafter
    refine ⟨extends_of_no_aliases haliases (fun _ => rfl) fun n w hw => ?_, haliases⟩
    -- The new variable was not known, so it replaces none.
    have hn : n ≠ V.name := by
      rintro rfl
      rw [hvar] at hw
      cases hw
    exact (Table.find?_put_of_ne hn V r.vars).trans hw
  · rw [hrun] at hafter
    cases hafter
    exact ⟨.refl r, haliases⟩
  · rw [hrun] at hafter
    cases hafter

/-- After the variables of a file have been applied, all of them can be applied again, also where
more is known. -/
theorem applyVars_again {vs : List VarEntry} (h : after (vs.forM f.applyVar) r = (.ok (), r'))
    (haliases : r.aliases = []) : r'.aliases = [] ∧ r.Extends r' ∧
      ∀ v ∈ vs, ∀ s, r'.Extends s → after (f.applyVar v) s = (.ok (), s) := by
  -- By induction on the variables; what one has declared is still there for those behind it.
  induction vs generalizing r with
  | nil =>
    cases h
    exact ⟨haliases, .refl _, nofun⟩
  | cons v vs ih =>
    obtain ⟨r₁, hfirst, hrest⟩ := after_forM_cons_ok.1 h
    obtain ⟨hgrown, haliases⟩ := extends_applyVar hfirst haliases
    obtain ⟨haliases, hgrown', hagain⟩ := ih hrest haliases
    refine ⟨haliases, hgrown.trans hgrown', List.forall_mem_cons.2 ⟨fun s hs => ?_, hagain⟩⟩
    exact applyVar_again hfirst hgrown (hgrown'.trans hs)

/-- Entering classes of a file keeps the type parameters and the classes of other names, and makes
no class a variable. -/
structure EntersClasses (names : List Text) (r r' : Registry) : Prop where
  filed : r'.VarsFiled
  aliases : r'.aliases = []
  grown : r.Extends r'
  params : ∀ n, r'.paramOf n = r.paramOf n
  classes : ∀ n, n ∉ names → r'.class? n = r.class? n
  vars : ∀ n, (r.class? n).isSome = true → r'.var? n = r.var? n

/-- Entering a class that is known by name adds variables and replaces this one class. -/
theorem entersClasses_enter {c : ClassEntry} {C : Class} (hr : r.VarsFiled) (hC : r.Denotes c C)
    (haliases : r.aliases = []) (hknown : (r.class? c.name).isSome = true) :
    EntersClasses [c.name] r (r.enter c C) := by
  refine ⟨hr.enter c C, ?_, extends_enter haliases hknown C, r.paramOf_enter c C,
    fun n hn => ?_, fun n hn => ?_⟩
  · exact (r.aliases_withParams c.params).trans haliases
  · rw [class?_enter, if_neg (by simpa using hn)]
  · -- A type parameter is no class.
    have hparam : n ∉ c.params := by
      intro hmem
      rw [(hC.params_may n hmem).no_class] at hn
      cases hn
    rw [var?_enter, if_neg hparam]

/-- After the classes of a file have been applied, the registry has what their entries denote. -/
theorem hasClass_of_applyClasses {cs : List ClassEntry} (hr : r.VarsFiled)
    (haliases : r.aliases = []) (hknown : ∀ c ∈ cs, (r.class? c.name).isSome = true)
    (hnodup : (cs.map (·.name)).Nodup) (h : after (cs.forM f.applyClass) r = (.ok (), r')) :
    EntersClasses (cs.map (·.name)) r r' ∧ ∀ c ∈ cs, r'.HasClass c := by
  -- By induction on the classes.
  induction cs generalizing r with
  | nil =>
    cases h
    exact ⟨⟨hr, haliases, .refl _, fun _ => rfl, fun _ _ => rfl, fun _ _ => rfl⟩, nofun⟩
  | cons c cs ih =>
    obtain ⟨hc, hcs⟩ := List.forall_mem_cons.1 hknown
    obtain ⟨hnot, hnodup⟩ := List.nodup_cons.1 hnodup
    obtain ⟨r₁, hfirst, hrest⟩ := after_forM_cons_ok.1 h
    obtain ⟨C, hC, rfl⟩ := (after_applyClass_ok hr f c).1 hfirst
    have henter := entersClasses_enter hr hC haliases hc
    have hsame (n : Text) : ((r.enter c C).class? n).isSome = (r.class? n).isSome :=
      henter.grown.classes n
    obtain ⟨hall, hhas⟩ := ih henter.filed henter.aliases
      (fun d hd => (hsame d.name).trans (hcs d hd)) hnodup hrest
    refine ⟨⟨hall.filed, hall.aliases, henter.grown.trans hall.grown,
      fun n => (hall.params n).trans (henter.params n), fun n hn => ?_, fun n hn => ?_⟩,
      List.forall_mem_cons.2 ⟨?_, hhas⟩⟩
    · obtain ⟨hne, hn⟩ := List.ne_and_not_mem_of_not_mem_cons hn
      exact (hall.classes n hn).trans (henter.classes n (by simpa using hne))
    · exact (hall.vars n ((hsame n).trans hn)).trans (henter.vars n hn)
    · -- The classes that follow have other names.
      exact (hasClass_enter hC haliases hc).mono hall.grown hall.params
        (hall.vars c.name ((hsame c.name).trans hc)) (hall.classes c.name hnot)

/-! ## Aliases -/

/-- An alias is applied exactly if its type can be read and its name is free. -/
theorem after_applyAlias_ok {a : AliasEntry} :
    after (f.applyAlias a) r = (.ok (), r') ↔ ∃ t, r.parse a.type = .ok t ∧
      (r.MayName a.name ∧ r.var? a.name = none) ∧
      r' = { r with aliases := Table.put a.name t r.aliases } := by
  unfold applyAlias
  rw [after_within_ok, after_bind_ok]
  simp only [after_parseType_ok, after_declareAlias_ok]
  -- Reading the type leaves the registry as it is, so only the declaration changes it.
  constructor
  · rintro ⟨t, r₁, ⟨ht, rfl⟩, hdeclared⟩
    exact ⟨t, ht, hdeclared⟩
  · rintro ⟨t, ht, hdeclared⟩
    exact ⟨t, r, ⟨ht, rfl⟩, hdeclared⟩

/-- A new alias only adds to what is known, because no variable has its name. -/
theorem extends_alias {n : Text} {t : TypeExpr} (hn : r.alias? n = none) :
    r.Extends { r with aliases := Table.put n t r.aliases } := by
  refine ⟨fun _ => rfl, fun _ _ => id, fun m u hm => ⟨?_, rfl⟩⟩
  have hne : m ≠ n := by
    rintro rfl
    rw [hn] at hm
    cases hm
  exact (Table.find?_put_of_ne hne t r.aliases).trans hm

/-- After the aliases of a file have been applied, all of them can be applied again. -/
theorem applyAliases_again {as : List AliasEntry} (hnodup : (as.map (·.name)).Nodup)
    (hnew : ∀ a ∈ as, r.alias? a.name = none)
    (h : after (as.forM f.applyAlias) r = (.ok (), r')) :
    r.Extends r' ∧ r'.classes = r.classes ∧ r'.vars = r.vars ∧
      ∀ a ∈ as, after (f.applyAlias a) r' = (.ok (), r') := by
  -- By induction on the aliases; a later one leaves the earlier ones as they are.
  induction as generalizing r with
  | nil =>
    cases h
    exact ⟨.refl _, rfl, rfl, nofun⟩
  | cons a as ih =>
    obtain ⟨ha, has⟩ := List.forall_mem_cons.1 hnew
    obtain ⟨hnot, hnodup⟩ := List.nodup_cons.1 hnodup
    obtain ⟨r₁, hfirst, hrest⟩ := after_forM_cons_ok.1 h
    obtain ⟨t, ht, ⟨hname, hvar⟩, rfl⟩ := after_applyAlias_ok.1 hfirst
    have hgrown := extends_alias (t := t) ha
    have hnew : ∀ b ∈ as, (Table.put a.name t r.aliases).find? b.name = none := by
      intro b hb
      have hne : b.name ≠ a.name := by
        intro heq
        exact hnot (List.mem_map.2 ⟨b, hb, heq⟩)
      exact (Table.find?_put_of_ne hne t r.aliases).trans (has b hb)
    let added : Registry := { r with aliases := Table.put a.name t r.aliases }
    obtain ⟨hgrown', hclasses, hvars, hagain⟩ := ih (r := added) hnodup hnew hrest
    have hall : r.Extends r' := hgrown.trans hgrown'
    refine ⟨hall, hclasses, hvars, List.forall_mem_cons.2 ⟨?_, hagain⟩⟩
    -- The alias is there, and its type reads as before.
    obtain ⟨halias, -⟩ := hgrown'.aliases a.name t (Table.find?_put_self a.name t r.aliases)
    have hvar' : r'.var? a.name = none := by
      rw [var?, hvars]
      exact hvar
    have hname' : r'.MayName a.name := (hall.mayName a.name).2 hname
    refine after_applyAlias_ok.2 ⟨t, hall.parse ht, ⟨hname', hvar'⟩, ?_⟩
    rw [Table.put_of_find?_eq_some halias]

/-! ## Files -/

/-- A file that has been checked and applied to a registry without aliases can be applied again, and
then it changes nothing: neither classes, variables and aliases nor anything else.  The variables of
the registry stand under their own names, as they do in every registry of a history
(`varsFiled_of_mem_pool`). -/
theorem apply_again (f : DeclarationFile) (hcheck : f.check = .ok ()) (hr : r.VarsFiled)
    (haliases : r.aliases = []) (h : after f.apply r = (.ok (), r')) :
    after f.apply r' = (.ok (), r') := by
  unfold apply at h
  obtain ⟨_, r₁, hfirst, h⟩ := after_bind_ok.1 h
  obtain ⟨_, r₂, hsecond, h⟩ := after_bind_ok.1 h
  obtain ⟨_, r₃, hthird, hlast⟩ := after_bind_ok.1 h
  -- The classes are known by name, and nothing else has happened but declarations of names.
  have hpath₁ := (Leads.forM (stable_true _) fun c _ => f.leads_enterClass c).path trivial hfirst
  have hpath₂ := (Leads.forM (stable_true _) fun v _ => f.leads_applyVar v).path trivial hsecond
  have hfiled : r₂.VarsFiled := by
    have hstable : Stable VarsFiled NameEntry := fun _ _ hstep => (Entry.name hstep).varsFiled
    exact hstable.path (hpath₁.trans hpath₂) hr
  have hknown : r₂.Knows (f.classes.map (·.name)) :=
    (stable_knows _).path hpath₂ (f.knows_of_enterClasses hfirst)
  obtain ⟨haliases₂, -, hvars⟩ := applyVars_again hsecond ((aliases_of_names hpath₁).trans haliases)
  obtain ⟨henters, hclasses⟩ := hasClass_of_applyClasses hfiled haliases₂
    (fun c hc => hknown c.name (List.mem_map_of_mem hc)) (nodup_of_check hcheck) hthird
  have hnew : ∀ a ∈ f.aliases, r₃.alias? a.name = none := by
    intro a _
    rw [alias?, henters.aliases]
    rfl
  obtain ⟨hgrown, hsameClasses, hsameVars, hagain⟩ :=
    applyAliases_again (nodup_aliases_of_check hcheck) hnew hlast
  have hclass (n : Text) : r'.class? n = r₃.class? n := congrArg (Table.find? · n) hsameClasses
  have hvar (n : Text) : r'.var? n = r₃.var? n := congrArg (Table.find? · n) hsameVars
  -- The four parts of the file once more, where all of it is known.
  unfold apply
  refine after_bind_ok.2 ⟨(), r', after_forM_unchanged fun c hc => enterClass_known ?_,
    after_bind_ok.2 ⟨(), r', after_forM_unchanged fun v hv => ?_,
    after_bind_ok.2 ⟨(), r', after_forM_unchanged fun c hc => ?_, after_forM_unchanged hagain⟩⟩⟩
  · rw [hclass, henters.grown.classes]
    exact hknown c.name (List.mem_map_of_mem hc)
  · exact hvars v hv r' (henters.grown.trans hgrown)
  · have hparam (n : Text) : r'.paramOf n = r₃.paramOf n := by
      rw [paramOf, hvar, paramOf]
    obtain ⟨C, hC, henter⟩ := (hclasses c hc).mono hgrown hparam (hvar c.name) (hclass c.name)
    have hfiled' : r'.VarsFiled := fun n v hv => henters.filed n v ((hvar n).symm.trans hv)
    exact (after_applyClass_ok hfiled' f c).2 ⟨C, hC, henter.symm⟩

/-- A file with a variable, a class that declares a parameter of its own, and an alias. -/
theorem apply_again_pairs :
    let number : VarEntry := { name := text "N", bound := text "Float" }
    let first : MemberEntry := { name := text "first", type := text "A" }
    let pair : ClassEntry :=
      { name := text "Pair", params := [text "A", text "N"], members := [first] }
    let pairs : AliasEntry := { name := text "Pairs", type := text "List[Pair[Int, N]]" }
    let f : DeclarationFile :=
      { path := text "types.yaml", vars := [number], classes := [pair], aliases := [pairs] }
    let applied : Registry := (after f.apply .builtin).2
    f.check = .ok () ∧ (after f.apply .builtin).1 = .ok () ∧
      after f.apply applied = (.ok (), applied) := by
  -- The run on the builtin registry is evaluated once, and the theorem gives the other.
  intro number first pair pairs f applied
  have hcheck : f.check = .ok () := rfl
  have hok : (after f.apply .builtin).1 = .ok () := rfl
  have hrun : after f.apply .builtin = (.ok (), applied) := by rw [← hok]
  have hfiled : Registry.builtin.VarsFiled :=
    varsFiled_of_mem_pool [] _ (List.mem_singleton_self _)
  exact ⟨hcheck, hok, apply_again f hcheck hfiled rfl hrun⟩

end DeclarationFile

end TypeShape
