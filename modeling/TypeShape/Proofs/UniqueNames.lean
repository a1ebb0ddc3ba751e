import TypeShape.Proofs.Histories

/-!
# One name, one meaning

Classes, type variables and aliases share one namespace.  A declaration of an alias looks for the
name among the classes and the variables, but a declaration of a class or a variable does not look
among the aliases, and a class is looked up among the variables before its own type parameters
become variables.  These are the only ways in which a name gets two meanings.

## Key results

- `Operation.unambiguous_iff`: a call keeps names unambiguous exactly if it does not clash
- `replay_unambiguous_iff`: a history does so exactly if none of its calls clashes
- `alias_class_ambiguous`: a class that takes the name of an alias
-/

namespace TypeShape

open Declaring Registry
open Relation (ReflTransGen)

namespace Registry

variable {r r' : Registry}

/-- No name has two meanings: classes, type variables and aliases have different names. -/
structure Unambiguous (r : Registry) : Prop where
  class_var : ∀ n, (r.class? n).isSome = true → r.var? n = none
  class_alias : ∀ n, (r.class? n).isSome = true → r.alias? n = none
  var_alias : ∀ n, (r.var? n).isSome = true → r.alias? n = none

/-- The names of the builtin registry are unambiguous. -/
theorem builtin_unambiguous : builtin.Unambiguous := by
  have hall : ∀ entry ∈ builtin.classes, builtin.var? entry.1 = none := by
    have hnone : ∀ entry ∈ builtin.classes, (builtin.var? entry.1).isNone = true := by decide
    exact fun entry hentry => Option.isNone_iff_eq_none.1 (hnone entry hentry)
  refine ⟨fun n hn => ?_, fun _ _ => rfl, fun _ _ => rfl⟩
  obtain ⟨c, hc⟩ := Option.isSome_iff_exists.1 hn
  exact hall (n, c) (Table.mem_of_find? hc)

/-- What is there is not nothing. -/
theorem ne_none_of_isSome {α : Type} {o : Option α} (h : o.isSome = true) : o ≠ none := by
  rintro rfl
  cases h

/-- A name that has two meanings keeps both. -/
theorem Unambiguous.of_grows (hgrows : r.Grows r') (h : r'.Unambiguous) : r.Unambiguous := by
  -- What is known of a name is not forgotten, so a name free at the end was free before.
  have hvar : ∀ n, r'.var? n = none → r.var? n = none := by
    intro n hn
    by_contra hsome
    have hknown := hgrows.known (Option.isSome_iff_ne_none.2 hsome)
    exact ne_none_of_isSome hknown hn
  have halias : ∀ n, r'.alias? n = none → r.alias? n = none := by
    intro n hn
    by_contra hsome
    exact ne_none_of_isSome (hgrows.aliases n (Option.isSome_iff_ne_none.2 hsome)) hn
  exact ⟨fun n hn => hvar n (h.class_var n (hgrows.classes n hn)),
    fun n hn => halias n (h.class_alias n (hgrows.classes n hn)),
    fun n hn => halias n (h.var_alias n (hgrows.known hn))⟩

/-- Entering classes and variables keeps them apart, and changes no alias. -/
theorem apart_of_names (h : ReflTransGen NameEntry r r')
    (hapart : ∀ n, (r.class? n).isSome = true → r.var? n = none) :
    (∀ n, (r'.class? n).isSome = true → r'.var? n = none) ∧ r'.aliases = r.aliases := by
  induction h with
  | refl => exact ⟨hapart, rfl⟩
  | tail _ hstep ih =>
    obtain ⟨hapart, haliases⟩ := ih
    cases hstep with
    | var v hclass hvar =>
      -- The new variable has the name of no class.
      refine ⟨fun n hn => ?_, haliases⟩
      have hne : n ≠ v.name := by
        rintro rfl
        exact ne_none_of_isSome hn hclass
      exact (Table.find?_put_of_ne hne v _).trans (hapart n hn)
    | cls c hvar _ =>
      refine ⟨fun n hn => ?_, haliases⟩
      by_cases hname : n = c.name
      · rw [hname]
        exact hvar
      · refine hapart n ?_
        rwa [class?, Table.find?_put_of_ne hname] at hn

/-- What else is entered keeps names unambiguous. -/
theorem SideEntry.unambiguous (h : SideEntry r r') (hr : r.Unambiguous) : r'.Unambiguous := by
  cases h with
  | aliasOf name t hclass hvar =>
    -- The alias is entered under a name that is no class and no variable.
    have hother : ∀ n, n ≠ name → r.alias? n = none →
        (Table.put name t r.aliases).find? n = none :=
      fun n hn hnone => (Table.find?_put_of_ne hn t r.aliases).trans hnone
    refine ⟨hr.class_var, fun n hn => hother n ?_ (hr.class_alias n hn),
      fun n hn => hother n ?_ (hr.var_alias n hn)⟩
    · rintro rfl
      exact ne_none_of_isSome hn hclass
    · rintro rfl
      exact ne_none_of_isSome hn hvar
  | hostType t name _ => exact ⟨hr.class_var, hr.class_alias, hr.var_alias⟩
  | typer typer => exact ⟨hr.class_var, hr.class_alias, hr.var_alias⟩

/-- So does any number of such entries. -/
theorem Unambiguous.of_sides (hr : r.Unambiguous) (h : ReflTransGen SideEntry r r') :
    r'.Unambiguous := by
  induction h with
  | refl => exact hr
  | tail _ hstep ih => exact hstep.unambiguous ih

/-- They change neither classes nor variables. -/
theorem names_of_sides (h : ReflTransGen SideEntry r r') :
    r'.classes = r.classes ∧ r'.vars = r.vars := by
  induction h with
  | refl => exact ⟨rfl, rfl⟩
  | tail _ hstep ih => cases hstep <;> exact ih

end Registry

/-! ## Calls that clash -/

/-- A call gives a second meaning to a name. -/
inductive Operation.Clashes (r : Registry) : Operation → Prop where
  /-- A name that is an alias becomes a class. -/
  | aliasClass {op : Operation} (n : Text) : (r.alias? n).isSome = true →
    ((op.run r).class? n).isSome = true → Clashes r op
  /-- A name that is an alias becomes a type variable. -/
  | aliasVar {op : Operation} (n : Text) : (r.alias? n).isSome = true →
    ((op.run r).var? n).isSome = true → Clashes r op
  /-- A class that lists its own name as a type parameter is declared. -/
  | ownParam (c : Class) : c.name ∈ c.params.map (·.name) →
    (after (Registry.declare c) r).1 = .ok () → Clashes r (declare c)

namespace Operation

variable {r : Registry}

/-- A class that lists its own name is a class beside the variable. -/
theorem class_var_of_ownParam {c : Class} (hown : c.name ∈ c.params.map (·.name))
    (hok : (after (Registry.declare c) r).1 = .ok ()) :
    (((declare c).run r).class? c.name).isSome = true ∧
      (((declare c).run r).var? c.name).isSome = true := by
  have hrun : (declare c).run r = (after (Registry.declare c) r).2 := rfl
  -- The class is entered, so its parameters have been, and its own name is among them.
  obtain ⟨e, hafter⟩ | ⟨e, hafter⟩ | ⟨-, hformed, hafter⟩ := declare_cases c r
  · rw [hafter] at hok
    cases hok
  · rw [hafter] at hok
    cases hok
  · refine ⟨class?_of_declare (Prod.ext hok rfl), ?_⟩
    obtain ⟨p, hp, hname⟩ := List.mem_map.1 hown
    have hknown := hformed.params_known p hp
    rw [hname] at hknown
    rw [hrun, hafter]
    exact hknown

/-- A call that clashes leaves a name with two meanings. -/
theorem Clashes.ambiguous {op : Operation} (h : op.Clashes r) : ¬ (op.run r).Unambiguous := by
  intro hrun
  cases h with
  | aliasClass n halias hclass =>
    exact ne_none_of_isSome ((op.grows r).aliases n halias) (hrun.class_alias n hclass)
  | aliasVar n halias hvar =>
    exact ne_none_of_isSome ((op.grows r).aliases n halias) (hrun.var_alias n hvar)
  | ownParam c hown hok =>
    obtain ⟨hclass, hvar⟩ := class_var_of_ownParam hown hok
    exact ne_none_of_isSome hvar (hrun.class_var c.name hclass)

/-- A call enters classes and variables first, unless a class that lists its own name is declared. -/
theorem settles_of_not_clashes {op : Operation} (h : ¬ op.Clashes r) :
    ∃ s, ReflTransGen NameEntry r s ∧ ReflTransGen SideEntry s (op.run r) := by
  cases op with
  | declare c =>
    by_cases hown : c.name ∈ c.params.map (·.name)
    · -- The class is not entered then, so there are only its parameters.
      have hpath := leads_declareParams c.name [] c.params r trivial
      have hrun : (declare c).run r = (after (Registry.declare c) r).2 := rfl
      obtain ⟨e, hafter⟩ | ⟨e, hafter⟩ | ⟨-, -, hafter⟩ := declare_cases c r
      · rw [hrun, hafter]
        exact ⟨r, .refl, .refl⟩
      · rw [hrun, hafter]
        exact ⟨_, hpath, .refl⟩
      · exact absurd (.ownParam c hown (by rw [hafter])) h
    -- Otherwise the parameters do not hide the name of the class.
    · exact (declare c).settles r fun d hd => .inr (by cases hd; exact hown)
  | _ => exact Operation.settles _ r nofun

/-- Where names are unambiguous, a call keeps them so exactly if it does not clash. -/
theorem unambiguous_iff (op : Operation) (hr : r.Unambiguous) :
    (op.run r).Unambiguous ↔ ¬ op.Clashes r := by
  refine ⟨fun h hclash => hclash.ambiguous h, fun hclash => ?_⟩
  obtain ⟨s, hnames, hsides⟩ := settles_of_not_clashes hclash
  obtain ⟨hapart, haliases⟩ := apart_of_names hnames hr.class_var
  obtain ⟨hclasses, hvars⟩ := names_of_sides hsides
  -- The classes and variables are those of the end, and the aliases those of the beginning.
  refine Unambiguous.of_sides ⟨hapart, fun n hn => ?_, fun n hn => ?_⟩ hsides
  · by_contra hsome
    rw [alias?, haliases] at hsome
    rw [class?, ← hclasses] at hn
    exact hclash (.aliasClass n (Option.isSome_iff_ne_none.2 hsome) hn)
  · by_contra hsome
    rw [alias?, haliases] at hsome
    rw [var?, ← hvars] at hn
    exact hclash (.aliasVar n (Option.isSome_iff_ne_none.2 hsome) hn)

end Operation

/-! ## Histories without clashes -/

/-- The registry after some calls. -/
def replay (r : Registry) : List Operation → Registry
  | [] => r
  | op :: history => replay (op.run r) history

/-- None of some calls clashes when it is made. -/
def NeverClashes (r : Registry) : List Operation → Prop
  | [] => True
  | op :: history => ¬ op.Clashes r ∧ NeverClashes (op.run r) history

/-- A history only adds names. -/
theorem grows_replay (r : Registry) (history : List Operation) : r.Grows (replay r history) := by
  induction history generalizing r with
  | nil => exact .refl r
  | cons op history ih => exact (op.grows r).trans (ih (op.run r))

/-- From unambiguous names, a history keeps them so exactly if none of its calls clashes. -/
theorem replay_unambiguous_iff_of {r : Registry} (hr : r.Unambiguous) (history : List Operation) :
    (replay r history).Unambiguous ↔ NeverClashes r history := by
  -- By induction on the history, from the first call on.
  induction history generalizing r with
  | nil => exact ⟨fun _ => trivial, fun _ => hr⟩
  | cons op history ih =>
    have hstep := op.unambiguous_iff hr
    constructor
    · intro h
      -- What has two meanings after the call still has them at the end.
      have hrun : (op.run r).Unambiguous := .of_grows (grows_replay _ history) h
      exact ⟨hstep.1 hrun, (ih hrun).1 h⟩
    · rintro ⟨hclash, hrest⟩
      exact (ih (hstep.2 hclash)).2 hrest

/-- After a history that begins with the builtin classes, classes, type variables and aliases have
different names exactly if none of its calls, successful or not, takes the name of an alias for a
class or a variable or declares a class that lists its own name as a type parameter. -/
theorem replay_unambiguous_iff (history : List Operation) :
    (replay .builtin history).Unambiguous ↔ NeverClashes .builtin history :=
  replay_unambiguous_iff_of builtin_unambiguous history

/-- A class takes the name of an alias, and the name has both meanings. -/
theorem alias_class_ambiguous :
    let names : Text := text "Names"
    ¬ (replay .builtin [.declareAlias names (.app Name.list [.con Name.string]),
      .declare { name := names }]).Unambiguous := by
  intro names h
  exact absurd (h.class_alias names (by decide)) (by decide)

end TypeShape
