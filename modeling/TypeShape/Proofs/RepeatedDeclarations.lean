import TypeShape.Proofs.FailedDeclarations

/-!
# Declaring classes again

When a list of classes has been declared, all checks that a class has passed are passed again: what
was known is still known, and its type parameters are variables it agrees with.  So declaring the
list once more succeeds, and every class ends up as it was, also one that is declared several times
in the list.

An import is such a list of declarations, taken apart by notes of what is being done and by what it
computes in between (`Declares`).

## Key results

- `Registry.Redeclarable`: a class that can be declared again, whatever is entered in between
- `Registry.enterAll_again`: entering the same classes twice is entering them once
- `Declaring.Declares.again`: what declares classes and does nothing else can be repeated
-/

namespace TypeShape

open Declaring Registry
open Relation (ReflTransGen)

namespace Registry

variable {r r' : Registry} {c d : Class} {cs : List Class} {t : Table Class}

/-! ## Classes entered in a row -/

/-- The classes with some more of them entered in a row. -/
def enterAll (cs : List Class) (t : Table Class) : Table Class :=
  cs.foldl (fun t c => Table.put c.name c t) t

/-- The first class is entered first. -/
theorem enterAll_cons (c : Class) (cs : List Class) (t : Table Class) :
    enterAll (c :: cs) t = enterAll cs (Table.put c.name c t) := rfl

/-- Entering two lists in a row is entering the one and then the other. -/
theorem enterAll_append (cs ds : List Class) (t : Table Class) :
    enterAll (cs ++ ds) t = enterAll ds (enterAll cs t) :=
  List.foldl_append

/-- Under a name stands the last class of that name. -/
theorem find?_enterAll (cs : List Class) (t : Table Class) (n : Text) :
    (enterAll cs t).find? n = (cs.reverse.find? (·.name == n)).or (t.find? n) := by
  induction cs generalizing t with
  | nil => rfl
  | cons c cs ih =>
    rw [enterAll_cons, ih, Table.find?_put, List.reverse_cons, List.find?_append, Option.or_assoc]
    by_cases hn : n = c.name
    · subst hn
      simp
    · have hne : ¬ c.name = n := fun heq => hn heq.symm
      simp [hn, hne]

/-- Classes of other names do not change what is found under a name. -/
theorem find?_enterAll_of_not_mem {n : Text} (hn : n ∉ cs.map (·.name)) (t : Table Class) :
    (enterAll cs t).find? n = t.find? n := by
  induction cs generalizing t with
  | nil => rfl
  | cons c cs ih =>
    obtain ⟨hne, hn⟩ := List.ne_and_not_mem_of_not_mem_cons hn
    rw [enterAll_cons, ih hn, Table.find?_put_of_ne hne]

/-- The class found under a name is the last one of the name. -/
theorem find?_enterAll_of_mem {n : Text} (hn : n ∈ cs.map (·.name)) (t : Table Class) :
    ∃ c ∈ cs, c.name = n ∧ (enterAll cs t).find? n = some c := by
  -- By induction on the classes; a later one of the same name wins.
  induction cs generalizing t with
  | nil => cases hn
  | cons c cs ih =>
    rw [enterAll_cons]
    by_cases hlater : n ∈ cs.map (·.name)
    · obtain ⟨d, hd, hname, hfind⟩ := ih hlater (Table.put c.name c t)
      exact ⟨d, List.mem_cons_of_mem _ hd, hname, hfind⟩
    · have hname : n = c.name := (List.mem_cons.1 hn).resolve_right hlater
      refine ⟨c, List.mem_cons_self, hname.symm, ?_⟩
      rw [find?_enterAll_of_not_mem hlater, hname, Table.find?_put_self]

/-- What is found before classes are entered is found after. -/
theorem isSome_find?_enterAll {n : Text} (h : (t.find? n).isSome = true) :
    ((enterAll cs t).find? n).isSome = true := by
  induction cs generalizing t with
  | nil => exact h
  | cons c cs ih => exact ih (isSome_find?_put c.name c h)

/-- A class is replaced by a later one of its name, and else it may as well be entered last. -/
theorem enterAll_put (h : (t.find? c.name).isSome = true) :
    enterAll cs (Table.put c.name c t) =
      if c.name ∈ cs.map (·.name) then enterAll cs t
      else Table.put c.name c (enterAll cs t) := by
  -- By induction on the classes that are entered after it.
  induction cs generalizing t with
  | nil => rfl
  | cons d cs ih =>
    rw [enterAll_cons, enterAll_cons]
    by_cases hname : c.name = d.name
    · have hmem : c.name ∈ (d :: cs).map (·.name) := List.mem_cons.2 (.inl hname)
      rw [if_pos hmem, hname, Table.put_put]
    · -- Classes of two names may be entered in either order, if the first is known already.
      rw [← Table.put_comm_of_isSome hname c d h, ih (isSome_find?_put d.name d h)]
      have hmem : c.name ∈ (d :: cs).map (·.name) ↔ c.name ∈ cs.map (·.name) := by
        simp [hname]
      simp only [hmem]

/-- Entering the same classes twice is entering them once. -/
theorem enterAll_again (cs : List Class) (t : Table Class) :
    enterAll cs (enterAll cs t) = enterAll cs t := by
  -- By induction on the classes; the first one has been entered already and is put in its place
  -- again.
  induction cs generalizing t with
  | nil => rfl
  | cons c cs ih =>
    rw [enterAll_cons, enterAll_cons]
    have hknown : ((enterAll cs (Table.put c.name c t)).find? c.name).isSome = true :=
      isSome_find?_enterAll (by rw [Table.find?_put_self]; rfl)
    rw [enterAll_put hknown, ih]
    by_cases hlater : c.name ∈ cs.map (·.name)
    · rw [if_pos hlater]
    · -- The first class is the one that the whole list leaves, so entering it last changes nothing.
      rw [if_neg hlater]
      apply Table.put_of_find?_eq_some
      rw [find?_enterAll_of_not_mem hlater, Table.find?_put_self]

/-! ## Classes that can be declared again -/

/-- A class that can be declared and enters nothing but itself: its name is that of a class, and its
type parameters are variables that agree with it. -/
structure Redeclarable (c : Class) (r : Registry) : Prop where
  nonempty : c.name.isEmpty = false
  unreserved : Name.isReserved c.name = false
  known : (r.class? c.name).isSome = true
  no_var : r.var? c.name = none
  params_nodup : (c.params.map (·.name)).Nodup
  params : ∀ p ∈ c.params, r.accepts p = true ∧ (r.var? p.name).isSome = true
  bases : ∀ base ∈ c.bases, r.baseFault? c.name base = none
  members : firstRepeated [] (c.members.map (·.name)) = none

/-- Parameters that have been declared are declared again without a change. -/
theorem after_declareParams_again {owner : Text} {seen : List Text} {params : List TypeVar}
    (hnodup : (params.map (·.name)).Nodup) (hfresh : ∀ p ∈ params, p.name ∉ seen)
    (h : ∀ p ∈ params, r.accepts p = true ∧ (r.var? p.name).isSome = true) :
    after (declareParams owner seen params) r = (.ok (), r) := by
  -- By induction on the parameters, for the names before; their names are distinct.
  induction params generalizing seen with
  | nil => rfl
  | cons p ps ih =>
    obtain ⟨hnot, hnodup⟩ := List.nodup_cons.1 hnodup
    obtain ⟨hp, hps⟩ := List.forall_mem_cons.1 hfresh
    obtain ⟨⟨haccepts, hknown⟩, hrest⟩ := List.forall_mem_cons.1 h
    have hrun : after (declareVar p) r = (.ok (), r) := by
      rw [after_declareVar_of_accepts haccepts, if_pos hknown]
    unfold declareParams
    rw [if_neg fun hmem => hp (List.contains_iff_mem.1 hmem)]
    refine after_bind_ok.2 ⟨(), r, hrun, ih hnodup (fun q hq hmem => ?_) hrest⟩
    obtain hname | hmem := List.mem_cons.1 hmem
    · exact hnot (List.mem_map.2 ⟨q, hq, hname⟩)
    · exact hps q hq hmem

/-- A class that can be declared again is entered once more, and nothing else changes. -/
theorem Redeclarable.declare (h : r.Redeclarable c) :
    after (Registry.declare c) r =
      (.ok (), { r with classes := Table.put c.name c r.classes }) :=
  after_declare_ok.2 ⟨⟨h.nonempty, h.unreserved, h.no_var⟩, r,
    after_declareParams_again h.params_nodup (fun _ _ => List.not_mem_nil) h.params, h.bases,
    h.members, rfl⟩

/-- A base without a fault has none when more classes are known. -/
theorem baseFault?_mono {owner : Text} {base : TypeExpr}
    (hgrows : ∀ n, (r.class? n).isSome = true → (r'.class? n).isSome = true)
    (h : r.baseFault? owner base = none) : r'.baseFault? owner base = none := by
  obtain ⟨super, hsuper, hne, hknown⟩ := baseFault?_eq_none h
  have hhas : r'.classes.has super = true := hgrows super hknown
  unfold baseFault?
  simp only [hsuper, hne, hhas, if_false, if_true]

/-- A variable that is accepted and known stays so, because no class is entered under its name. -/
theorem stable_accepts (p : TypeVar) :
    Stable (fun r => r.accepts p = true ∧ (r.var? p.name).isSome = true) NameEntry := by
  rintro r r' hstep ⟨haccepts, hknown⟩
  have hgrows := hstep.grows
  refine ⟨accepts_mono haccepts hknown ?_ (hgrows.vars p.name), hgrows.known hknown⟩
  have hclass := (mayName_of_accepts haccepts).no_class
  -- Only the entry of a class could take the name, and it asks for a name without variable.
  cases hstep with
  | var v _ _ => exact hclass
  | cls c hvar _ =>
    have hne : p.name ≠ c.name := by
      intro heq
      rw [heq, hvar] at hknown
      cases hknown
    exact (Table.find?_put_of_ne hne c r.classes).trans hclass

/-- A class that can be declared again stays so, whatever is entered. -/
theorem stable_redeclarable (c : Class) : Stable (Redeclarable c) NameEntry := by
  intro r r' hstep h
  obtain ⟨hknown, hvar⟩ := stable_class_name c.name r r' hstep ⟨h.known, h.no_var⟩
  exact ⟨h.nonempty, h.unreserved, hknown, hvar, h.params_nodup,
    fun p hp => stable_accepts p r r' hstep (h.params p hp),
    fun base hbase => baseFault?_mono hstep.grows.classes (h.bases base hbase), h.members⟩

/-- Parameters that have been declared are accepted and known from then on. -/
theorem accepts_of_declareParams {owner : Text} {seen : List Text} {params : List TypeVar}
    (h : after (declareParams owner seen params) r = (.ok (), r')) :
    ∀ p ∈ params, r'.accepts p = true ∧ (r'.var? p.name).isSome = true := by
  -- By induction on the parameters; the steps of the later ones keep what the first has made.
  induction params generalizing seen r with
  | nil => nofun
  | cons p ps ih =>
    unfold declareParams at h
    split at h
    · cases h
    obtain ⟨_, r₁, hfirst, hrest⟩ := after_bind_ok.1 h
    have hpath := (leads_declareParams owner (p.name :: seen) ps).path trivial hrest
    exact List.forall_mem_cons.2
      ⟨(stable_accepts p).path hpath (accepts_of_declareVar hfirst), ih hrest⟩

/-- A class that has been declared can be declared again, unless it lists its own name as a type
parameter. -/
theorem redeclarable_of_declare (hown : c.name ∉ c.params.map (·.name))
    (h : after (declare c) r = (.ok (), r')) :
    r'.Redeclarable c ∧ r'.classes = Table.put c.name c r.classes := by
  obtain ⟨⟨hempty, hreserved, hvar⟩, r₁, hparams, hbases, hmembers, rfl⟩ := after_declare_ok.1 h
  have hnodup := (declareParams_ok hparams).1
  -- Declaring parameters only files variables, so the classes are those from before.
  have hclasses : r₁.classes = r.classes := by
    have hleft := after_declareParams c.name [] c.params r
    rw [hparams] at hleft
    have hsame : r₁ = r.withVars (r.newParams [] c.params) := hleft
    rw [hsame]
    rfl
  have hnovar : r₁.var? c.name = none := by
    have hsame : (after (declareParams c.name [] c.params) r).2.var? c.name = r.var? c.name :=
      declareParams_var? hown r
    rw [hparams] at hsame
    exact hsame.trans hvar
  have hself : (Table.put c.name c r₁.classes).find? c.name = some c :=
    Table.find?_put_self c.name c r₁.classes
  refine ⟨⟨hempty, hreserved, ?_, hnovar, hnodup, fun p hp => ?_, fun base hbase => ?_, hmembers⟩,
    by rw [hclasses]⟩
  · rw [class?, hself]
    rfl
  · -- The class takes the name of none of its parameters.
    obtain ⟨haccepts, hknown⟩ := accepts_of_declareParams hparams p hp
    have hne : p.name ≠ c.name := fun heq => hown (List.mem_map.2 ⟨p, hp, heq⟩)
    refine ⟨accepts_mono haccepts hknown ?_ fun _ => id, hknown⟩
    exact (Table.find?_put_of_ne hne c r₁.classes).trans (mayName_of_accepts haccepts).no_class
  · exact baseFault?_mono (grows_put_class c.name c r₁).classes (hbases base hbase)

/-- After a list of classes has been declared, its classes have been entered in a row, and each of
them can be declared again. -/
theorem redeclarable_of_forM (hown : ∀ c ∈ cs, c.name ∉ c.params.map (·.name))
    (h : after (cs.forM declare) r = (.ok (), r')) :
    r'.classes = enterAll cs r.classes ∧ ∀ c ∈ cs, r'.Redeclarable c := by
  -- By induction on the classes.  What makes the first one declarable again survives the
  -- declarations that follow.
  induction cs generalizing r with
  | nil =>
    cases h
    exact ⟨rfl, nofun⟩
  | cons c cs ih =>
    obtain ⟨hc, hcs⟩ := List.forall_mem_cons.1 hown
    obtain ⟨r₁, hfirst, hrest⟩ := after_forM_cons_ok.1 h
    obtain ⟨hagain, hclasses⟩ := redeclarable_of_declare hc hfirst
    obtain ⟨hentered, hall⟩ := ih hcs hrest
    -- The classes that follow keep what the first one needs.
    have hpath : ReflTransGen NameEntry r₁ r' :=
      (Leads.forM (K := fun _ => True) (stable_true _) fun d hd =>
        (leads_declare d).mono (fun _ _ => .inr (hcs d hd)) fun _ _ => id).path trivial hrest
    refine ⟨?_, List.forall_mem_cons.2 ⟨(stable_redeclarable c).path hpath hagain, hall⟩⟩
    rw [hentered, hclasses, enterAll_cons]

/-- Classes that can be declared again are entered in a row, and nothing else happens. -/
theorem after_forM_redeclarable (h : ∀ c ∈ cs, r.Redeclarable c) :
    after (cs.forM declare) r = (.ok (), { r with classes := enterAll cs r.classes }) := by
  induction cs generalizing r with
  | nil => rfl
  | cons c cs ih =>
    obtain ⟨hc, hcs⟩ := List.forall_mem_cons.1 h
    refine after_forM_cons_ok.2 ⟨_, hc.declare, ?_⟩
    have hpath := (leads_declare c).path (.inl hc.known) hc.declare
    exact ih fun d hd => (stable_redeclarable d).path hpath (hcs d hd)

/-- So declaring the list once more changes nothing. -/
theorem after_forM_again (hown : ∀ c ∈ cs, c.name ∉ c.params.map (·.name))
    (h : after (cs.forM declare) r = (.ok (), r')) :
    after (cs.forM declare) r' = (.ok (), r') := by
  obtain ⟨hclasses, hagain⟩ := redeclarable_of_forM hown h
  rw [after_forM_redeclarable hagain, hclasses, enterAll_again, ← hclasses]

end Registry

namespace Declaring

variable {α β : Type} {act : Declaring α} {cs ds : List Class} {a : α} {r r' : Registry}

/-! ## Computations that declare classes -/

/-- A computation declares some classes one after the other and does nothing else to the registry,
and it has always the same result when it succeeds. -/
def Declares (act : Declaring α) (cs : List Class) (a : α) : Prop :=
  ∀ r r' b, after act r = (.ok b, r') ↔ b = a ∧ after (cs.forM Registry.declare) r = (.ok (), r')

namespace Declares

/-- A pure computation declares nothing. -/
theorem pure (a : α) : Declares (Pure.pure a : Declaring α) [] a := by
  intro r r' b
  rw [after_pure_ok, after_forM_nil_ok]

/-- Declaring a class declares it. -/
theorem declare (c : Class) : Declares (Registry.declare c) [c] () := by
  intro r r' b
  rw [after_forM_cons_ok]
  simp only [after_forM_nil_ok]
  constructor
  · intro h
    exact ⟨trivial, r', h, rfl⟩
  · rintro ⟨-, _, h, rfl⟩
    exact h

/-- A note of what is being done declares nothing more. -/
theorem within (doing : Text) (h : Declares act cs a) :
    Declares (Declaring.within doing act) cs a := by
  intro r r' b
  rw [after_within_ok, h]

/-- Computations in a row declare what they declare one after the other. -/
theorem bind {f : α → Declaring β} {b : β} (h : Declares act cs a) (h' : Declares (f a) ds b) :
    Declares (act >>= f) (cs ++ ds) b := by
  intro r r' b'
  rw [after_bind_ok, after_forM_append_ok]
  constructor
  · rintro ⟨a', r₁, hact, hf⟩
    obtain ⟨rfl, hcs⟩ := (h r r₁ a').1 hact
    obtain ⟨rfl, hds⟩ := (h' r₁ r' b').1 hf
    exact ⟨rfl, r₁, hcs, hds⟩
  · rintro ⟨rfl, r₁, hcs, hds⟩
    exact ⟨a, r₁, (h r r₁ a).2 ⟨rfl, hcs⟩, (h' r₁ r' b').2 ⟨rfl, hds⟩⟩

/-- A loop of declarations declares its classes in their order. -/
theorem forM {γ : Type} {xs : List γ} {f : γ → Declaring Unit} {c : γ → Class}
    (h : ∀ x ∈ xs, Declares (f x) [c x] ()) : Declares (xs.forM f) (xs.map c) () := by
  induction xs with
  | nil => exact .pure ()
  | cons x xs ih =>
    obtain ⟨hx, hxs⟩ := List.forall_mem_cons.1 h
    exact hx.bind (ih hxs)

/-- After the classes have been declared, they have been entered in a row. -/
theorem classes_eq (h : Declares act cs a) (hown : ∀ c ∈ cs, c.name ∉ c.params.map (·.name)) {b : α}
    (hrun : after act r = (.ok b, r')) : r'.classes = enterAll cs r.classes :=
  (redeclarable_of_forM hown ((h r r' b).1 hrun).2).1

/-- What declares classes and does nothing else changes nothing when it is repeated. -/
theorem again (h : Declares act cs a) (hown : ∀ c ∈ cs, c.name ∉ c.params.map (·.name)) {b : α}
    (hrun : after act r = (.ok b, r')) : after act r' = (.ok b, r') := by
  obtain ⟨rfl, hdeclared⟩ := (h r r' b).1 hrun
  exact (h r' r' b).2 ⟨rfl, after_forM_again hown hdeclared⟩

end Declares

end Declaring

end TypeShape
