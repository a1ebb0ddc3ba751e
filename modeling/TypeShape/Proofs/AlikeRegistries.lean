import TypeShape.Declaration.Apply
import TypeShape.Proofs.Entries

/-!
# Registries that look alike

Two registries look alike if they have the same classes, type variables and aliases, in whatever
order these were entered.  Declarations look things up by name only, so they do the same to
registries that look alike.  Computations that can be swapped one with the next can then be run in
any order.

## Key results

- `Declaring.respects_apply`: the steps of a declaration file cannot tell alike registries apart
- `Declaring.exists_alike_of_perm`: a list of computations that can be swapped may be permuted
-/

namespace TypeShape

namespace Registry

/-- Two registries have the same classes, type variables and aliases. -/
structure Alike (r r' : Registry) : Prop where
  classes : ∀ n, r.class? n = r'.class? n
  vars : ∀ n, r.var? n = r'.var? n
  aliases : ∀ n, r.alias? n = r'.alias? n

namespace Alike

variable {r r' : Registry}

/-- A registry looks like itself. -/
theorem refl (r : Registry) : r.Alike r := ⟨fun _ => rfl, fun _ => rfl, fun _ => rfl⟩

/-- Looking alike is symmetric. -/
theorem symm (h : r.Alike r') : r'.Alike r :=
  ⟨fun n => (h.classes n).symm, fun n => (h.vars n).symm, fun n => (h.aliases n).symm⟩

/-- Looking alike is transitive. -/
theorem trans {r'' : Registry} (h : r.Alike r') (h' : r'.Alike r'') : r.Alike r'' :=
  ⟨fun n => (h.classes n).trans (h'.classes n), fun n => (h.vars n).trans (h'.vars n),
    fun n => (h.aliases n).trans (h'.aliases n)⟩

/-- The same names have classes in registries that look alike. -/
theorem has_class (h : r.Alike r') (n : Text) : r.classes.has n = r'.classes.has n :=
  congrArg Option.isSome (h.classes n)

/-- The same names have type variables in registries that look alike. -/
theorem has_var (h : r.Alike r') (n : Text) : r.vars.has n = r'.vars.has n :=
  congrArg Option.isSome (h.vars n)

/-- Registries that look alike give a name in a type expression the same meaning. -/
theorem lookup (h : r.Alike r') : r.lookup = r'.lookup := by
  funext n
  unfold Registry.lookup
  rw [h.classes n, h.vars n, h.aliases n]

/-- A source is read in the same way by registries that look alike. -/
theorem parse (h : r.Alike r') (source : Text) : r.parse source = r'.parse source := by
  unfold Registry.parse
  rw [h.lookup]

/-- Registries that look alike find the same fault in a base, or none. -/
theorem baseFault? (h : r.Alike r') (owner : Text) (base : TypeExpr) :
    r.baseFault? owner base = r'.baseFault? owner base := by
  unfold Registry.baseFault?
  split
  · rfl
  · rw [h.has_class]

/-- Entering a class under one name keeps two registries alike. -/
theorem put_class (h : r.Alike r') (name : Text) (c : Class) :
    Alike { r with classes := Table.put name c r.classes }
      { r' with classes := Table.put name c r'.classes } := by
  refine ⟨fun n => ?_, h.vars, h.aliases⟩
  have hn := h.classes n
  unfold class? at hn ⊢
  rw [Table.find?_put, Table.find?_put, hn]

/-- Entering a type variable under one name keeps two registries alike. -/
theorem put_var (h : r.Alike r') (name : Text) (v : TypeVar) :
    Alike { r with vars := Table.put name v r.vars }
      { r' with vars := Table.put name v r'.vars } := by
  refine ⟨h.classes, fun n => ?_, h.aliases⟩
  have hn := h.vars n
  unfold var? at hn ⊢
  rw [Table.find?_put, Table.find?_put, hn]

/-- Entering an alias under one name keeps two registries alike. -/
theorem put_alias (h : r.Alike r') (name : Text) (t : TypeExpr) :
    Alike { r with aliases := Table.put name t r.aliases }
      { r' with aliases := Table.put name t r'.aliases } := by
  refine ⟨h.classes, h.vars, fun n => ?_⟩
  have hn := h.aliases n
  unfold alias? at hn ⊢
  rw [Table.find?_put, Table.find?_put, hn]

end Alike

end Registry

namespace Declaring

open Registry

variable {α β : Type}

/-! ## Computations that cannot tell alike registries apart -/

/-- The same outcome, with registries that look alike. -/
def AlikeAfter (p q : Except Error α × Registry) : Prop :=
  p.1 = q.1 ∧ p.2.Alike q.2

/-- Run on registries that look alike, a computation has the same outcome, and leaves registries
that look alike. -/
def Respects (act : Declaring α) : Prop :=
  ∀ r r', r.Alike r' → AlikeAfter (after act r) (after act r')

namespace Respects

/-- A computation that only gives a value leaves the registry alone. -/
theorem pure (a : α) : Respects (Pure.pure a : Declaring α) :=
  fun _ _ h => ⟨rfl, h⟩

/-- A computation that only fails leaves the registry alone. -/
theorem throw (e : Error) : Respects (MonadExcept.throw e : Declaring α) :=
  fun _ _ h => ⟨rfl, h⟩

/-- Sequencing keeps the property: the second computation meets registries that look alike again. -/
theorem bind {act : Declaring α} {f : α → Declaring β} (h : Respects act)
    (h' : ∀ a, Respects (f a)) : Respects (act >>= f) := by
  intro r r' halike
  obtain ⟨houtcome, hleft⟩ := h r r' halike
  rw [after_bind, after_bind]
  rcases hr : after act r with ⟨outcome, r₁⟩
  rcases hr' : after act r' with ⟨outcome', r₁'⟩
  rw [hr, hr'] at houtcome hleft
  obtain rfl : outcome = outcome' := houtcome
  cases outcome with
  | error e => exact ⟨rfl, hleft⟩
  | ok a => exact h' a r₁ r₁' hleft

/-- Adding to the message of an error what was being done leaves the registry alone. -/
theorem within {act : Declaring α} (doing : Text) (h : Respects act) :
    Respects (Declaring.within doing act) := by
  intro r r' halike
  obtain ⟨houtcome, hleft⟩ := h r r' halike
  rw [after_within, after_within]
  rcases hr : after act r with ⟨outcome, r₁⟩
  rcases hr' : after act r' with ⟨outcome', r₁'⟩
  rw [hr, hr'] at houtcome hleft
  obtain rfl : outcome = outcome' := houtcome
  cases outcome <;> exact ⟨rfl, hleft⟩

/-- A loop respects likeness if its body does for every member of the list. -/
theorem forM {xs : List α} {f : α → Declaring Unit} (h : ∀ x ∈ xs, Respects (f x)) :
    Respects (xs.forM f) := by
  induction xs with
  | nil => exact pure ()
  | cons x xs ih =>
    obtain ⟨hx, hxs⟩ := List.forall_mem_cons.1 h
    exact bind hx fun _ => ih hxs

/-- A loop that collects results respects likeness if its body does for every member of the list. -/
theorem mapM {xs : List α} {f : α → Declaring β} (h : ∀ x ∈ xs, Respects (f x)) :
    Respects (xs.mapM f) := by
  induction xs with
  | nil => exact pure []
  | cons x xs ih =>
    obtain ⟨hx, hxs⟩ := List.forall_mem_cons.1 h
    rw [List.mapM_cons]
    exact bind hx fun _ => bind (ih hxs) fun _ => pure _

/-- What succeeds on a registry succeeds on those that look like it. -/
theorem exists_ok {act : Declaring α} (h : Respects act) {r r' r₁ : Registry} {a : α}
    (halike : r.Alike r') (hrun : after act r = (.ok a, r₁)) :
    ∃ r₁', after act r' = (.ok a, r₁') ∧ r₁.Alike r₁' := by
  obtain ⟨houtcome, hleft⟩ := h r r' halike
  rw [hrun] at houtcome hleft
  exact ⟨(after act r').2, Prod.ext houtcome.symm rfl, hleft⟩

end Respects

/-- Declaring a type variable looks at classes, type variables and aliases by name only. -/
theorem respects_declareVar (v : TypeVar) : Respects (declareVar v) := by
  intro r r' h
  unfold declareVar
  rw [after_get_bind, after_get_bind, h.has_class, h.vars]
  -- A name that is empty, reserved or that of a class is refused, and so is a variable that is
  -- declared in another way already: each check fails in both registries or in none.
  split
  · exact ⟨rfl, h⟩
  split
  · exact ⟨rfl, h⟩
  split
  · exact ⟨rfl, h⟩
  cases r'.var? v.name with
  | none => exact ⟨rfl, h.put_var v.name v⟩
  | some existing =>
    dsimp only
    split <;> exact ⟨rfl, h⟩

/-- Declaring the parameters of a class respects likeness, since declaring one variable does. -/
theorem respects_declareParams (owner : Text) (seen : List Text) (params : List TypeVar) :
    Respects (declareParams owner seen params) := by
  induction params generalizing seen with
  | nil => exact .pure ()
  | cons p ps ih =>
    unfold declareParams
    split
    · exact .throw _
    · exact .bind (respects_declareVar p) fun _ => ih _

/-- Declaring a class respects likeness, also when it fails after its parameters were entered. -/
theorem respects_declare (c : Class) : Respects (declare c) := by
  intro r r' h
  unfold declare
  rw [after_get_bind, after_get_bind, h.has_var]
  split
  · exact ⟨rfl, h⟩
  split
  · exact ⟨rfl, h⟩
  split
  · exact ⟨rfl, h⟩
  -- The checks after the parameters meet registries that look alike again.
  refine Respects.bind (respects_declareParams c.name [] c.params) (fun _ s s' hs => ?_) r r' h
  rw [after_get_bind, after_get_bind, funext (hs.baseFault? c.name)]
  cases c.bases.findSome? (s'.baseFault? c.name) with
  | some fault => exact ⟨rfl, hs⟩
  | none =>
    dsimp only
    cases firstRepeated [] (c.members.map (·.name)) with
    | some name => exact ⟨rfl, hs⟩
    | none => exact ⟨rfl, hs.put_class c.name c⟩

/-- Declaring an alias enters one name. -/
theorem respects_declareAlias (name : Text) (t : TypeExpr) : Respects (declareAlias name t) := by
  intro r r' h
  unfold declareAlias
  rw [after_get_bind, after_get_bind, h.has_class, h.has_var]
  split
  · exact ⟨rfl, h⟩
  split
  · exact ⟨rfl, h⟩
  split
  · exact ⟨rfl, h⟩
  · exact ⟨rfl, h.put_alias name t⟩

/-- Reading a source does not change the registry. -/
theorem respects_parseType (source : Text) : Respects (DeclarationFile.parseType source) := by
  intro r r' h
  unfold DeclarationFile.parseType
  rw [after_get_bind, after_get_bind, h.parse]
  cases r'.parse source <;> exact ⟨rfl, h⟩

/-- Entering the class of a declaration file respects likeness. -/
theorem respects_enterClass (f : DeclarationFile) (c : ClassEntry) : Respects (f.enterClass c) := by
  intro r r' h
  unfold DeclarationFile.enterClass
  rw [after_get_bind, after_get_bind, h.has_class]
  dsimp only
  split
  · exact ⟨rfl, h⟩
  · exact (respects_declare _).within _ r r' h

/-- The step of a declaration file that declares a variable respects likeness. -/
theorem respects_applyVar (f : DeclarationFile) (v : VarEntry) : Respects (f.applyVar v) := by
  rw [DeclarationFile.applyVar_eq]
  refine .bind ?_ fun bound => .bind ?_ fun constraints => ?_
  · split
    · exact .pure _
    · exact (respects_parseType v.bound).within _
  · exact .mapM fun source _ => (respects_parseType source).within _
  · exact (respects_declareVar _).within _

/-- Finding the declaration of a parameter respects likeness. -/
theorem respects_parameter (doing name : Text) :
    Respects (DeclarationFile.parameter doing name) := by
  intro r r' h
  unfold DeclarationFile.parameter
  rw [after_get_bind, after_get_bind, h.vars]
  cases r'.var? name with
  | some v => exact ⟨rfl, h⟩
  | none => exact Respects.bind ((respects_declareVar _).within _) (fun _ => .pure _) r r' h

/-- The step of a declaration file that declares a class respects likeness. -/
theorem respects_applyClass (f : DeclarationFile) (c : ClassEntry) :
    Respects (f.applyClass c) := by
  unfold DeclarationFile.applyClass
  refine .bind ?_ fun params => .bind ?_ fun bases => .bind ?_ fun members => ?_
  · exact .mapM fun name _ => respects_parameter _ name
  · exact .mapM fun source _ => (respects_parseType _).within _
  · exact .mapM fun m _ => .bind ((respects_parseType _).within _) fun _ => .pure _
  · exact (respects_declare _).within _

/-- The step of a declaration file that declares an alias respects likeness. -/
theorem respects_applyAlias (f : DeclarationFile) (a : AliasEntry) :
    Respects (f.applyAlias a) :=
  Respects.within _ (.bind (respects_parseType _) fun t => respects_declareAlias a.name t)

/-! ## Permuting computations -/

/-- Two computations that succeed one after the other succeed in the other order as well, and leave
a registry that looks alike. -/
def Swaps (I : Registry → Prop) (act act' : Declaring Unit) : Prop :=
  ∀ r r₁ r₂, I r → after act r = (.ok (), r₁) → after act' r₁ = (.ok (), r₂) →
    ∃ r₁' r₂', after act' r = (.ok (), r₁') ∧ after act r₁' = (.ok (), r₂') ∧ r₂.Alike r₂'

/-- Where any two computations of a list can be swapped, under a condition that all of them keep,
the list may be permuted. -/
theorem exists_alike_of_perm {I : Registry → Prop} {f : α → Declaring Unit} {xs ys : List α}
    (hrespects : ∀ x, Respects (f x))
    (hkeeps : ∀ x ∈ xs, ∀ r r', I r → after (f x) r = (.ok (), r') → I r')
    (hswaps : xs.Pairwise fun x y => Swaps I (f x) (f y) ∧ Swaps I (f y) (f x))
    (hperm : xs.Perm ys) {r r' : Registry} (hr : I r) (hrun : after (xs.forM f) r = (.ok (), r')) :
    ∃ r'', after (ys.forM f) r = (.ok (), r'') ∧ r'.Alike r'' := by
  -- The induction is on the permutation; the registry at the start changes with it, as the second
  -- computation runs where the first one ended.
  induction hperm generalizing r r' with
  | nil => exact ⟨r', hrun, .refl r'⟩
  | cons x _ ih =>
    obtain ⟨hx, hxs⟩ := List.forall_mem_cons.1 hkeeps
    obtain ⟨r₁, hfirst, hrest⟩ := after_forM_cons_ok.1 hrun
    obtain ⟨r'', hrest', halike⟩ := ih hxs (List.pairwise_cons.1 hswaps).2
      (hx r r₁ hr hfirst) hrest
    exact ⟨r'', after_forM_cons_ok.2 ⟨r₁, hfirst, hrest'⟩, halike⟩
  | swap x y zs =>
    obtain ⟨r₁, hy, hrest⟩ := after_forM_cons_ok.1 hrun
    obtain ⟨r₂, hx, hrest⟩ := after_forM_cons_ok.1 hrest
    -- Two neighbours are swapped from one registry, so what follows them meets alike registries.
    obtain ⟨hyx, -⟩ := (List.pairwise_cons.1 hswaps).1 x List.mem_cons_self
    obtain ⟨r₁', r₂', hx', hy', halike⟩ := hyx r r₁ r₂ hr hy hx
    -- The rest of the list cannot tell the two registries apart.
    obtain ⟨r'', hrest', halike'⟩ :=
      (Respects.forM fun z _ => hrespects z).exists_ok halike hrest
    exact ⟨r'', after_forM_cons_ok.2 ⟨r₁', hx', after_forM_cons_ok.2 ⟨r₂', hy', hrest'⟩⟩, halike'⟩
  | trans hfirst _ ih ih' =>
    -- The conditions are on the members of a list, so they hold of the list in between.
    obtain ⟨s, hs, halike⟩ := ih hkeeps hswaps hr hrun
    have hkeeps' := fun x hx => hkeeps x (hfirst.mem_iff.2 hx)
    have hswaps' := (hfirst.pairwise_iff fun h => h.symm).1 hswaps
    obtain ⟨r'', hr'', halike'⟩ := ih' hkeeps' hswaps' hr hs
    exact ⟨r'', hr'', halike.trans halike'⟩

end Declaring

end TypeShape
