import TypeShape.Proofs.AlikeRegistries
import TypeShape.Proofs.AppliedClasses
import TypeShape.Proofs.Histories
import TypeShape.Proofs.Mentions

/-!
# The order of the classes in a declaration file

Before a class of a file is read, all classes of the file are known by name and all its variables
are declared.  So what the entry of a class denotes depends on the classes read before it only
through their type parameters, which become variables as they are read.  A class that does not
borrow such a parameter denotes the same wherever it stands.

## Key results

- `Registry.denotes_enter`: what an entry denotes does not depend on the classes entered before
- `DeclarationFile.swaps_applyClass`, `DeclarationFile.swaps_enterClass`: two classes can be swapped
- `DeclarationFile.apply_perm`: the classes of a file may stand in any order
-/

namespace TypeShape

open Declaring Registry

/-- The types that the entry of a class is written with. -/
def ClassEntry.sources (c : ClassEntry) : List Text :=
  c.bases ++ c.members.map (·.type)

namespace Registry

variable {r r' : Registry} {c d : ClassEntry} {C D : Class} {cs : List ClassEntry}

/-! ## What an entry denotes where others have been entered -/

/-- Entering a class changes what is found under its name, and under no other. -/
theorem class?_enter (r : Registry) (c : ClassEntry) (C : Class) (n : Text) :
    (r.enter c C).class? n = if n = c.name then some C else r.class? n :=
  Table.find?_put c.name n C r.classes

/-- Entering a class files its type parameters as variables. -/
theorem var?_enter (r : Registry) (c : ClassEntry) (C : Class) (n : Text) :
    (r.enter c C).var? n = if n ∈ c.params then some (r.paramOf n) else r.var? n :=
  r.var?_withParams c.params n

/-- Entering a class changes no alias. -/
theorem alias?_enter (r : Registry) (c : ClassEntry) (C : Class) (n : Text) :
    (r.enter c C).alias? n = r.alias? n :=
  congrArg (Table.find? · n) (r.aliases_withParams c.params)

/-- Entering a class does not change what a name becomes as a type parameter. -/
theorem paramOf_enter (r : Registry) (c : ClassEntry) (C : Class) (n : Text) :
    (r.enter c C).paramOf n = r.paramOf n := by
  rw [paramOf, var?_enter]
  split <;> rfl

/-- Where the class is known already, no name becomes a class. -/
theorem isSome_class?_enter (h : (r.class? c.name).isSome = true) (C : Class) (n : Text) :
    ((r.enter c C).class? n).isSome = (r.class? n).isSome := by
  rw [class?_enter]
  split
  · rename_i hn
    rw [hn, h]
    rfl
  · rfl

/-- What a name is depends on the three tables at this name only. -/
theorem lookup_congr {n : Text} (hclass : (r.class? n).isSome = (r'.class? n).isSome)
    (hvar : r.var? n = r'.var? n) (halias : r.alias? n = r'.alias? n) :
    r.lookup n = r'.lookup n := by
  unfold lookup
  rw [hclass, hvar, halias]

/-- What an entry denotes depends on which names are classes and on what its sources are read as. -/
theorem Denotes.congr (h : r.Denotes d D) (hclass : ∀ n, (r'.class? n).isSome = (r.class? n).isSome)
    (hparam : ∀ n, r'.paramOf n = r.paramOf n) (hvar : r'.var? d.name = r.var? d.name)
    (hparse : ∀ source ∈ d.sources, ∀ t, (r.withParams d.params).parse source = .ok t →
      (r'.withParams d.params).parse source = .ok t) : r'.Denotes d D where
  name := h.name
  kind := h.kind
  nonempty := h.nonempty
  unreserved := h.unreserved
  no_param := h.no_param
  no_var := hvar.trans h.no_var
  params := h.params.trans (List.map_congr_left fun n _ => (hparam n).symm)
  params_nodup := h.params_nodup
  params_may := fun n hn => (mayName_congr (hclass n)).2 (h.params_may n hn)
  -- The sources of bases and members are among those that are read alike.
  bases := by
    have hbases := (List.forall₂_and_left _ _).2 ⟨fun _ hmem => hmem, h.bases⟩
    exact hbases.imp fun source t ⟨hmem, ht⟩ => hparse source (List.mem_append_left _ hmem) t ht
  bases_known := fun base hbase => (baseFault?_congr hclass _ _).trans (h.bases_known base hbase)
  members := by
    have hmembers := (List.forall₂_and_left _ _).2 ⟨fun _ hmem => hmem, h.members⟩
    refine hmembers.imp fun m M ⟨hmem, hM, hname⟩ => ⟨?_, hname⟩
    exact hparse m.type (List.mem_append_right _ (List.mem_map_of_mem hmem)) M.type hM
  members_distinct := h.members_distinct

/-- The classes of a file are known, and none of them mentions a type parameter of another one that
is not known. -/
structure Placed (cs : List ClassEntry) (r : Registry) : Prop where
  filed : r.VarsFiled
  known : ∀ c ∈ cs, (r.class? c.name).isSome = true
  unborrowed : ∀ c ∈ cs, ∀ source ∈ c.sources, ∀ n, TypeExpr.Mentions source n → n ∉ c.params →
    (∃ d ∈ cs, n ∈ d.params) → (r.class? n).isSome = true ∨ (r.var? n).isSome = true

/-- Entering a class files variables under their own names. -/
theorem VarsFiled.enter (h : r.VarsFiled) (c : ClassEntry) (C : Class) : (r.enter c C).VarsFiled := by
  intro n v hv
  rw [var?_enter] at hv
  split at hv
  · cases hv
    exact h.name_paramOf n
  · exact h n v hv

/-- Entering a class of the file leaves its classes placed. -/
theorem Placed.enter (h : Placed cs r) (hc : c ∈ cs) (C : Class) : Placed cs (r.enter c C) := by
  have hclass := isSome_class?_enter (h.known c hc) C
  refine ⟨h.filed.enter c C, fun d hd => ?_,
    fun d hd source hsource n hmentions hparam hother => ?_⟩
  · rw [hclass]
    exact h.known d hd
  · rw [hclass, var?_enter]
    refine (h.unborrowed d hd source hsource n hmentions hparam hother).imp_right fun hvar => ?_
    split
    · rfl
    · exact hvar

/-- A class is read in the same way where another one has been entered. -/
theorem lookup_enter (h : Placed cs r) (hc : c ∈ cs) (hd : d ∈ cs) (hC : r.Denotes c C)
    {source : Text} (hsource : source ∈ d.sources) {n : Text}
    (hn : n ∉ c.params ∨ TypeExpr.Mentions source n) :
    ((r.enter c C).withParams d.params).lookup n = (r.withParams d.params).lookup n := by
  -- Three things make a lookup: which names are classes, which variables, and which aliases.
  refine lookup_congr ?_ ?_ ?_
  · rw [class?, classes_withParams, class?, classes_withParams]
    exact isSome_class?_enter (h.known c hc) C n
  · rw [var?_withParams, var?_withParams, paramOf_enter, var?_enter]
    split
    · rfl
    rename_i hown
    split
    · -- A parameter of the other class that is mentioned is a variable already.
      rename_i hparam
      have hmentions := hn.resolve_left fun hnot => hnot hparam
      obtain hclass | hvar := h.unborrowed d hd source hsource n hmentions hown ⟨c, hc, hparam⟩
      · rw [(hC.params_may n hparam).no_class] at hclass
        cases hclass
      · obtain ⟨v, hv⟩ := Option.isSome_iff_exists.1 hvar
        rw [paramOf, hv]
        rfl
    · rfl
  · rw [alias?, aliases_withParams, alias?, aliases_withParams]
    exact r.alias?_enter c C n

/-- What an entry denotes does not depend on the classes entered before. -/
theorem denotes_enter (h : Placed cs r) (hc : c ∈ cs) (hd : d ∈ cs) (hC : r.Denotes c C) :
    (r.enter c C).Denotes d D ↔ r.Denotes d D := by
  have hclass := isSome_class?_enter (h.known c hc) C
  -- A type parameter is no class, so it is not the name of the other class.
  have hvar : (r.enter c C).var? d.name = r.var? d.name := by
    have hnot : d.name ∉ c.params := by
      intro hmem
      have hknown := h.known d hd
      rw [(hC.params_may d.name hmem).no_class] at hknown
      cases hknown
    rw [var?_enter, if_neg hnot]
  constructor
  · intro hD
    refine hD.congr (fun n => (hclass n).symm) (fun n => (r.paramOf_enter c C n).symm) hvar.symm
      fun source hsource t ht => ?_
    exact TypeExpr.parse_congr (fun n hn => lookup_enter h hc hd hC hsource (.inl hn))
      (fun n hn => lookup_enter h hc hd hC hsource (.inr hn)) ht
  · intro hD
    refine hD.congr hclass (r.paramOf_enter c C) hvar fun source hsource t ht => ?_
    exact TypeExpr.parse_congr (fun n hn => (lookup_enter h hc hd hC hsource (.inl hn)).symm)
      (fun n hn => (lookup_enter h hc hd hC hsource (.inr hn)).symm) ht

/-- Two classes of different names may be entered in either order. -/
theorem enter_comm (r : Registry) (hne : c.name ≠ d.name) (C D : Class) :
    ((r.enter c C).enter d D).Alike ((r.enter d D).enter c C) := by
  refine ⟨fun n => ?_, fun n => ?_, fun n => ?_⟩
  · exact Table.find?_put_comm hne.symm D C r.classes n
  · rw [var?_enter, var?_enter, var?_enter, var?_enter, paramOf_enter, paramOf_enter]
    by_cases hn : n ∈ d.params <;> simp [hn]
  · rw [alias?_enter, alias?_enter, alias?_enter, alias?_enter]

end Registry

namespace DeclarationFile

variable {r r' : Registry} {c d : ClassEntry} {cs : List ClassEntry}

/-- Reading two classes can be swapped once all classes are known by name. -/
theorem swaps_applyClass (f : DeclarationFile) (hc : c ∈ cs) (hd : d ∈ cs)
    (hne : c.name ≠ d.name) : Swaps (Placed cs) (f.applyClass c) (f.applyClass d) := by
  intro r r₁ r₂ hr hfirst hsecond
  obtain ⟨C, hC, rfl⟩ := (after_applyClass_ok hr.filed f c).1 hfirst
  obtain ⟨D, hD, rfl⟩ := (after_applyClass_ok (hr.enter hc C).filed f d).1 hsecond
  have hD := (denotes_enter hr hc hd hC).1 hD
  refine ⟨r.enter d D, (r.enter d D).enter c C, (after_applyClass_ok hr.filed f d).2 ⟨D, hD, rfl⟩,
    ?_, r.enter_comm hne C D⟩
  exact (after_applyClass_ok (hr.enter hd D).filed f c).2
    ⟨C, (denotes_enter hr hd hc hD).2 hC, rfl⟩

/-- Two classes can be swapped when they are entered by name. -/
theorem swaps_enterClass (f : DeclarationFile) (hne : c.name ≠ d.name) :
    Swaps (fun _ => True) (f.enterClass c) (f.enterClass d) := by
  have hput (a b : ClassEntry) (hab : a.name ≠ b.name) (r : Registry) :
      class? { r with classes := Table.put a.name (placeholder a) r.classes } b.name =
        r.class? b.name :=
    Table.find?_put_of_ne hab.symm (placeholder a) r.classes
  intro r r₁ r₂ _ hfirst hsecond
  cases hc : r.class? c.name with
  | some C =>
    -- The first class is known, and the second one does not change that.
    have hknown : (r.class? c.name).isSome = true := by rw [hc]; rfl
    rw [enterClass_known hknown] at hfirst
    cases hfirst
    refine ⟨r₂, r₂, hsecond, enterClass_known ?_, .refl r₂⟩
    have hpath := (f.leads_enterClass d).path trivial hsecond
    exact (grows_of_path (fun _ _ => NameEntry.grows) hpath).classes c.name hknown
  | none =>
    obtain ⟨hmayc, rfl⟩ := (after_enterClass_new hc).1 hfirst
    cases hd : r.class? d.name with
    | some D =>
      have hknown : (r.class? d.name).isSome = true := by rw [hd]; rfl
      rw [enterClass_known (by rw [hput c d hne]; exact hknown)] at hsecond
      cases hsecond
      exact ⟨r, _, enterClass_known hknown, hfirst, .refl _⟩
    | none =>
      -- Both are new, and whether a class may be entered depends on its own name only.
      obtain ⟨hmayd, rfl⟩ := (after_enterClass_new ((hput c d hne r).trans hd)).1 hsecond
      refine ⟨_, _, (after_enterClass_new hd).2 ⟨hmayd, rfl⟩,
        (after_enterClass_new ((hput d c hne.symm r).trans hc)).2 ⟨hmayc, rfl⟩, ?_⟩
      exact ⟨Table.find?_put_comm hne.symm _ _ r.classes, fun _ => rfl, fun _ => rfl⟩

/-! ## Files -/

/-- A name that is claimed was free, and stays claimed for those that follow. -/
theorem nodup_of_claim {part name : Text} {names : List Text} {taken next : Table Text}
    (hclaim : claim part name taken = .ok next) (hnodup : names.Nodup)
    (hfree : ∀ n ∈ names, next.find? n = none) :
    (name :: names).Nodup ∧ ∀ n ∈ name :: names, taken.find? n = none := by
  -- Claiming a name fails if it is taken, so here it was free before and is taken behind.
  unfold claim at hclaim
  split at hclaim
  · cases hclaim
  rename_i hnone
  cases hclaim
  refine ⟨List.nodup_cons.2 ⟨fun hmem => ?_, hnodup⟩, List.forall_mem_cons.2 ⟨hnone, ?_⟩⟩
  · have hfree := hfree name hmem
    rw [Table.find?_put_self] at hfree
    cases hfree
  · intro n hn
    have hfree := hfree n hn
    rw [Table.find?_put] at hfree
    split at hfree
    · cases hfree
    · exact hfree

/-- The classes of a file that has been checked have different names. -/
theorem names_of_checkClasses {i : Nat} {cs : List ClassEntry} {taken taken' : Table Text}
    (h : checkClasses i cs taken = .ok taken') :
    (cs.map (·.name)).Nodup ∧ ∀ n ∈ cs.map (·.name), taken.find? n = none := by
  -- By induction on the classes: each one claims its name in the table that the next ones are
  -- checked against.
  induction cs generalizing i taken with
  | nil => simp
  | cons c cs ih =>
    simp only [checkClasses] at h
    split at h
    · cases h
    split at h
    · cases h
    obtain ⟨next, hclaim, h⟩ := bind_eq_ok.1 h
    obtain ⟨-, -, h⟩ := bind_eq_ok.1 h
    obtain ⟨hnodup, hfree⟩ := ih h
    exact nodup_of_claim hclaim hnodup hfree

/-- The aliases of a file that has been checked have different names. -/
theorem names_of_checkAliases {i : Nat} {as : List AliasEntry} {taken taken' : Table Text}
    (h : checkAliases i as taken = .ok taken') :
    (as.map (·.name)).Nodup ∧ ∀ n ∈ as.map (·.name), taken.find? n = none := by
  -- By induction on the aliases; each one claims its name from those that follow.
  induction as generalizing i taken with
  | nil => simp
  | cons a as ih =>
    simp only [checkAliases] at h
    split at h
    · cases h
    split at h
    · cases h
    obtain ⟨next, hclaim, h⟩ := bind_eq_ok.1 h
    obtain ⟨hnodup, hfree⟩ := ih h
    exact nodup_of_claim hclaim hnodup hfree

/-- A file that has been checked has passed the check of each of its parts. -/
theorem parts_of_check {f : DeclarationFile} (h : f.check = .ok ()) :
    ∃ vars classes aliases, checkVars 0 f.vars [] = .ok vars ∧
      checkClasses 0 f.classes vars = .ok classes ∧ checkAliases 0 f.aliases classes = .ok aliases := by
  unfold check at h
  dsimp only at h
  split at h
  · rename_i aliases hall
    obtain ⟨vars, hvars, hall⟩ := bind_eq_ok.1 hall
    obtain ⟨classes, hclasses, haliases⟩ := bind_eq_ok.1 hall
    exact ⟨vars, classes, aliases, hvars, hclasses, haliases⟩
  · cases h

/-- So the classes of a file that has been checked have different names. -/
theorem nodup_of_check {f : DeclarationFile} (h : f.check = .ok ()) :
    (f.classes.map (·.name)).Nodup := by
  obtain ⟨_, _, _, -, hclasses, -⟩ := parts_of_check h
  exact (names_of_checkClasses hclasses).1

/-- So do its aliases. -/
theorem nodup_aliases_of_check {f : DeclarationFile} (h : f.check = .ok ()) :
    (f.aliases.map (·.name)).Nodup := by
  obtain ⟨_, _, _, -, -, haliases⟩ := parts_of_check h
  exact (names_of_checkAliases haliases).1

/-- A class of a file borrows a type parameter: it mentions a name that is a type parameter of a
class of the file, but not one of its own, no variable or class of the file, and no variable or
class of the registry. -/
structure Borrows (f : DeclarationFile) (r : Registry) (c : ClassEntry) (n : Text) : Prop where
  mentioned : ∃ source ∈ c.sources, TypeExpr.Mentions source n
  not_own : n ∉ c.params
  of_class : ∃ d ∈ f.classes, n ∈ d.params
  not_in_file : n ∉ f.vars.map (·.name) ∧ n ∉ f.classes.map (·.name)
  not_known : r.var? n = none ∧ r.class? n = none

/-- A variable of the file is declared once it has been read. -/
theorem var?_of_applyVar {f : DeclarationFile} {v : VarEntry}
    (h : after (f.applyVar v) r = (.ok (), r')) : (r'.var? v.name).isSome = true := by
  rw [applyVar_eq] at h
  obtain ⟨bound, r₁, -, h⟩ := after_bind_ok.1 h
  obtain ⟨constraints, r₂, -, h⟩ := after_bind_ok.1 h
  exact var?_of_declareVar (after_within_ok.1 h)

/-- Once the classes of a file are known by name and its variables are declared, its classes can be
read in any order. -/
theorem placed_of_phases {f : DeclarationFile} (hr : r.VarsFiled)
    (hborrows : ∀ c ∈ f.classes, ∀ n, ¬ f.Borrows r c n) {r₁ r₂ : Registry}
    (hclasses : after (f.classes.forM f.enterClass) r = (.ok (), r₁))
    (hvars : after (f.vars.forM f.applyVar) r₁ = (.ok (), r₂)) : Placed f.classes r₂ := by
  -- Both phases are paths of entries, along which nothing that is known is lost.
  have hpath₁ := (Leads.forM (stable_true _) fun c _ => f.leads_enterClass c).path trivial hclasses
  have hpath₂ := (Leads.forM (stable_true _) fun v _ => f.leads_applyVar v).path trivial hvars
  have hpath := hpath₁.trans hpath₂
  have hgrows := grows_of_path (fun _ _ => NameEntry.grows) hpath
  have hknown : r₂.Knows (f.classes.map (·.name)) :=
    (stable_knows _).path hpath₂ (f.knows_of_enterClasses hclasses)
  have hdeclared : ∀ v ∈ f.vars, (r₂.var? v.name).isSome = true :=
    Leads.of_forM (P := fun v r => (r.var? v.name).isSome = true)
      (fun v _ => f.leads_applyVar v) (fun v _ _ _ hstep => hstep.grows.known)
      (fun _ _ _ _ => var?_of_applyVar) hvars
  refine ⟨?_, fun c hc => hknown c.name (List.mem_map_of_mem hc), ?_⟩
  · have hstable : Stable VarsFiled NameEntry := fun _ _ hstep => (Entry.name hstep).varsFiled
    exact hstable.path hpath hr
  -- A name that is mentioned and belongs to others is known by now, as the file borrows none.
  · intro c hc source hsource n hmentions hown hother
    by_contra hnot
    obtain ⟨hclass, hvar⟩ := not_or.1 hnot
    refine hborrows c hc n ⟨⟨source, hsource, hmentions⟩, hown, hother, ⟨?_, ?_⟩, ?_, ?_⟩
    · intro hmem
      obtain ⟨v, hv, rfl⟩ := List.mem_map.1 hmem
      exact hvar (hdeclared v hv)
    · exact fun hmem => hclass (hknown n hmem)
    · exact Option.not_isSome_iff_eq_none.1 fun h => hvar (hgrows.known h)
    · exact Option.not_isSome_iff_eq_none.1 fun h => hclass (hgrows.classes n h)

/-- If the classes of a file stand in another order, the file is still applied with success, and
leaves alike registries. -/
theorem exists_apply_of_perm {f g : DeclarationFile} (hperm : f.classes.Perm g.classes)
    (hrest : g = { f with classes := g.classes }) (hnodup : (f.classes.map (·.name)).Nodup)
    (hr : r.VarsFiled) (hborrows : ∀ c ∈ f.classes, ∀ n, ¬ f.Borrows r c n)
    (hrun : after f.apply r = (.ok (), r')) :
    ∃ r'', after g.apply r = (.ok (), r'') ∧ r'.Alike r'' := by
  -- The phases of a file one by one: each is brought to the other order, and the next one is run in
  -- the registry that this leaves.
  have hnames : f.classes.Pairwise fun c d => c.name ≠ d.name := List.pairwise_map.1 hnodup
  unfold apply at hrun
  obtain ⟨_, r₁, hclasses, hrun⟩ := after_bind_ok.1 hrun
  obtain ⟨_, r₂, hvars, hrun⟩ := after_bind_ok.1 hrun
  obtain ⟨_, r₃, hread, haliases⟩ := after_bind_ok.1 hrun
  have hplaced := placed_of_phases hr hborrows hclasses hvars
  -- The classes by name, in the other order.
  obtain ⟨s₁, hs₁, halike₁⟩ := exists_alike_of_perm (respects_enterClass f)
    (fun _ _ _ _ _ _ => trivial)
    (hnames.imp fun hne => ⟨f.swaps_enterClass hne, f.swaps_enterClass hne.symm⟩) hperm trivial
    hclasses
  -- The variables, where the classes have been entered in the other order.
  obtain ⟨s₂, hs₂, halike₂⟩ :=
    (Respects.forM fun v _ => respects_applyVar f v).exists_ok halike₁ hvars
  -- The classes in the other order, first where the variables have been declared as before.
  have hswaps : f.classes.Pairwise fun c d =>
      Swaps (Placed f.classes) (f.applyClass c) (f.applyClass d) ∧
        Swaps (Placed f.classes) (f.applyClass d) (f.applyClass c) :=
    hnames.imp_of_mem fun hc hd hne =>
      ⟨f.swaps_applyClass hc hd hne, f.swaps_applyClass hd hc hne.symm⟩
  have hkeeps : ∀ c ∈ f.classes, ∀ s s', Placed f.classes s →
      after (f.applyClass c) s = (.ok (), s') → Placed f.classes s' := by
    intro c hc s s' hs hstep
    obtain ⟨C, -, rfl⟩ := (after_applyClass_ok hs.filed f c).1 hstep
    exact hs.enter hc C
  obtain ⟨t₃, ht₃, halike₃⟩ :=
    exists_alike_of_perm (respects_applyClass f) hkeeps hswaps hperm hplaced hread
  obtain ⟨s₃, hs₃, halike₃'⟩ :=
    (Respects.forM fun c _ => respects_applyClass f c).exists_ok halike₂ ht₃
  obtain ⟨s₄, hs₄, halike₄⟩ := (Respects.forM fun a _ => respects_applyAlias f a).exists_ok
    (halike₃.trans halike₃') haliases
  refine ⟨s₄, ?_, halike₄⟩
  rw [hrest]
  exact after_bind_ok.2 ⟨(), s₁, hs₁, after_bind_ok.2 ⟨(), s₂, hs₂, after_bind_ok.2
    ⟨(), s₃, hs₃, hs₄⟩⟩⟩

/-- The classes of a file that has been checked may stand in any order, as long as none of them
borrows a type parameter: applying the file succeeds in either order or in none, and leaves the same
classes, variables and aliases.  The variables of the registry stand under their own names, as they
do in every registry of a history (`varsFiled_of_mem_pool`). -/
theorem apply_perm (f : DeclarationFile) (hcheck : f.check = .ok ()) {classes : List ClassEntry}
    (hperm : classes.Perm f.classes) {r : Registry} (hr : r.VarsFiled)
    (hborrows : ∀ c ∈ f.classes, ∀ n, ¬ f.Borrows r c n) :
    let g := { f with classes }
    ((after g.apply r).1 = .ok () ↔ (after f.apply r).1 = .ok ()) ∧
      ((after f.apply r).1 = .ok () → (after f.apply r).2.Alike (after g.apply r).2) := by
  intro g
  -- Both orders satisfy the same conditions, so one direction is enough.
  have hnodup := nodup_of_check hcheck
  have hnodup' : (g.classes.map (·.name)).Nodup := (hperm.map _).nodup_iff.2 hnodup
  have hborrows' : ∀ c ∈ g.classes, ∀ n, ¬ g.Borrows r c n := by
    intro c hc n h
    obtain ⟨d, hd, hn⟩ := h.of_class
    obtain ⟨hvars, hclasses⟩ := h.not_in_file
    refine hborrows c (hperm.mem_iff.1 hc) n ⟨h.mentioned, h.not_own, ⟨d, hperm.mem_iff.1 hd, hn⟩,
      ⟨hvars, fun hmem => hclasses ((hperm.map _).mem_iff.2 hmem)⟩, h.not_known⟩
  have hforth : (after f.apply r).1 = .ok () → ∃ r'', after g.apply r = (.ok (), r'') ∧
      (after f.apply r).2.Alike r'' := by
    intro hok
    exact exists_apply_of_perm hperm.symm rfl hnodup hr hborrows (Prod.ext hok rfl)
  refine ⟨⟨fun hok => ?_, fun hok => ?_⟩, fun hok => ?_⟩
  · obtain ⟨r'', hrun, -⟩ :=
      exists_apply_of_perm (f := g) (g := f) hperm rfl hnodup' hr hborrows' (Prod.ext hok rfl)
    rw [hrun]
  · obtain ⟨r'', hrun, -⟩ := hforth hok
    rw [hrun]
  · obtain ⟨r'', hrun, halike⟩ := hforth hok
    rw [hrun]
    exact halike

/-- A class may stand before or behind the class it is derived from. -/
theorem apply_box_crate :
    let value : MemberEntry := { name := text "value", type := text "T" }
    let boxes : MemberEntry := { name := text "boxes", type := text "List[Box[Crate]]" }
    let box : ClassEntry := { name := text "Box", params := [text "T"], members := [value] }
    let crate : ClassEntry := { name := text "Crate", bases := [text "Box[Int]"], members := [boxes] }
    let f : DeclarationFile := { path := text "types.yaml", classes := [box, crate] }
    let g : DeclarationFile := { f with classes := [crate, box] }
    f.check = .ok () ∧ (after f.apply .builtin).1 = .ok () ∧
      (after f.apply .builtin).2.Alike (after g.apply .builtin).2 := by
  intro value boxes box crate f g
  have hcheck : f.check = .ok () := rfl
  have hok : (after f.apply .builtin).1 = .ok () := rfl
  have hborrows : ∀ c ∈ f.classes, ∀ n, ¬ f.Borrows .builtin c n := by
    intro c hc n hborrow
    -- The only type parameter is that of the box, which the crate does not mention.
    have hn : n = text "T" := by
      obtain ⟨d, hd, hn⟩ := hborrow.of_class
      obtain rfl | rfl : d = box ∨ d = crate := by simpa [f] using hd
      · exact List.mem_singleton.1 hn
      · cases hn
    subst hn
    obtain rfl | rfl : c = box ∨ c = crate := by simpa [f] using hc
    · exact hborrow.not_own List.mem_cons_self
    · have hsources : ∀ source ∈ crate.sources,
          text "T" ∉ (Token.scan source).map (·.text) := by decide
      obtain ⟨source, hsource, hmentions⟩ := hborrow.mentioned
      exact hsources source hsource hmentions.mem_scan
  -- The registry at the start is that of the empty history.
  have hfiled : Registry.builtin.VarsFiled :=
    varsFiled_of_mem_pool [] _ (List.mem_singleton_self _)
  exact ⟨hcheck, hok, (apply_perm f hcheck (List.Perm.swap box crate []) hfiled hborrows).2 hok⟩

end DeclarationFile

end TypeShape
