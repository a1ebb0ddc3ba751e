import Mathlib.Data.List.Induction
import TypeShape.Declaration.Apply
import TypeShape.Package.Import
import TypeShape.Proofs.ReachableRegistry
import TypeShape.Proto.Basic

/-!
# Histories of registries

A history is a list of calls: declarations one by one, declaration files, imports of packages and
of messages, and copies of a registry that has been made before.  Whether the calls succeed or fail,
each of them is a path of entries, first of classes and type variables and then of everything else.
So what one entry keeps is kept by every history.

## Key results

- `Operation.path`: a call leads along entries
- `DeclarationFile.settles_apply`: applying a file enters no class beside a variable of its name
- `pool_keeps`: what entries keep holds of every registry of a history
- `pool_wellFormed`: the registries of a history are well formed, and no call takes a name away
-/

namespace TypeShape

open Declaring Registry
open Relation (ReflTransGen)

namespace Declaring

variable {α β : Type} {K L : Registry → Prop}

/-- Classes and variables are entered first, and everything else after them. -/
def Settles (K : Registry → Prop) (act : Declaring α) : Prop :=
  ∀ r, K r → ∃ s, ReflTransGen NameEntry r s ∧ ReflTransGen SideEntry s (after act r).2

/-- A computation that only enters names settles. -/
theorem Leads.names {act : Declaring α} (h : Leads K NameEntry act) : Settles K act :=
  fun r hr => ⟨_, h r hr, .refl⟩

/-- A computation that enters no names settles. -/
theorem Leads.sides {act : Declaring α} (h : Leads K SideEntry act) : Settles K act :=
  fun r hr => ⟨r, .refl, h r hr⟩

/-- Entering names first and settling afterwards is settling. -/
theorem Settles.bind_of {act : Declaring α} {f : α → Declaring β} (h : Leads K NameEntry act)
    (hok : ∀ r a r', K r → after act r = (.ok a, r') → L r') (h' : ∀ a, Settles L (f a)) :
    Settles K (act >>= f) := by
  intro r hr
  rw [after_bind]
  rcases hact : after act r with ⟨_ | a, r'⟩
  · exact ⟨r', h.path hr hact, .refl⟩
  · obtain ⟨s, hnames, hsides⟩ := h' a r' (hok r a r' hr hact)
    exact ⟨s, (h.path hr hact).trans hnames, hsides⟩

end Declaring

namespace Registry

/-- A class without type parameters is entered like any other. -/
theorem leads_declare_bare {c : Class} (h : c.params = []) :
    Leads (fun _ => True) NameEntry (declare c) :=
  (leads_declare c).mono (fun _ _ => .inr (by simp [h])) fun _ _ => id

/-- The names of some classes are known. -/
def Knows (names : List Text) (r : Registry) : Prop :=
  ∀ n ∈ names, (r.class? n).isSome = true

/-- Names that are known stay known. -/
theorem stable_knows (names : List Text) : Stable (Knows names) NameEntry :=
  fun _ _ h hr n hn => h.grows.classes n (hr n hn)

/-- A class that is known by name is entered like any other, whatever parameters it lists. -/
theorem leads_declare_known {c : Class} {names : List Text} (h : c.name ∈ names) :
    Leads (Knows names) NameEntry (declare c) :=
  (leads_declare c).mono (fun _ hr => .inl (hr c.name h)) fun _ _ => id

end Registry

/-! ## Declaration files -/

namespace DeclarationFile

variable {K : Registry → Prop} {S : Registry → Registry → Prop}

/-- Reading a source enters nothing. -/
theorem leads_parseType (source : Text) : Leads K S (parseType source) := by
  intro r _
  unfold parseType
  rw [after_get_bind]
  split <;> exact .refl

/-- The first step of a declaration file enters a class under its name, if it is new. -/
theorem leads_enterClass (f : DeclarationFile) (c : ClassEntry) :
    Leads (fun _ => True) NameEntry (f.enterClass c) := by
  intro r _
  unfold enterClass
  rw [after_get_bind]
  split
  · exact .refl
  · exact (leads_declare_bare rfl).within _ r trivial

/-- A class is known once it was entered by name. -/
theorem class?_of_enterClass {f : DeclarationFile} {c : ClassEntry} {r r' : Registry}
    (h : after (f.enterClass c) r = (.ok (), r')) : (r'.class? c.name).isSome = true := by
  unfold enterClass at h
  rw [after_get_bind] at h
  split at h
  · rename_i hknown
    cases h
    exact hknown
  · exact class?_of_declare (after_within_ok.1 h)

/-- Declaring a variable of a file enters names only. -/
theorem leads_applyVar (f : DeclarationFile) (v : VarEntry) :
    Leads (fun _ => True) NameEntry (f.applyVar v) := by
  rw [applyVar_eq]
  refine .bind (stable_true _) ?_ fun bound => .bind (stable_true _) ?_ fun constraints => ?_
  · split
    · exact .pure _
    · exact (leads_parseType v.bound).within _
  · exact .mapM (stable_true _) fun source _ => (leads_parseType source).within _
  · exact (leads_declareVar _).within _

/-- Finding a parameter enters names only. -/
theorem leads_parameter (doing name : Text) :
    Leads (fun _ => True) NameEntry (parameter doing name) := by
  intro r _
  unfold parameter
  rw [after_get_bind]
  split
  · exact .refl
  · exact Leads.bind (stable_true _) ((leads_declareVar _).within _) (fun _ => .pure _) r trivial

/-- The class of a file is declared once its name is known, so it is not entered beside a variable
of its name. -/
theorem leads_applyClass (f : DeclarationFile) {c : ClassEntry} {names : List Text}
    (hc : c.name ∈ names) : Leads (Knows names) NameEntry (f.applyClass c) := by
  have hstable := stable_knows names
  unfold applyClass
  refine .bind hstable ?_ fun params => .bind hstable ?_ fun bases => .bind hstable ?_
    fun members => ?_
  · exact .mapM hstable fun name _ =>
      (leads_parameter _ name).mono (fun _ _ => trivial) fun _ _ => id
  · exact .mapM hstable fun source _ => (leads_parseType _).within _
  · exact .mapM hstable fun m _ => .bind hstable ((leads_parseType _).within _) fun _ => .pure _
  · exact (leads_declare_known hc).within _

/-- Declaring an alias of a file enters no names. -/
theorem leads_applyAlias (f : DeclarationFile) (a : AliasEntry) :
    Leads (fun _ => True) SideEntry (f.applyAlias a) :=
  Leads.within _ (.bind (stable_true _) (leads_parseType _) fun t => leads_declareAlias a.name t)

/-- Once the classes of a file are entered by name, their names are known. -/
theorem knows_of_enterClasses (f : DeclarationFile) {r r' : Registry}
    (h : after (f.classes.forM f.enterClass) r = (.ok (), r')) :
    r'.Knows (f.classes.map (·.name)) := by
  have hknown : ∀ c ∈ f.classes, (r'.class? c.name).isSome = true :=
    Leads.of_forM (P := fun c r => (r.class? c.name).isSome = true)
      (fun c _ => f.leads_enterClass c) (fun c _ _ _ hstep => hstep.grows.classes c.name)
      (fun _ _ _ _ => class?_of_enterClass) h
  intro n hn
  obtain ⟨c, hc, rfl⟩ := List.mem_map.1 hn
  exact hknown c hc

/-- Applying a file enters names first: all classes by name, the variables, the classes with their
bases and members, and only then the aliases. -/
theorem settles_apply (f : DeclarationFile) : Settles (fun _ => True) f.apply := by
  -- Once the classes are known by name, they stay so; that is what the later steps need.
  have hvars : Leads (Knows (f.classes.map (·.name))) NameEntry (f.vars.forM f.applyVar) :=
    .forM (stable_knows _) fun v _ => (f.leads_applyVar v).mono (fun _ _ => trivial) fun _ _ => id
  have hclasses : Leads (Knows (f.classes.map (·.name))) NameEntry
      (f.classes.forM f.applyClass) :=
    .forM (stable_knows _) fun c hc => f.leads_applyClass (List.mem_map_of_mem hc)
  have haliases : Leads (Knows (f.classes.map (·.name))) SideEntry
      (f.aliases.forM f.applyAlias) :=
    (Leads.forM (stable_true _) fun a _ => f.leads_applyAlias a).mono (fun _ _ => trivial)
      fun _ _ => id
  have hkeeps : ∀ {act : Declaring PUnit}, Leads (Knows (f.classes.map (·.name))) NameEntry act →
      ∀ r a r', Knows (f.classes.map (·.name)) r → after act r = (.ok a, r') →
        Knows (f.classes.map (·.name)) r' := by
    intro act hact r a r' hr hrun
    exact (stable_knows _).path (hact.path hr hrun) hr
  unfold apply
  refine .bind_of (.forM (stable_true _) fun c _ => f.leads_enterClass c)
    (fun r _ r' _ h => f.knows_of_enterClasses h) fun _ => ?_
  exact .bind_of hvars (hkeeps hvars) fun _ => .bind_of hclasses (hkeeps hclasses) fun _ =>
    haliases.sides

end DeclarationFile

/-! ## Imports -/

namespace Packages

/-- An imported type is declared under its class name. -/
@[simp] theorem classOf_name (imp : Importer) (i : Imported) : (imp.classOf i).name = i.className := by
  unfold Importer.classOf
  dsimp only
  split <;> rfl

/-- Importing packages enters names only. -/
theorem leads_declareAll (ps : Packages) : Leads (fun _ => True) NameEntry ps.declareAll := by
  -- In the first round all classes are entered bare; in the second round their names are known.
  have hfirst : ∀ i ∈ ps.imported, Leads (fun _ => True) NameEntry (Importer.declaring i
      (Registry.declare { name := i.className, kind := Importer.kindOf ⟨ps, ps.imported⟩ i })) :=
    fun i _ => (leads_declare_bare rfl).within _
  unfold declareAll
  refine .bind_of (L := Knows (ps.imported.map (·.className)))
    (.forM (stable_true _) hfirst) (fun r _ r' _ h n hn => ?_) fun _ => ?_
  · obtain ⟨i, hi, rfl⟩ := List.mem_map.1 hn
    refine Leads.of_forM (P := fun i r => (r.class? i.className).isSome = true) hfirst
      (fun i _ _ _ hstep => hstep.grows.classes i.className) (fun i _ r r' hrun => ?_) h i hi
    exact class?_of_declare (after_within_ok.1 hrun)
  · refine .forM (stable_knows _) fun i hi => (leads_declare_known ?_).within _
    rw [classOf_name]
    exact List.mem_map_of_mem hi

end Packages

namespace ProtoMessage

mutual

/-- Declaring a message enters names only. -/
theorem leads_declare (outer : Text) (m : ProtoMessage) :
    Leads (fun _ => True) NameEntry (m.declare outer) := by
  match m with
  | .mk name isMapEntry fields nested =>
    unfold ProtoMessage.declare
    split
    · exact .pure ()
    · exact .bind (stable_true _) (leads_declare_bare rfl) fun _ => leads_declareAll _ nested

/-- Declaring messages with those nested in them enters names only. -/
theorem leads_declareAll (outer : Text) (ms : List ProtoMessage) :
    Leads (fun _ => True) NameEntry (declareAll outer ms) := by
  match ms with
  | [] => exact .pure ()
  | m :: ms =>
    unfold declareAll
    exact .bind (stable_true _) (leads_declare outer m) fun _ => leads_declareAll outer ms

end

end ProtoMessage

namespace ProtoFile

/-- Visiting files one after another enters names only, if visiting one does. -/
theorem leads_visitAll {visit : Text → List Text → Declaring (List Text)}
    (h : ∀ name seen, Leads (fun _ => True) NameEntry (visit name seen)) (names seen : List Text) :
    Leads (fun _ => True) NameEntry (visitAll visit names seen) := by
  induction names generalizing seen with
  | nil => exact .pure seen
  | cons name names ih => exact .bind (stable_true _) (h name seen) fun seen => ih seen

/-- Visiting a file and those it imports enters names only. -/
theorem leads_visit (files : List ProtoFile) (fuel : Nat) (name : Text) (seen : List Text) :
    Leads (fun _ => True) NameEntry (visit files fuel name seen) := by
  induction fuel generalizing name seen with
  | zero => exact .pure seen
  | succ fuel ih =>
    unfold visit
    split
    · exact .pure seen
    split
    · exact .pure _
    · rename_i f _
      -- First what the file imports is visited, then its own messages are declared.
      refine .bind (stable_true _) (leads_visitAll ih _ _) fun seen => ?_
      exact .bind (stable_true _) ((ProtoMessage.leads_declareAll _ _).within f.name)
        fun _ => .pure seen

/-- Importing messages settles. -/
theorem settles_importAll (files : List ProtoFile) (names : List Text) :
    Settles (fun _ => True) (importAll files names) := by
  refine .bind_of (L := fun _ => True) (leads_visitAll (leads_visit files _) names [])
    (fun _ _ _ _ _ => trivial) fun _ => Leads.sides fun r _ => ?_
  rw [after_get_bind]
  split
  · exact .refl
  · exact leads_addTyper .messages r trivial

end ProtoFile

/-! ## Histories -/

/-- A call that may change a registry. -/
inductive Operation where
  | declare (c : Class)
  | declareVar (v : TypeVar)
  | declareAlias (name : Text) (t : TypeExpr)
  | bindHostType (t : HostType) (name : Text)
  | addTyper (typer : Typer)
  | applyFile (f : DeclarationFile)
  | importPackages (ps : Packages)
  | importMessages (files : List ProtoFile) (names : List Text)

namespace Operation

/-- What a call does. -/
def act : Operation → Declaring Unit
  | declare c => Registry.declare c
  | declareVar v => Registry.declareVar v
  | declareAlias name t => Registry.declareAlias name t
  | bindHostType t name => Registry.bindHostType t name
  | addTyper typer => Registry.addTyper typer
  | applyFile f => f.apply
  | importPackages ps => ps.declareAll
  | importMessages files names => ProtoFile.importAll files names

/-- The registry that a call leaves, whether it succeeds or fails. -/
def run (op : Operation) (r : Registry) : Registry :=
  (after op.act r).2

/-- A call enters classes and variables first, unless it declares a new class that lists its own
name. -/
theorem settles (op : Operation) (r : Registry)
    (h : ∀ c, op = declare c →
      (r.class? c.name).isSome = true ∨ c.name ∉ c.params.map (·.name)) :
    ∃ s, ReflTransGen NameEntry r s ∧ ReflTransGen SideEntry s (op.run r) := by
  -- All calls settle on every registry, but for a new class that lists its own name.
  cases op with
  | declare c => exact (leads_declare c).names r (h c rfl)
  | declareVar v => exact (leads_declareVar v).names r trivial
  | declareAlias name t => exact (leads_declareAlias name t).sides r trivial
  | bindHostType t name => exact (leads_bindHostType t name).sides r trivial
  | addTyper typer => exact (leads_addTyper typer).sides r trivial
  | applyFile f => exact f.settles_apply r trivial
  | importPackages ps => exact ps.leads_declareAll.names r trivial
  | importMessages files names => exact ProtoFile.settles_importAll files names r trivial

/-- A call leads along entries. -/
theorem path (op : Operation) (r : Registry) : ReflTransGen Entry r (op.run r) := by
  -- Only a single declaration can enter a class beside a variable of its name.
  have hsettled (h : ∀ c, op ≠ declare c) : ReflTransGen Entry r (op.run r) := by
    obtain ⟨s, hnames, hsides⟩ := op.settles r fun c hc => absurd hc (h c)
    exact (ReflTransGen.mono (fun _ _ => Entry.name) _ _ hnames).trans
      (ReflTransGen.mono (fun _ _ => Entry.side) _ _ hsides)
  cases op with
  | declare c => exact leads_declare_entry c r trivial
  | _ => exact hsettled nofun

/-- A call takes no name away. -/
theorem grows (op : Operation) (r : Registry) : r.Grows (op.run r) :=
  grows_of_path (fun _ _ => Entry.grows) (op.path r)

end Operation

/-- A step of a history: one of the registries made so far is copied, or a call is made on it. -/
inductive Event where
  | clone (index : Nat)
  | call (index : Nat) (op : Operation)

/-- The registries after a step.  A copy stands at the end; what is called later on the copy or on
the registry that it was made of does not change the other. -/
def Event.run : Event → List Registry → List Registry
  | clone index, pool => pool ++ pool[index]?.toList
  | call index op, pool => pool.modify index op.run

/-- The registries that a history makes, beginning with that of the builtin classes. -/
def pool (history : List Event) : List Registry :=
  history.foldl (fun pool event => event.run pool) [.builtin]

/-- What its call keeps is kept by a step. -/
theorem Event.keeps {P : Registry → Prop} (event : Event)
    (h : ∀ index op, event = .call index op → ∀ r, P r → P (op.run r)) {pool : List Registry}
    (hpool : ∀ r ∈ pool, P r) : ∀ r ∈ event.run pool, P r := by
  -- A copy adds a registry that was there; a call changes one and leaves the others.
  cases event with
  | clone index =>
    refine List.forall_mem_append.2 ⟨hpool, fun r hr => ?_⟩
    exact hpool r (List.mem_of_getElem? (Option.mem_toList.1 hr))
  | call index op =>
    intro r hr
    obtain ⟨i, hi⟩ := List.mem_iff_getElem?.1 hr
    rw [Event.run, List.getElem?_modify] at hi
    obtain ⟨r₀, hr₀, rfl⟩ := Option.map_eq_some_iff.1 hi
    have hkept := hpool r₀ (List.mem_of_getElem? hr₀)
    split
    · exact h index op rfl r₀ hkept
    · exact hkept

/-- No step takes a registry away, or a name from one, or changes a variable. -/
theorem Event.grows (event : Event) {pool : List Registry} {i : Nat} {r : Registry}
    (h : pool[i]? = some r) : ∃ r', (event.run pool)[i]? = some r' ∧ r.Grows r' := by
  cases event with
  | clone index =>
    obtain ⟨hi, -⟩ := List.getElem?_eq_some_iff.1 h
    exact ⟨r, by rw [Event.run, List.getElem?_append_left hi, h], .refl r⟩
  | call index op =>
    rw [Event.run, List.getElem?_modify, h]
    split
    · exact ⟨_, rfl, op.grows r⟩
    · exact ⟨_, rfl, .refl r⟩

/-- What holds of the builtin classes and is kept by the calls of a history holds of every registry
of it. -/
theorem pool_keeps_of {P : Registry → Prop} (history : List Event) (hbuiltin : P .builtin)
    (h : ∀ index op, .call index op ∈ history → ∀ r, P r → P (op.run r)) :
    ∀ r ∈ pool history, P r := by
  induction history using List.reverseRecOn with
  | nil => exact List.forall_mem_singleton.2 hbuiltin
  | append_singleton history event ih =>
    rw [pool, List.foldl_append]
    refine event.keeps (fun index op hevent => h index op ?_)
      (ih fun index op hmem => h index op (List.mem_append_left _ hmem))
    rw [← hevent]
    exact List.mem_append_right _ (List.mem_singleton_self event)

/-- What holds of the builtin classes and is kept by entries holds of every registry of a history. -/
theorem pool_keeps {P : Registry → Prop} (hP : Stable P Entry) (hbuiltin : P .builtin)
    (history : List Event) : ∀ r ∈ pool history, P r :=
  pool_keeps_of history hbuiltin fun _ op _ r hr => hP.path (op.path r) hr

/-- The variables of every registry of a history stand under their own names. -/
theorem varsFiled_of_mem_pool (history : List Event) : ∀ r ∈ pool history, r.VarsFiled :=
  pool_keeps stable_varsFiled builtin_varsFiled history

/-- Every registry of a history is well formed, and what happens next keeps its names and the
declarations of its variables. -/
theorem pool_wellFormed (history : List Event) :
    (∀ r ∈ pool history, r.WellFormed) ∧
    ∀ (event : Event) (i : Nat) (r : Registry), (pool history)[i]? = some r →
      ∃ r', (pool (history ++ [event]))[i]? = some r' ∧ r.Grows r' := by
  refine ⟨pool_keeps stable_wellFormed builtin_wellFormed history, fun event i r hr => ?_⟩
  rw [pool, List.foldl_append]
  exact event.grows hr

end TypeShape
