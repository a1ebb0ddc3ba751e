import Mathlib.Data.List.Forall2
import Mathlib.Logic.Relation
import TypeShape.Registry.Declare

/-!
# Running declaring computations

A declaring computation is run on a registry; it succeeds or fails, and what it has changed before
failing stays.  So its outcome and the registry it leaves are both told here: a success by what each
part has left to the next, and the registry left, whatever the outcome, by the steps that lead to it.

## Key results

- `Declaring.after_bind_ok`, `Declaring.after_mapM_reads`: when computations succeed
- `Declaring.Leads.bind_of`: the steps of a computation come before those of what follows it
-/

namespace TypeShape

open Relation (ReflTransGen)

namespace Declaring

variable {α β : Type} {r r' : Registry}

/-- What a declaring computation leaves. -/
def after (act : Declaring α) (r : Registry) : Except Error α × Registry :=
  StateT.run (ExceptT.run act) r

/-- What follows a failed computation is not run. -/
theorem after_bind (act : Declaring α) (f : α → Declaring β) (r : Registry) :
    after (act >>= f) r =
      match after act r with
      | (.ok a, r) => after (f a) r
      | (.error e, r) => (.error e, r) := by
  unfold after
  rw [ExceptT.run_bind, StateT.run_bind]
  rcases StateT.run (ExceptT.run act) r with ⟨outcome, r'⟩
  cases outcome <;> rfl

/-- Reading the registry does not change it. -/
theorem after_get_bind (f : Registry → Declaring α) (r : Registry) :
    after (get >>= f) r = after (f r) r := rfl

/-- A note changes the error of a computation and nothing else. -/
theorem after_within (doing : Text) (act : Declaring α) (r : Registry) :
    after (within doing act) r =
      match after act r with
      | (.ok a, r) => (.ok a, r)
      | (.error e, r) => (.error (.context doing e), r) := by
  unfold after within
  rw [ExceptT.run_tryCatch, StateT.run_bind]
  rcases StateT.run (ExceptT.run act) r with ⟨outcome, r'⟩
  cases outcome <;> rfl

/-- When a sequence succeeds, and what it leaves. -/
theorem after_bind_ok {act : Declaring α} {f : α → Declaring β} {b : β} :
    after (act >>= f) r = (.ok b, r') ↔
      ∃ a r₁, after act r = (.ok a, r₁) ∧ after (f a) r₁ = (.ok b, r') := by
  rw [after_bind]
  rcases after act r with ⟨_ | a, r₁⟩
  · simp
  · simp

/-- What is being done shows in errors only. -/
theorem after_within_ok {doing : Text} {act : Declaring α} {a : α} :
    after (within doing act) r = (.ok a, r') ↔ after act r = (.ok a, r') := by
  rw [after_within]
  rcases after act r with ⟨_ | b, r₁⟩ <;> simp

/-- A value is given without a change. -/
theorem after_pure_ok {a b : α} : after (pure a : Declaring α) r = (.ok b, r') ↔ b = a ∧ r' = r := by
  show ((Except.ok a, r) : Except Error α × Registry) = _ ↔ _
  simp [eq_comm]

/-- A loop over nothing changes nothing. -/
theorem after_forM_nil_ok {f : α → Declaring Unit} :
    after (([] : List α).forM f) r = (.ok (), r') ↔ r' = r := by
  rw [show ([] : List α).forM f = pure () from rfl, after_pure_ok]
  simp

/-- When a loop succeeds: its first round, and then the others. -/
theorem after_forM_cons_ok {x : α} {xs : List α} {f : α → Declaring Unit} :
    after ((x :: xs).forM f) r = (.ok (), r') ↔
      ∃ r₁, after (f x) r = (.ok (), r₁) ∧ after (xs.forM f) r₁ = (.ok (), r') := by
  rw [show (x :: xs).forM f = f x >>= fun _ => xs.forM f from rfl, after_bind_ok]
  exact ⟨fun ⟨_, r₁, hx, hxs⟩ => ⟨r₁, hx, hxs⟩, fun ⟨r₁, hx, hxs⟩ => ⟨(), r₁, hx, hxs⟩⟩

/-- A loop over two lists is a loop over the first and then over the second. -/
theorem after_forM_append_ok {xs ys : List α} {f : α → Declaring Unit} :
    after ((xs ++ ys).forM f) r = (.ok (), r') ↔
      ∃ r₁, after (xs.forM f) r = (.ok (), r₁) ∧ after (ys.forM f) r₁ = (.ok (), r') := by
  -- By induction on the first list; what it leaves is the registry that the second starts from.
  induction xs generalizing r with
  | nil =>
    rw [List.nil_append]
    simp only [after_forM_nil_ok]
    constructor
    · intro hys
      exact ⟨r, rfl, hys⟩
    · rintro ⟨_, rfl, hys⟩
      exact hys
  | cons x xs ih =>
    rw [List.cons_append, after_forM_cons_ok]
    simp only [ih, after_forM_cons_ok]
    constructor
    · rintro ⟨r₁, hx, r₂, hxs, hys⟩
      exact ⟨r₂, ⟨r₁, hx, hxs⟩, hys⟩
    · rintro ⟨r₂, ⟨r₁, hx, hxs⟩, hys⟩
      exact ⟨r₁, hx, r₂, hxs, hys⟩

/-- Computations none of which changes anything change nothing in a row. -/
theorem after_forM_unchanged {xs : List α} {f : α → Declaring Unit}
    (h : ∀ x ∈ xs, after (f x) r = (.ok (), r)) :
    after (xs.forM f) r = (.ok (), r) := by
  induction xs with
  | nil => rfl
  | cons x xs ih =>
    obtain ⟨hx, hxs⟩ := List.forall_mem_cons.1 h
    exact after_forM_cons_ok.2 ⟨r, hx, ih hxs⟩

/-- When a loop that collects results succeeds. -/
theorem after_mapM_cons_ok {x : α} {xs : List α} {f : α → Declaring β} {ys : List β} :
    after ((x :: xs).mapM f) r = (.ok ys, r') ↔ ∃ y r₁ zs, after (f x) r = (.ok y, r₁) ∧
      after (xs.mapM f) r₁ = (.ok zs, r') ∧ ys = y :: zs := by
  rw [List.mapM_cons, after_bind_ok]
  refine exists_congr fun y => exists_congr fun r₁ => ?_
  rw [after_bind_ok]
  -- The results are put together by a computation that changes nothing.
  constructor
  · rintro ⟨hx, zs, r₂, hxs, hys⟩
    obtain ⟨rfl, rfl⟩ := after_pure_ok.1 hys
    exact ⟨zs, hx, hxs, rfl⟩
  · rintro ⟨zs, hx, hxs, rfl⟩
    exact ⟨hx, zs, r', hxs, rfl⟩

/-- A list of computations that change nothing is a list of results. -/
theorem after_mapM_reads {f : α → Declaring β} {P : α → β → Prop}
    (h : ∀ x y r', after (f x) r = (.ok y, r') ↔ P x y ∧ r' = r) {xs : List α} {ys : List β} :
    after (xs.mapM f) r = (.ok ys, r') ↔ List.Forall₂ P xs ys ∧ r' = r := by
  -- None of them changes the registry, so that all of them run on the same one.
  induction xs generalizing ys with
  | nil =>
    rw [List.mapM_nil, after_pure_ok, List.forall₂_nil_left_iff]
  | cons x xs ih =>
    rw [after_mapM_cons_ok, List.forall₂_cons_left_iff]
    constructor
    · rintro ⟨y, r₁, zs, hx, hxs, rfl⟩
      obtain ⟨hy, rfl⟩ := (h x y r₁).1 hx
      obtain ⟨hzs, rfl⟩ := ih.1 hxs
      exact ⟨⟨y, zs, hy, hzs, rfl⟩, rfl⟩
    · rintro ⟨⟨y, zs, hy, hzs, rfl⟩, rfl⟩
      exact ⟨y, r', zs, (h x y r').2 ⟨hy, rfl⟩, ih.2 ⟨hzs, rfl⟩, rfl⟩

/-! ## Paths -/

/-- From the registries with a property, a computation leads along steps of a relation, whether it
fails or not. -/
def Leads (K : Registry → Prop) (S : Registry → Registry → Prop) (act : Declaring α) : Prop :=
  ∀ r, K r → ReflTransGen S r (after act r).2

/-- The steps of a relation keep a property. -/
def Stable (K : Registry → Prop) (S : Registry → Registry → Prop) : Prop :=
  ∀ r r', S r r' → K r → K r'

/-- What every step keeps is kept along a path. -/
theorem Stable.path {K : Registry → Prop} {S : Registry → Registry → Prop} (h : Stable K S)
    (hpath : ReflTransGen S r r') (hr : K r) : K r' := by
  induction hpath with
  | refl => exact hr
  | tail _ hstep ih => exact h _ _ hstep ih

/-- What holds of everything is kept by every step. -/
theorem stable_true (S : Registry → Registry → Prop) : Stable (fun _ => True) S :=
  fun _ _ _ _ => trivial

namespace Leads

variable {K L : Registry → Prop} {S S' : Registry → Registry → Prop}

/-- A value is given without a step. -/
theorem pure (a : α) : Leads K S (Pure.pure a : Declaring α) :=
  fun _ _ => .refl

/-- A failure is met without a step. -/
theorem throw (e : Error) : Leads K S (MonadExcept.throw e : Declaring α) :=
  fun _ _ => .refl

/-- The steps may be described more loosely, and the start more strictly. -/
theorem mono {act : Declaring α} (h : Leads K S act) (hK : ∀ r, L r → K r)
    (hS : ∀ r r', S r r' → S' r r') : Leads L S' act :=
  fun r hr => ReflTransGen.mono hS _ _ (h r (hK r hr))

/-- A run that starts well makes steps, whatever its outcome. -/
theorem path {act : Declaring α} (h : Leads K S act) (hr : K r) {outcome : Except Error α}
    (hrun : after act r = (outcome, r')) : ReflTransGen S r r' := by
  have hpath := h r hr
  rwa [hrun] at hpath

/-- The steps of a computation come before those of what follows it, which may rely on what the
computation leaves when it succeeds. -/
theorem bind_of {act : Declaring α} {f : α → Declaring β} (h : Leads K S act)
    (hok : ∀ r a r', K r → after act r = (.ok a, r') → L r') (h' : ∀ a, Leads L S (f a)) :
    Leads K S (act >>= f) := by
  intro r hr
  rw [after_bind]
  rcases hact : after act r with ⟨_ | a, r'⟩
  · exact h.path hr hact
  · exact (h.path hr hact).trans (h' a r' (hok r a r' hr hact))

/-- The steps of a sequence are those of its parts, one after the other. -/
theorem bind (hK : Stable K S) {act : Declaring α} {f : α → Declaring β} (h : Leads K S act)
    (h' : ∀ a, Leads K S (f a)) : Leads K S (act >>= f) :=
  h.bind_of (fun _ _ _ hr hact => hK.path (h.path hr hact) hr) h'

/-- Telling what is being done makes no step. -/
theorem within {act : Declaring α} (doing : Text) (h : Leads K S act) :
    Leads K S (Declaring.within doing act) := by
  intro r hr
  rw [after_within]
  rcases hact : after act r with ⟨_ | a, r'⟩ <;> exact h.path hr hact

/-- A loop makes the steps of its rounds, one after the other. -/
theorem forM (hK : Stable K S) {xs : List α} {f : α → Declaring Unit}
    (h : ∀ x ∈ xs, Leads K S (f x)) : Leads K S (xs.forM f) := by
  induction xs with
  | nil => exact pure ()
  | cons x xs ih =>
    obtain ⟨hx, hxs⟩ := List.forall_mem_cons.1 h
    exact bind hK hx fun _ => ih hxs

/-- What each computation establishes when it succeeds holds after all of them. -/
theorem of_forM {P : α → Registry → Prop} {xs : List α} {f : α → Declaring Unit}
    (h : ∀ x ∈ xs, Leads (fun _ => True) S (f x)) (hP : ∀ x ∈ xs, Stable (P x) S)
    (hok : ∀ x ∈ xs, ∀ r r', after (f x) r = (.ok (), r') → P x r')
    (hrun : after (xs.forM f) r = (.ok (), r')) : ∀ x ∈ xs, P x r' := by
  -- By induction on the loop, for the registry that each round starts from.
  induction xs generalizing r with
  | nil => nofun
  | cons x xs ih =>
    obtain ⟨hx, hxs⟩ := List.forall_mem_cons.1 h
    obtain ⟨hPx, hPxs⟩ := List.forall_mem_cons.1 hP
    obtain ⟨hokx, hokxs⟩ := List.forall_mem_cons.1 hok
    obtain ⟨r₁, hfirst, hrest⟩ := after_forM_cons_ok.1 hrun
    -- What the first one establishes is kept along the steps of the others.
    have hpath := (forM (stable_true S) hxs).path trivial hrest
    exact List.forall_mem_cons.2
      ⟨hPx.path hpath (hokx r r₁ hfirst), ih hxs hPxs hokxs hrest⟩

/-- A loop that collects results makes the steps of its rounds. -/
theorem mapM (hK : Stable K S) {xs : List α} {f : α → Declaring β}
    (h : ∀ x ∈ xs, Leads K S (f x)) : Leads K S (xs.mapM f) := by
  induction xs with
  | nil => exact pure []
  | cons x xs ih =>
    obtain ⟨hx, hxs⟩ := List.forall_mem_cons.1 h
    rw [List.mapM_cons]
    exact bind hK hx fun _ => bind hK (ih hxs) fun _ => pure _

end Leads

end Declaring

end TypeShape
