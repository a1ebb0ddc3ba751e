import TypeShape.Engine
import TypeShape.Proofs.Simulation

/-!
# Runs of the subtype check

What a subtype check answers depends on the memo it starts with, and what can be said about the
answer depends on the calls made on the way.  Two more monads make both visible.  In `Recording`
the check works with a memo as the engine does and lists its calls.  In `Replaying` expressions
are reduced by a fixed function, so that a run is a function of its question alone.

## Key results

- `Engine.isSubtype_eq_subtypeRun`: recording the calls changes neither answer nor memo
- `Engine.replay_subtypeRun`: a run can be replayed with any view of expressions that agrees with
  the memo it ends with
- `Registry.subtypeNoted_roomier`: a run that is not refused for want of room goes the same way
  with more room
-/

namespace TypeShape

/-- How expressions are seen: what each of them reduces to. -/
abbrev View := TypeExpr → Reduced

/-- A call of the subtype check, with the number of levels it had left.  A call without room is
refused. -/
structure Call where
  room : Nat
  inst : Shape
  tmpl : Shape

/-- What a run leaves: the calls made, the answer unless the run broke off, and the memo. -/
structure Run (α : Type) where
  calls : List Call
  answer : Option α
  memo : Memo

/-- Computations that reduce through a memo and record their calls. -/
structure Recording (α : Type) where
  run : Memo → Run α

/-- Computations that reduce by a fixed view and record their calls. -/
structure Replaying (α : Type) where
  run : View → List Call × Option α

/-- Computations that reduce by a fixed view. -/
abbrev Seeing := ReaderM View

namespace Recording

instance : Monad Recording where
  pure a := ⟨fun memo => ⟨[], some a, memo⟩⟩
  bind x f := ⟨fun memo =>
    match x.run memo with
    | ⟨calls, none, memo⟩ => ⟨calls, none, memo⟩
    | ⟨calls, some a, memo⟩ =>
      let rest := (f a).run memo
      ⟨calls ++ rest.calls, rest.answer, rest.memo⟩⟩

instance : Reducing Recording where
  reduce t := ⟨fun memo =>
    let outcome := StateT.run (Memo.reduce t) memo
    ⟨[], some outcome.1, outcome.2⟩⟩
  stuck := ⟨fun memo => ⟨[], none, memo⟩⟩

variable {α β : Type} {x : Recording α} {memo memo' : Memo} {calls : List Call}

/-- After a computation that broke off nothing is done. -/
theorem run_bind_none (f : α → Recording β) (h : x.run memo = ⟨calls, none, memo'⟩) :
    (x >>= f).run memo = ⟨calls, none, memo'⟩ := by
  show (match x.run memo with | ⟨calls, none, memo⟩ => _ | ⟨calls, some a, memo⟩ => _) = _
  rw [h]

/-- Otherwise the calls of the second computation come after those of the first. -/
theorem run_bind_some (f : α → Recording β) {a : α} (h : x.run memo = ⟨calls, some a, memo'⟩) :
    (x >>= f).run memo =
      ⟨calls ++ ((f a).run memo').calls, ((f a).run memo').answer, ((f a).run memo').memo⟩ := by
  show (match x.run memo with | ⟨calls, none, memo⟩ => _ | ⟨calls, some a, memo⟩ => _) = _
  rw [h]

/-- Mapping over a recorded computation is binding it to a pure one. -/
theorem map_eq_bind (f : α → β) (x : Recording α) : f <$> x = x >>= fun a => pure (f a) := rfl

end Recording

namespace Replaying

instance : Monad Replaying where
  pure a := ⟨fun _ => ([], some a)⟩
  bind x f := ⟨fun see =>
    match x.run see with
    | (calls, none) => (calls, none)
    | (calls, some a) => (calls ++ ((f a).run see).1, ((f a).run see).2)⟩

instance : Reducing Replaying where
  reduce t := ⟨fun see => ([], some (see t))⟩
  stuck := ⟨fun _ => ([], none)⟩

variable {α β : Type} {x : Replaying α} {see : View} {calls : List Call}

/-- After a computation that broke off nothing is replayed. -/
theorem run_bind_none (f : α → Replaying β) (h : x.run see = (calls, none)) :
    (x >>= f).run see = (calls, none) := by
  show (match x.run see with | (calls, none) => _ | (calls, some a) => _) = _
  rw [h]

/-- Otherwise the calls of the second computation come after those of the first. -/
theorem run_bind_some (f : α → Replaying β) {a : α} (h : x.run see = (calls, some a)) :
    (x >>= f).run see = (calls ++ ((f a).run see).1, ((f a).run see).2) := by
  show (match x.run see with | (calls, none) => _ | (calls, some a) => _) = _
  rw [h]

/-- Mapping over a replayed computation is binding it to a pure one. -/
theorem map_eq_bind (f : α → β) (x : Replaying α) : f <$> x = x >>= fun a => pure (f a) := rfl

end Replaying

instance : Reducing Seeing where
  reduce t := fun see => see t
  stuck := fun _ => false

/-- Monads that can record a call. -/
class Noting (m : Type → Type) where
  /-- Records a call. -/
  note : Call → m Unit

instance : Noting Recording where
  note c := ⟨fun memo => ⟨[c], some (), memo⟩⟩

instance : Noting Replaying where
  note c := ⟨fun _ => ([c], some ())⟩

namespace Registry

variable {m : Type → Type} [Monad m] [Reducing m] [Noting m]

/-- The subtype check, with every call recorded before it is answered. -/
def subtypeNoted (r : Registry) : Nat → List Text → Check m
  | 0, _, inst, tmpl => do
    Noting.note ⟨0, inst, tmpl⟩
    pure false
  | room + 1, assumed, inst, tmpl => do
    Noting.note ⟨room + 1, inst, tmpl⟩
    r.subtypeStep (subtypeNoted r room) assumed inst tmpl

end Registry

/-- Related monads run the noted check alike, if they note alike and break off alike. -/
theorem Simulation.subtypeNoted {m n : Type → Type} [Monad m] [Monad n] [Reducing m] [Reducing n]
    [Noting m] [Noting n] (S : Simulation m n) (r : Registry)
    (hnote : ∀ c : Call, S.Rel (Noting.note c) (Noting.note c))
    (hstuck : S.Rel Reducing.stuck Reducing.stuck) (room : Nat) (assumed : List Text)
    (inst tmpl : Shape) :
    S.Rel (r.subtypeNoted room assumed inst tmpl) (r.subtypeNoted room assumed inst tmpl) := by
  induction room generalizing assumed inst tmpl with
  | zero => exact S.rel_bind (hnote _) fun _ => S.rel_pure false
  | succ room ih =>
    exact S.rel_bind (hnote _) fun _ => S.subtypeStep r ih hstuck assumed inst tmpl

/-- The run behind the engine's answer to a subtype question. -/
def Engine.subtypeRun (e : Engine) (inst tmpl : Shape) : Run Bool :=
  (e.registry.subtypeNoted (maxRecursion + 1) [] inst tmpl : Recording Bool).run e.memo

/-! ## Recording changes nothing -/

/-- A recorded computation gives the answer and the memo of the plain one. -/
def recordingQuery : Simulation Recording Query where
  Rel x y := ∀ memo, StateT.run (OptionT.run y) memo = ((x.run memo).answer, (x.run memo).memo)
  rel_pure _ _ := rfl
  rel_bind := by
    intro α β x y f g hx hf memo
    have hx := hx memo
    simp only [OptionT.run_bind, Option.elimM, StateT.run_bind, hx]
    rcases hrun : x.run memo with ⟨calls, answer, memo'⟩
    cases answer with
    | none => rw [Recording.run_bind_none f hrun]; rfl
    | some a => rw [Recording.run_bind_some f hrun]; exact hf a memo'
  map_left := @Recording.map_eq_bind
  map_right := map_eq_pure_bind
  rel_reduce _ _ := rfl

/-- A recorded check gives what the check of the engine gives. -/
theorem recordingQuery_subtypeNoted (r : Registry) (room : Nat) (assumed : List Text)
    (inst tmpl : Shape) :
    recordingQuery.Rel (r.subtypeNoted room assumed inst tmpl)
      (r.subtypeWithin room assumed inst tmpl) := by
  induction room generalizing assumed inst tmpl with
  | zero => exact fun _ => rfl
  | succ room ih =>
    intro memo
    exact recordingQuery.subtypeStep r ih (fun _ => rfl) assumed inst tmpl memo

/-- Recording the calls of a subtype check changes neither its answer nor its memo. -/
theorem Engine.isSubtype_eq_subtypeRun (e : Engine) (inst tmpl : Shape) :
    e.isSubtype inst tmpl = ((e.subtypeRun inst tmpl).answer.getD false,
      { e with memo := (e.subtypeRun inst tmpl).memo }) := by
  have h := recordingQuery_subtypeNoted e.registry (maxRecursion + 1) [] inst tmpl e.memo
  simp only [Engine.isSubtype, Engine.ask, Engine.run, Registry.isSubtypeM, h]
  rfl

/-! ## Replaying a run -/

namespace Memo

/-- Whether a memo holds all that another holds. -/
def Extends (later earlier : Memo) : Prop :=
  ∀ key x, earlier.entries.find? key = some x → later.entries.find? key = some x

/-- A memo extends itself. -/
theorem Extends.refl (memo : Memo) : memo.Extends memo := fun _ _ h => h

/-- What extends a memo that extends another one extends that one. -/
theorem Extends.trans {a b c : Memo} (hab : a.Extends b) (hbc : b.Extends c) : a.Extends c :=
  fun key x h => hab key x (hbc key x h)

/-- What reducing an expression gives and what it leaves in the memo. -/
theorem run_reduce (t : TypeExpr) (memo : Memo) :
    StateT.run (Memo.reduce t) memo =
      if t.isOmitted then (t.reduce, memo)
      else match memo.entries.find? t.key with
        | some found => (found, memo)
        | none => (t.reduce, ⟨(t.key, t.reduce) :: memo.entries⟩) := by
  unfold Memo.reduce
  by_cases ho : t.isOmitted = true
  · rw [if_pos ho, if_pos ho]
    rfl
  · rw [if_neg ho, if_neg ho]
    show StateT.run (match memo.entries.find? t.key with | some _ => _ | none => _) memo = _
    cases memo.entries.find? t.key <;> rfl

/-- Reducing an expression only adds to the memo. -/
theorem extends_reduce (t : TypeExpr) (memo : Memo) :
    (StateT.run (Memo.reduce t) memo).2.Extends memo := by
  rw [run_reduce]
  split
  · exact Extends.refl memo
  · split
    · exact Extends.refl memo
    · -- The new entry hides no old one, because its key had none.
      rename_i hf
      intro key x hx
      rw [Table.find?_cons, if_neg, hx]
      rintro rfl
      rw [hf] at hx
      cases hx

end Memo

namespace View

/-- Whether a view gives what a memo holds.  The memo is never asked about omitted expressions. -/
def Agrees (see : View) (memo : Memo) : Prop :=
  ∀ t : TypeExpr, (t.isOmitted = true → see t = t.reduce) ∧
    (t.isOmitted = false → ∀ x, memo.entries.find? t.key = some x → see t = x)

/-- A view that agrees with a memo agrees with what the memo came from. -/
theorem Agrees.of_extends {see : View} {later earlier : Memo} (h : see.Agrees later)
    (hext : later.Extends earlier) : see.Agrees earlier :=
  fun t => ⟨(h t).1, fun ho x hx => (h t).2 ho x (hext _ x hx)⟩

/-- A view that agrees with the memo after a reduction gives the result of that reduction. -/
theorem Agrees.reduce {see : View} {t : TypeExpr} {memo : Memo}
    (h : see.Agrees (StateT.run (Memo.reduce t) memo).2) :
    see t = (StateT.run (Memo.reduce t) memo).1 := by
  rw [Memo.run_reduce] at h ⊢
  -- The result comes from the memo or is entered into it, unless the expression is omitted.
  split at h
  · rename_i ho
    rw [if_pos ho]
    exact (h t).1 ho
  · rename_i ho
    rw [if_neg ho]
    have ho : t.isOmitted = false := by simpa using ho
    split at h
    · rename_i found hf
      exact (h t).2 ho found hf
    · exact (h t).2 ho _ (by simp)

end View

/-- The view of expressions that a memo gives: what it holds, and plain reduction otherwise. -/
def Memo.view (memo : Memo) : View := fun t =>
  if t.isOmitted then t.reduce else (memo.entries.find? t.key).getD t.reduce

/-- The view of a memo agrees with it. -/
theorem Memo.view_agrees (memo : Memo) : memo.view.Agrees memo := by
  intro t
  refine ⟨fun ho => ?_, fun ho x hx => ?_⟩
  · simp [Memo.view, ho]
  · simp [Memo.view, ho, hx]

/-- A run goes the same way when it is replayed with a view that agrees with the memo it ends
with; it only adds to the memo. -/
def recordingReplaying : Simulation Recording Replaying where
  Rel x y := ∀ memo, (x.run memo).memo.Extends memo ∧ ∀ see : View,
    see.Agrees (x.run memo).memo → y.run see = ((x.run memo).calls, (x.run memo).answer)
  rel_pure _ memo := ⟨Memo.Extends.refl memo, fun _ _ => rfl⟩
  rel_bind := by
    intro α β x y f g hx hf memo
    obtain ⟨hext, hx⟩ := hx memo
    rcases hrun : x.run memo with ⟨calls, answer, memo'⟩
    rw [hrun] at hext hx
    cases answer with
    | none =>
      rw [Recording.run_bind_none f hrun]
      exact ⟨hext, fun see hsee => Replaying.run_bind_none g (hx see hsee)⟩
    | some a =>
      -- The view agrees with the last memo, and so with the memo between the two.
      obtain ⟨hext', hf⟩ := hf a memo'
      rw [Recording.run_bind_some f hrun]
      refine ⟨hext'.trans hext, fun see hsee => ?_⟩
      rw [Replaying.run_bind_some g (hx see (hsee.of_extends hext')), hf see hsee]
  map_left := @Recording.map_eq_bind
  map_right := @Replaying.map_eq_bind
  rel_reduce t memo := by
    refine ⟨Memo.extends_reduce t memo, fun see hsee => ?_⟩
    show ([], some (see t)) = _
    rw [View.Agrees.reduce hsee]
    rfl

/-- A recorded check can be replayed with every view that agrees with the memo it leaves. -/
theorem recordingReplaying_subtypeNoted (r : Registry) (room : Nat) (assumed : List Text)
    (inst tmpl : Shape) :
    recordingReplaying.Rel (r.subtypeNoted room assumed inst tmpl)
      (r.subtypeNoted room assumed inst tmpl) :=
  recordingReplaying.subtypeNoted r (fun _ memo => ⟨Memo.Extends.refl memo, fun _ _ => rfl⟩)
    (fun memo => ⟨Memo.Extends.refl memo, fun _ _ => rfl⟩) room assumed inst tmpl

namespace Engine

/-- A subtype check only adds to the memo. -/
theorem subtypeRun_extends (e : Engine) (inst tmpl : Shape) :
    (e.subtypeRun inst tmpl).memo.Extends e.memo :=
  (recordingReplaying_subtypeNoted e.registry (maxRecursion + 1) [] inst tmpl e.memo).1

/-- The run of a subtype check, replayed with a view that agrees with the memo it ends with. -/
theorem replay_subtypeRun (e : Engine) (inst tmpl : Shape) {see : View}
    (h : see.Agrees (e.subtypeRun inst tmpl).memo) :
    (e.registry.subtypeNoted (maxRecursion + 1) [] inst tmpl : Replaying Bool).run see =
      ((e.subtypeRun inst tmpl).calls, (e.subtypeRun inst tmpl).answer) :=
  (recordingReplaying_subtypeNoted e.registry (maxRecursion + 1) [] inst tmpl e.memo).2 see h

end Engine

/-! ## Runs with more room -/

/-- The same call with one more level left. -/
def Call.roomier (c : Call) : Call := { c with room := c.room + 1 }

/-- Whether no call was refused for want of room. -/
def WithinRoom (calls : List Call) : Prop := ∀ c ∈ calls, c.room ≠ 0

/-- No call of two lists was refused if none of either was. -/
theorem withinRoom_append {calls rest : List Call} :
    WithinRoom (calls ++ rest) ↔ WithinRoom calls ∧ WithinRoom rest := by
  simp only [WithinRoom, List.mem_append, or_imp, forall_and]

/-- A run without refused calls, and the run that goes the same way with one more level left. -/
def roomier : Simulation Replaying Replaying where
  Rel x y := ∀ see, WithinRoom (x.run see).1 →
    y.run see = ((x.run see).1.map Call.roomier, (x.run see).2)
  rel_pure _ _ _ := rfl
  rel_bind := by
    intro α β x y f g hx hf see hroom
    have hx := hx see
    rcases hrun : x.run see with ⟨calls, answer⟩
    rw [hrun] at hx
    cases answer with
    | none =>
      rw [Replaying.run_bind_none f hrun] at hroom ⊢
      exact Replaying.run_bind_none g (hx hroom)
    | some a =>
      -- Neither part of the run was refused a call, so both have their roomier runs.
      rw [Replaying.run_bind_some f hrun] at hroom ⊢
      obtain ⟨hcalls, hrest⟩ := withinRoom_append.1 hroom
      rw [Replaying.run_bind_some g (hx hcalls), hf a see hrest, List.map_append]
  map_left := @Replaying.map_eq_bind
  map_right := @Replaying.map_eq_bind
  rel_reduce _ _ _ := rfl

namespace Registry

/-- A check that is never refused for want of room goes the same way with one more level left. -/
theorem subtypeNoted_roomier (r : Registry) (room : Nat) (assumed : List Text)
    (inst tmpl : Shape) :
    roomier.Rel (r.subtypeNoted room assumed inst tmpl)
      (r.subtypeNoted (room + 1) assumed inst tmpl) := by
  induction room generalizing assumed inst tmpl with
  | zero =>
    -- The only call is refused.
    exact fun see hroom => absurd rfl (hroom ⟨0, inst, tmpl⟩ (List.mem_singleton_self _))
  | succ room ih =>
    refine roomier.rel_bind (fun _ _ => rfl) fun _ => ?_
    exact roomier.subtypeStep r ih (fun _ _ => rfl) assumed inst tmpl

end Registry

end TypeShape
