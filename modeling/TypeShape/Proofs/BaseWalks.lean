import TypeShape.Proofs.ReachableRegistry
import TypeShape.Proofs.SubtypeAnswers

/-!
# Walks along bases

A walk along bases visits classes, each with the bindings of its parameters.  Whatever is made of
the visits, be it bindings or members, is made of the list of visits alone.  The first visit is to
the class of the shape that the walk starts from, and every other visit is to the class of a base
that an earlier class declares, with the bindings of that class applied to it.

## Key results

- `Registry.walkAll_eq_foldl`: what a walk makes of its visits, it makes of the list of them
- `Registry.trail_of_visits`, `Registry.Trail.exists_base`: where the visits of a walk come from
- `Engine.run_visitsM`: the walk of an engine, told by what its memo shows in the end
-/

namespace TypeShape

/-- A class that a walk visits, with the bindings of its parameters. -/
structure Visit where
  cls : Class
  bindings : Subst

namespace Registry

section

variable {m : Type → Type} [Monad m] [Reducing m]

/-- Notes a visit at the end of a list. -/
def noteVisit (c : Class) (bindings : Subst) (log : List Visit) : m (List Visit) :=
  pure (log ++ [⟨c, bindings⟩])

/-- The visits of a walk along bases, in order. -/
def visitsM (r : Registry) (s : Shape) : m (Except Error (List Visit)) :=
  r.walkAll noteVisit s []

end

/-- The visits of a walk along bases, as expressions are seen. -/
def visits (r : Registry) (see : View) (s : Shape) : Except Error (List Visit) :=
  (r.visitsM s : Seeing _).run see

variable {r : Registry} {see : View} {σ : Type}

/-! ## One step of a walk -/

/-- In the monad that sees a fixed view, results are passed on and the view stays. -/
theorem run_bind_seeing {α β : Type} (x : Seeing α) (f : α → Seeing β) :
    (x >>= f).run see = (f (x.run see)).run see := rfl

/-- The bases are walked one after the other, each from where the one before has ended. -/
theorem run_walkBases_cons (walk : Shape → List Text × σ → Seeing (Except Error (List Text × σ)))
    (bindings : Subst) (base : TypeExpr) (bases : List TypeExpr) (state : List Text × σ) :
    (r.walkBases walk bindings (base :: bases) state).run see =
      match (walk (r.shapeSeen see (base.apply bindings)) state).run see with
      | .error e => .error e
      | .ok state => (r.walkBases walk bindings bases state).run see := by
  show ReaderT.run (match (walk (r.shapeSeen see (base.apply bindings)) state).run see with
    | .error e => pure (.error e)
    | .ok state => r.walkBases walk bindings bases state) see = _
  cases (walk (r.shapeSeen see (base.apply bindings)) state).run see <;> rfl

/-- One level of a walk: the class is visited if it was not, and then its bases are walked. -/
theorem run_walkClasses_succ (visit : Class → Subst → σ → Seeing σ) (room : Nat) (s : Shape)
    (visited : List Text) (acc : σ) :
    (r.walkClasses visit (room + 1) s (visited, acc)).run see =
      if s.isHole then .error .hole
      else match r.classOf? s with
        | none => .ok (visited, acc)
        | some c =>
          if visited.contains c.name then .ok (visited, acc)
          else match (r.ownBindings c s : Seeing _).run see with
            | .error e => .error e
            | .ok bindings =>
              (r.walkBases (r.walkClasses visit room) bindings c.bases
                (c.name :: visited, (visit c bindings acc).run see)).run see := by
  simp only [walkClasses]
  split
  · rfl
  cases r.classOf? s with
  | none => rfl
  | some c =>
    dsimp only
    split
    · rfl
    -- The visit and the walk over the bases come after the bindings, which may fail.
    · show ReaderT.run (match (r.ownBindings c s : Seeing _).run see with
        | .error e => (pure (.error e) : Seeing (Except Error (List Text × σ)))
        | .ok bindings => do
          let acc ← visit c bindings acc
          r.walkBases (r.walkClasses visit room) bindings c.bases (c.name :: visited, acc)) see = _
      cases (r.ownBindings c s : Seeing _).run see <;> rfl

/-! ## What is made of the visits -/

section

variable (visit : Class → Subst → σ → Seeing σ) (start : σ)

/-- What is made of some visits. -/
def madeOf (see : View) (log : List Visit) : σ :=
  log.foldl (fun acc v => (visit v.cls v.bindings acc).run see) start

/-- What is made of a further visit is made of what was made before. -/
theorem madeOf_concat (log : List Visit) (v : Visit) :
    madeOf visit start see (log ++ [v]) =
      (visit v.cls v.bindings (madeOf visit start see log)).run see := by
  simp [madeOf]

/-- If a walk makes of each base what the noting walk has noted, it does so for the bases in a row.
-/
theorem walkBases_eq_madeOf
    {walk : Shape → List Text × σ → Seeing (Except Error (List Text × σ))}
    {walk' : Shape → List Text × List Visit → Seeing (Except Error (List Text × List Visit))}
    (h : ∀ s visited log, (walk s (visited, madeOf visit start see log)).run see =
      ((walk' s (visited, log)).run see).map fun (visited, log) =>
        (visited, madeOf visit start see log))
    (bindings : Subst) (bases : List TypeExpr) (visited : List Text) (log : List Visit) :
    (r.walkBases walk bindings bases (visited, madeOf visit start see log)).run see =
      ((r.walkBases walk' bindings bases (visited, log)).run see).map fun (visited, log) =>
        (visited, madeOf visit start see log) := by
  -- By induction on the bases, for the names and the visits so far.
  induction bases generalizing visited log with
  | nil => rfl
  | cons base bases ih =>
    rw [run_walkBases_cons, run_walkBases_cons, h]
    rcases (walk' (r.shapeSeen see (base.apply bindings)) (visited, log)).run see with
      e | ⟨visited', log'⟩
    · rfl
    · exact ih visited' log'

/-- A walk makes of its visits what is made of the visits that the noting walk notes. -/
theorem walkClasses_eq_madeOf (room : Nat) (s : Shape) (visited : List Text) (log : List Visit) :
    (r.walkClasses visit room s (visited, madeOf visit start see log)).run see =
      ((r.walkClasses noteVisit room s (visited, log) : Seeing _).run see).map
        fun (visited, log) => (visited, madeOf visit start see log) := by
  -- By induction on the levels left.  Both walks stop at the same places, because what is made of
  -- visits decides nothing.
  induction room generalizing s visited log with
  | zero => rfl
  | succ room ih =>
    rw [run_walkClasses_succ, run_walkClasses_succ]
    split
    · rfl
    cases r.classOf? s with
    | none => rfl
    | some c =>
      dsimp only
      split
      · rfl
      cases (r.ownBindings c s : Seeing _).run see with
      | error e => rfl
      | ok bindings =>
        have hnote : ReaderT.run (noteVisit c bindings log : Seeing _) see =
            log ++ [⟨c, bindings⟩] := rfl
        dsimp only
        rw [hnote, ← madeOf_concat visit start log ⟨c, bindings⟩]
        exact walkBases_eq_madeOf visit start (fun s visited log => ih s visited log) _ _ _ _

/-- What a walk makes of its visits, it makes of the list of them. -/
theorem walkAll_eq_foldl (s : Shape) :
    (r.walkAll visit s start).run see =
      (r.visits see s).map fun log =>
        log.foldl (fun acc v => (visit v.cls v.bindings acc).run see) start := by
  show Except.map _ ((r.walkClasses visit (maxRecursion + 1) s
    ([], madeOf visit start see [])).run see) = Except.map _ (Except.map _
      ((r.walkClasses noteVisit (maxRecursion + 1) s ([], []) : Seeing _).run see))
  rw [walkClasses_eq_madeOf]
  cases (r.walkClasses noteVisit (maxRecursion + 1) s ([], []) : Seeing _).run see <;> rfl

end

/-! ## Where visits come from -/

/-- A shape leads to a visit: to its class, with the parameters bound to the arguments. -/
structure Enters (r : Registry) (see : View) (s : Shape) (v : Visit) : Prop where
  cls : r.classOf? s = some v.cls
  bindings : (r.ownBindings v.cls s : Seeing _).run see = .ok v.bindings

/-- The list of the visits that a walk from a shape has made so far.  No class is visited twice. -/
inductive Trail (r : Registry) (see : View) (s : Shape) : List Visit → Prop where
  | nil : Trail r see s []
  | first {v : Visit} : r.Enters see s v → Trail r see s [v]
  | base {log : List Visit} {u v : Visit} {base : TypeExpr} : Trail r see s log → u ∈ log →
    base ∈ u.cls.bases → r.Enters see (r.shapeSeen see (base.apply u.bindings)) v →
    v.cls.name ∉ log.map (·.cls.name) → Trail r see s (log ++ [v])

/-- A shape that a walk comes to: the one it starts from, or a base of a class visited before. -/
def Ahead (r : Registry) (see : View) (start : Shape) (log : List Visit) (s : Shape) : Prop :=
  log = [] ∧ s = start ∨
    ∃ u ∈ log, ∃ base ∈ u.cls.bases, s = r.shapeSeen see (base.apply u.bindings)

/-- A trail goes on to a shape that is ahead of it. -/
theorem Trail.concat {start s : Shape} {log : List Visit} {v : Visit} (h : r.Trail see start log)
    (hahead : r.Ahead see start log s) (henters : r.Enters see s v)
    (hnew : v.cls.name ∉ log.map (·.cls.name)) : r.Trail see start (log ++ [v]) := by
  obtain ⟨rfl, rfl⟩ | ⟨u, hu, base, hbase, rfl⟩ := hahead
  · exact .first henters
  · exact .base h hu hbase henters hnew

/-- The names of the classes in a list of visits, the last one first. -/
def entered (log : List Visit) : List Text :=
  (log.map (·.cls.name)).reverse

/-- The classes entered are those of the visits. -/
@[simp] theorem mem_entered {log : List Visit} {name : Text} :
    name ∈ entered log ↔ ∃ v ∈ log, v.cls.name = name := by
  simp [entered]

/-- A further visit enters its class. -/
@[simp] theorem entered_concat (log : List Visit) (v : Visit) :
    entered (log ++ [v]) = v.cls.name :: entered log := by
  simp [entered]

/-- What a walk keeps that has made the visits of `log` and ends well. -/
def Keeps (r : Registry) (see : View) (start : Shape) (log : List Visit)
    (outcome : Except Error (List Text × List Visit)) : Prop :=
  ∀ visited log', outcome = .ok (visited, log') →
    r.Trail see start log' ∧ visited = entered log' ∧ log <+: log'

/-- If going on from every shape ahead leaves a trail, so does going on from the bases of a visit.
-/
theorem keeps_walkBases {start : Shape}
    (walk : Shape → List Text × List Visit → Seeing (Except Error (List Text × List Visit)))
    (hwalk : ∀ s log, r.Trail see start log → r.Ahead see start log s →
      r.Keeps see start log ((walk s (entered log, log)).run see))
    {u : Visit} {bases : List TypeExpr} (hbases : ∀ base ∈ bases, base ∈ u.cls.bases)
    {log : List Visit} (hu : u ∈ log) (htrail : r.Trail see start log) :
    r.Keeps see start log ((r.walkBases walk u.bindings bases (entered log, log)).run see) := by
  -- By induction on the bases, along which the list of visits only grows.
  induction bases generalizing log with
  | nil =>
    rintro visited log' hrun
    cases hrun
    exact ⟨htrail, rfl, List.prefix_rfl⟩
  | cons base bases ih =>
    obtain ⟨hbase, hbases⟩ := List.forall_mem_cons.1 hbases
    intro visited log' hrun
    rw [run_walkBases_cons] at hrun
    have hfirst := hwalk _ log htrail (.inr ⟨u, hu, base, hbase, rfl⟩)
    rcases hout : (walk (r.shapeSeen see (base.apply u.bindings)) (entered log, log)).run see with
      e | ⟨visited₁, log₁⟩
    · rw [hout] at hrun
      cases hrun
    · -- The class that declares the bases is still in the longer list.
      rw [hout] at hrun
      obtain ⟨htrail₁, rfl, hprefix₁⟩ := hfirst _ _ hout
      obtain ⟨htrail', hvisited', hprefix'⟩ :=
        ih hbases (hprefix₁.subset hu) htrail₁ visited log' hrun
      exact ⟨htrail', hvisited', hprefix₁.trans hprefix'⟩

/-- Going on from a shape that it comes to, a walk leaves a trail. -/
theorem keeps_walkClasses {start : Shape} (room : Nat) {s : Shape} {log : List Visit}
    (htrail : r.Trail see start log) (hahead : r.Ahead see start log s) :
    r.Keeps see start log
      ((r.walkClasses noteVisit room s (entered log, log) : Seeing _).run see) := by
  -- By induction on the levels left.
  induction room generalizing s log with
  | zero =>
    intro visited log' hrun
    cases hrun
  | succ room ih =>
    have hstay : r.Keeps see start log (.ok (entered log, log)) := by
      rintro visited log' hrun
      cases hrun
      exact ⟨htrail, rfl, List.prefix_rfl⟩
    rw [run_walkClasses_succ]
    split
    · intro visited log' hrun
      cases hrun
    split
    · exact hstay
    · rename_i c hc
      split
      · exact hstay
      · rename_i hnew
        split
        · intro visited log' hrun
          cases hrun
        · -- The visit is noted first, so its bases are ahead of the longer list.
          rename_i bindings hbindings
          let v : Visit := ⟨c, bindings⟩
          have hnew' : v.cls.name ∉ log.map (·.cls.name) := by
            simpa [v] using hnew
          have htrail' : r.Trail see start (log ++ [v]) :=
            htrail.concat hahead ⟨hc, hbindings⟩ hnew'
          have hrest := keeps_walkBases (r.walkClasses noteVisit room)
            (fun s log htrail hahead => ih htrail hahead) (u := v) (fun _ h => h)
            (List.mem_append_right log (List.mem_singleton_self v)) htrail'
          rw [entered_concat] at hrest
          intro visited log' hrun
          obtain ⟨hdone, hvisited, hprefix⟩ := hrest visited log' hrun
          exact ⟨hdone, hvisited, (List.prefix_append log [v]).trans hprefix⟩

/-- The walk behind a list of visits. -/
theorem run_of_visits {s : Shape} {log : List Visit} (h : r.visits see s = .ok log) :
    ∃ visited, (r.walkClasses noteVisit (maxRecursion + 1) s ([], []) : Seeing _).run see =
      .ok (visited, log) := by
  -- The visits are the second part of what the walk gives.
  have hmap : ((r.walkClasses noteVisit (maxRecursion + 1) s ([], []) : Seeing _).run see).map
      (·.2) = .ok log := h
  rcases hrun : (r.walkClasses noteVisit (maxRecursion + 1) s ([], []) : Seeing _).run see with
    e | ⟨visited, log'⟩
  · rw [hrun] at hmap
    cases hmap
  · rw [hrun] at hmap
    cases hmap
    exact ⟨visited, rfl⟩

/-- The visits of a walk that ends well are a trail. -/
theorem trail_of_visits {s : Shape} {log : List Visit} (h : r.visits see s = .ok log) :
    r.Trail see s log := by
  obtain ⟨visited, hrun⟩ := run_of_visits h
  have hkeeps : r.Keeps see s []
      ((r.walkClasses noteVisit (maxRecursion + 1) s ([], []) : Seeing _).run see) :=
    keeps_walkClasses _ .nil (.inl ⟨rfl, rfl⟩)
  exact (hkeeps visited log hrun).1

/-- Every visit but the first is to the class of a base that an earlier class declares. -/
theorem Trail.exists_base {s : Shape} {before after : List Visit} {v : Visit}
    (h : r.Trail see s (before ++ v :: after)) (hbefore : before ≠ []) :
    ∃ u ∈ before, ∃ base ∈ u.cls.bases,
      r.Enters see (r.shapeSeen see (base.apply u.bindings)) v := by
  -- By induction on the trail, from its last visit.
  generalize hlog : before ++ v :: after = log at h
  induction h generalizing after with
  | nil => simp at hlog
  | first _ =>
    have hlen := congrArg List.length hlog
    have hpos := List.length_pos_iff.2 hbefore
    simp only [List.length_append, List.length_cons, List.length_nil] at hlen
    omega
  | @base log u w base _ hu hbase henters _ ih =>
    -- Either this is the last visit, or it was in the list before that one.
    obtain rfl | ⟨after', w', rfl⟩ := List.eq_nil_or_concat after
    · obtain ⟨rfl, heq⟩ := List.append_inj' hlog rfl
      obtain rfl := List.singleton_inj.1 heq
      exact ⟨u, hu, base, hbase, henters⟩
    · have hsplit : (before ++ v :: after') ++ [w'] = log ++ [w] := by simpa using hlog
      exact ih (List.append_inj' hsplit rfl).1

/-- The class that is entered stands under its name. -/
theorem Enters.class? (hr : r.WellDeclared) {s : Shape} {v : Visit} (h : r.Enters see s v) :
    r.class? v.cls.name = some v.cls := by
  have hcls := h.cls
  unfold classOf? at hcls
  split at hcls
  · rw [(hr _ _ hcls).name_eq]
    exact hcls
  · cases hcls

/-- The classes that a walk visits are those of the registry. -/
theorem Trail.class? (hr : r.WellDeclared) {s : Shape} {log : List Visit}
    (h : r.Trail see s log) : ∀ v ∈ log, r.class? v.cls.name = some v.cls := by
  induction h with
  | nil => simp
  | first henters => exact List.forall_mem_singleton.2 (henters.class? hr)
  | base _ _ _ henters _ ih =>
    exact List.forall_mem_append.2 ⟨ih, List.forall_mem_singleton.2 (henters.class? hr)⟩

end Registry

/-! ## The walk of an engine -/

/-- The walk of an engine, told by what its memo shows in the end. -/
theorem Engine.run_visitsM (e : Engine) (s : Shape) :
    (e.run (e.registry.visitsM s)).1 =
      some (e.registry.visits (e.run (e.registry.visitsM s)).2.memo.view s) := by
  have halike := e.run_of_alike (e.registry.visitsM s) fun S =>
    S.walkAll e.registry (fun _ _ _ => S.rel_pure _) s []
  exact halike.2.2.2 _ (Memo.view_agrees _)

end TypeShape
