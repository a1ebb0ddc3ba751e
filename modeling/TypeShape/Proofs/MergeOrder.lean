import TypeShape.Proofs.InferenceRuns

/-!
# Merging in any order

Shapes that are merged are put in the order of their texts, so that it should not matter in which
order they are met.  But of equal shapes the first is kept, and equal shapes may have different
texts: a union with `Nil` is spelled in two ways.  So the order does not matter exactly if equal
shapes stand on the same side of every other shape, whichever of their texts is looked at.  Shapes
that are not equal then have different texts, and the sort need not be stable.

A map is enumerated in any order, and in a new one each time that it is met.  All that may be
inferred for a value is one shape, up to equality, if texts order the shapes that are merged on the
way.

## Key results

- `Registry.same_mergeShapes`: lists with the same shapes are merged into equal shapes, if texts order them
- `Registry.forall_perm_same_mergeShapes_iff`: texts have to order the shapes of a list
- `Registry.MayInfer.same`: all that may be inferred for a value is equal
- `Registry.mayInfer_inferSeen`: hosts that list entries in another order are such enumerations
- `Engine.merge_infer_any_order`: the same for the engine
-/

namespace TypeShape

open Relation (ReflTransGen)

/-! ## Texts in order -/

namespace Text

/-- The order of texts is the order of lists of bytes. -/
theorem le_iff {s t : Text} : le s t = true ↔ s ≤ t := by
  induction s generalizing t with
  -- The order of texts is defined byte by byte, as that of lists is.
  | nil => simp [le]
  | cons a as ih =>
    cases t with
    | nil => simp [le]
    | cons b bs =>
      rw [le, List.cons_le_cons_iff, ← ih]
      rcases Std.Trichotomous.rel_or_eq_or_rel_swap (r := fun a b : UInt8 => a < b)
        (a := a) (b := b) with hlt | rfl | hgt
      · simp [hlt]
      · simp
      · have hne : a ≠ b := fun heq => absurd hgt (heq ▸ UInt8.lt_irrefl b)
        have hnot : ¬ a < b := fun hlt => absurd hgt (UInt8.lt_asymm hlt)
        simp [hgt, hne, hnot]

/-- The order of texts is transitive. -/
theorem le_trans {s t u : Text} (hst : le s t = true) (htu : le t u = true) : le s u = true :=
  le_iff.2 (List.le_trans (le_iff.1 hst) (le_iff.1 htu))

/-- Of two texts, one is before the other. -/
theorem le_total (s t : Text) : (le s t || le t s) = true := by
  simpa only [Bool.or_eq_true, le_iff] using List.le_total s t

/-- Two texts that are before each other are the same. -/
theorem le_antisymm {s t : Text} (hst : le s t = true) (hts : le t s = true) : s = t :=
  List.le_antisymm (le_iff.1 hst) (le_iff.1 hts)

end Text

namespace Shape

/-- Texts order shapes, if equal shapes stand on the same side of every other one: no two shapes
that are not equal have texts in one order, and others that are equal to them in the other order. -/
def OrderedByText (P : Shape → Prop) : Prop :=
  ∀ a a' b b', P a → P a' → P b → P b' → a.same a' = true → b.same b' = true →
    Text.le a.render b.render = true → Text.le b'.render a'.render = true → a.same b = true

/-- Texts order shapes if they tell which ones are equal. -/
theorem orderedByText_of_texts {P : Shape → Prop} {known : List Shape} (hP : ∀ s, P s → s ∈ known)
    (htexts : ∀ a ∈ known, ∀ b ∈ known, (a.same b = true ↔ a.render = b.render)) :
    OrderedByText P := by
  intro a a' b b' ha ha' hb hb' haa' hbb' hab hba
  have htexts {a b : Shape} (ha : P a) (hb : P b) := htexts a (hP a ha) b (hP b hb)
  rw [← (htexts ha ha').1 haa', ← (htexts hb hb').1 hbb'] at hba
  exact (htexts ha hb).2 (Text.le_antisymm hab hba)

end Shape

namespace Registry

open Shape

/-! ## Distinct shapes in order -/

/-- The distinct shapes of a list differ from each other. -/
theorem pairwise_distinctShapes {kept shapes : List Shape}
    (hkept : kept.Pairwise fun a b => a.same b = false) :
    (distinctShapes kept shapes).Pairwise fun a b => a.same b = false := by
  -- By induction on the shapes, for those kept so far; a shape is kept if it differs from them.
  induction shapes generalizing kept with
  | nil => exact hkept
  | cons s rest ih =>
    rw [distinctShapes]
    split
    · exact ih hkept
    · rename_i hnew
      refine ih (List.pairwise_append.2 ⟨hkept, List.pairwise_singleton _ _, fun k hk t ht => ?_⟩)
      rw [List.mem_singleton.1 ht, same_comm]
      by_contra hsame
      exact hnew (List.any_eq_true.2 ⟨k, hk, by simpa using hsame⟩)

/-- Shapes that are kept stay at the front. -/
theorem prefix_distinctShapes (kept shapes : List Shape) : kept <+: distinctShapes kept shapes := by
  induction shapes generalizing kept with
  | nil => exact List.prefix_rfl
  | cons s rest ih =>
    rw [distinctShapes]
    split
    · exact ih kept
    · exact (List.prefix_append kept [s]).trans (ih _)

/-- The shapes are sorted, and no two of them are equal. -/
theorem pairwise_sortedShapes (shapes : List Shape) : (sortedShapes shapes).Pairwise fun a b =>
    Text.le a.render b.render = true ∧ a.same b = false := by
  refine List.pairwise_and_iff.2 ⟨?_, ?_⟩
  · exact @List.pairwise_mergeSort _ (fun a b : Shape => Text.le a.render b.render)
      (fun _ _ _ => Text.le_trans) (fun _ _ => Text.le_total _ _) _
  · refine (pairwise_distinctShapes .nil).perm (List.mergeSort_perm _ _).symm fun hab => ?_
    rwa [same_comm]

/-- Two shapes at the front that are not equal are kept, and stay in order if their texts are. -/
theorem sublist_sortedShapes {a b : Shape} (hne : a.same b = false)
    (hle : Text.le a.render b.render = true) (rest : List Shape) :
    [a, b].Sublist (sortedShapes (a :: b :: rest)) := by
  refine List.pair_sublist_mergeSort (fun _ _ _ => Text.le_trans) (fun _ _ => Text.le_total _ _)
    hle ?_
  have hdistinct : distinctShapes [] (a :: b :: rest) = distinctShapes [a, b] rest := by
    simp [distinctShapes, same_comm b a, hne]
  rw [hdistinct]
  exact (prefix_distinctShapes [a, b] rest).sublist

/-- Two shapes that stay distinct make the merged shape a union. -/
theorem mergeShapes_eq_unionOf {shapes : List Shape} {a b : Shape}
    (hab : [a, b].Sublist (sortedShapes shapes)) :
    mergeShapes shapes = .unionOf (sortedShapes shapes) := by
  rw [mergeShapes_eq]
  split
  · rename_i hsingle
    rw [hsingle] at hab
    exact absurd hab.length_le (by simp)
  · rfl

/-- Two unions are the same if their branches are, one by one. -/
theorem same_unionOf_iff {as bs : List Shape} : (unionOf as).same (unionOf bs) = true ↔
    List.Forall₂ (fun a b => a.same b = true) as bs := by
  rw [unionOf, unionOf, same, Origin.same_refl, Bool.true_and, sameSlots_map_single,
    sameAll_iff_forall₂]

/-- Shapes that are the same one by one when sorted are merged into equal shapes. -/
theorem same_mergeShapes_of_forall₂ {as bs : List Shape}
    (h : List.Forall₂ (fun a b => a.same b = true) (sortedShapes as) (sortedShapes bs)) :
    (mergeShapes as).same (mergeShapes bs) = true := by
  rw [mergeShapes_eq, mergeShapes_eq]
  generalize sortedShapes as = as at h ⊢
  generalize sortedShapes bs = bs at h ⊢
  match h with
  | .nil => exact same_refl _
  | .cons hab .nil => exact hab
  | .cons hab (.cons hab' h) => exact same_unionOf_iff.2 (.cons hab (.cons hab' h))

/-! ## Merging in any order -/

/-- A shape that is not like the first one has its like further on. -/
theorem exists_same_tail {a b x : Shape} {bs : List Shape} (hab : a.same b = true)
    (hax : a.same x = false) (hx : ∃ y ∈ b :: bs, x.same y = true) :
    ∃ y ∈ bs, x.same y = true := by
  obtain ⟨y, hy, hxy⟩ := hx
  obtain rfl | hy := List.mem_cons.1 hy
  · exact absurd (same_trans hab (same_symm hxy)) (by simp [hax])
  · exact ⟨y, hy, hxy⟩

/-- Two sorted lists of distinct shapes agree if texts order the shapes, and each shape of the one
has its like in the other. -/
theorem forall₂_same_of_sorted {P : Shape → Prop} (hP : OrderedByText P) {as bs : List Shape}
    (has : ∀ a ∈ as, P a) (hbs : ∀ b ∈ bs, P b)
    (hsorted : as.Pairwise fun a b => Text.le a.render b.render = true ∧ a.same b = false)
    (hsorted' : bs.Pairwise fun a b => Text.le a.render b.render = true ∧ a.same b = false)
    (hlike : ∀ a ∈ as, ∃ b ∈ bs, a.same b = true) (hlike' : ∀ b ∈ bs, ∃ a ∈ as, b.same a = true) :
    List.Forall₂ (fun a b => a.same b = true) as bs := by
  -- The first shapes of the two lists have to be alike, and then the rests are so by induction.
  induction as generalizing bs with
  | nil =>
    cases bs with
    | nil => exact .nil
    | cons b bs =>
      obtain ⟨a, ha, -⟩ := hlike' b List.mem_cons_self
      cases ha
  | cons a as ih =>
    cases bs with
    | nil =>
      obtain ⟨b, hb, -⟩ := hlike a List.mem_cons_self
      cases hb
    | cons b bs =>
      obtain ⟨hPa, hPas⟩ := List.forall_mem_cons.1 has
      obtain ⟨hPb, hPbs⟩ := List.forall_mem_cons.1 hbs
      obtain ⟨ha, has⟩ := List.pairwise_cons.1 hsorted
      obtain ⟨hb, hbs⟩ := List.pairwise_cons.1 hsorted'
      have hab : a.same b = true := by
        obtain ⟨b', hb', hab'⟩ := hlike a List.mem_cons_self
        obtain ⟨a', ha', hba'⟩ := hlike' b List.mem_cons_self
        obtain rfl | hb' := List.mem_cons.1 hb'
        · exact hab'
        obtain rfl | ha' := List.mem_cons.1 ha'
        · exact same_symm hba'
        -- The first shapes have their likes further on, and these are in the wrong order.
        have hsame := hP a b' a' b hPa (hPbs b' hb') (hPas a' ha') hPb hab' (same_symm hba')
          (ha a' ha').1 (hb b' hb').1
        exact absurd hsame (by simp [(ha a' ha').2])
      refine .cons hab (ih hPas hPbs has hbs (fun x hx => ?_) fun y hy => ?_)
      · exact exists_same_tail hab (ha x hx).2 (hlike x (List.mem_cons_of_mem a hx))
      · exact exists_same_tail (same_symm hab) (hb y hy).2 (hlike' y (List.mem_cons_of_mem b hy))

/-- If texts order the shapes of two lists, and each shape of the one has its like in the other, the
lists are merged into equal shapes. -/
theorem same_mergeShapes {P : Shape → Prop} (hP : OrderedByText P) {as bs : List Shape}
    (has : ∀ a ∈ as, P a) (hbs : ∀ b ∈ bs, P b)
    (hlike : ∀ a ∈ as, ∃ b ∈ bs, a.same b = true) (hlike' : ∀ b ∈ bs, ∃ a ∈ as, b.same a = true) :
    (mergeShapes as).same (mergeShapes bs) = true := by
  -- Sorting keeps a like of every shape.
  have hsorted {as bs : List Shape} (hlike : ∀ a ∈ as, ∃ b ∈ bs, a.same b = true) :
      ∀ a ∈ sortedShapes as, ∃ b ∈ sortedShapes bs, a.same b = true := by
    intro a ha
    obtain ⟨b, hb, hab⟩ := hlike a (mem_of_mem_sortedShapes ha)
    obtain ⟨b', hb', hbb'⟩ := exists_same_of_mem_sortedShapes hb
    exact ⟨b', hb', same_trans hab hbb'⟩
  exact same_mergeShapes_of_forall₂ (forall₂_same_of_sorted hP
    (fun a ha => has a (mem_of_mem_sortedShapes ha))
    (fun b hb => hbs b (mem_of_mem_sortedShapes hb))
    (pairwise_sortedShapes as) (pairwise_sortedShapes bs) (hsorted hlike) (hsorted hlike'))

/-- Two lists of distinct shapes that agree have no two shapes in one order, and their likes in the
other. -/
theorem not_crossed_of_forall₂_same {as bs : List Shape}
    (hall : List.Forall₂ (fun a b => a.same b = true) as bs)
    (hdistinct : bs.Pairwise fun a b => a.same b = false) {a a' b b' : Shape}
    (haa' : a.same a' = true) (hbb' : b.same b' = true) (hab : [a, b].Sublist as) :
    ¬ [b', a'].Sublist bs := by
  intro hba
  induction hall with
  | nil => cases hba
  | @cons x y as bs hxy hall ih =>
    obtain ⟨hy, hbs⟩ := List.pairwise_cons.1 hdistinct
    have ha' : a' ∈ bs := by
      cases hba with
      | cons _ hba => exact hba.subset (List.mem_cons_of_mem b' (List.mem_singleton_self a'))
      | cons_cons _ hba => exact List.singleton_sublist.1 hba
    cases hab with
    | cons_cons _ hb =>
      -- The first shapes are like `a`, and so is one further on.
      exact absurd (same_trans (same_symm hxy) haa') (by simp [hy a' ha'])
    | cons _ hab =>
      cases hba with
      | cons _ hba => exact ih hbs hab hba
      | cons_cons _ _ =>
        -- The first shapes are like `b`, and so is one further on.
        have hb := hab.subset (List.mem_cons_of_mem a (List.mem_singleton_self b))
        obtain ⟨b'', hb'', hbb''⟩ := exists_of_forall₂ hall hb
        exact absurd (same_trans (same_symm hbb') hbb'') (by simp [hy b'' hb''])

/-- Two distinct shapes of a list may be put at its front. -/
theorem exists_perm_pair {shapes : List Shape} {a b : Shape} (ha : a ∈ shapes) (hb : b ∈ shapes)
    (hne : a.same b = false) : ∃ rest, shapes.Perm (a :: b :: rest) := by
  classical
  have hba : b ≠ a := by
    rintro rfl
    simp at hne
  have hb : b ∈ shapes.erase a := (List.mem_erase_of_ne hba).2 hb
  exact ⟨_, (List.perm_cons_erase ha).trans ((List.perm_cons_erase hb).cons a)⟩

/-- Merging does not depend on the order of the shapes exactly if texts order them. -/
theorem forall_perm_same_mergeShapes_iff (shapes : List Shape) :
    (∀ other, shapes.Perm other → (mergeShapes shapes).same (mergeShapes other) = true) ↔
      OrderedByText (· ∈ shapes) := by
  constructor
  -- If two shapes could change places with their likes, two orders of the list would merge
  -- differently.
  · intro hall a a' b b' ha ha' hb hb' haa' hbb' hle hle'
    by_contra hab
    have hab : a.same b = false := by simpa using hab
    have hba' : b'.same a' = false := by
      by_contra hsame
      have hsame : b'.same a' = true := by simpa using hsame
      have := same_trans haa' (same_symm (same_trans hbb' hsame))
      simp [hab] at this
    -- One order has `a` and `b` at the front, and another has their likes there the other way round.
    obtain ⟨rest, hperm⟩ := exists_perm_pair ha hb hab
    obtain ⟨rest', hperm'⟩ := exists_perm_pair hb' ha' hba'
    have hsub := sublist_sortedShapes hab hle rest
    have hsub' := sublist_sortedShapes hba' hle' rest'
    have hsame := same_trans (same_symm (hall _ hperm)) (hall _ hperm')
    rw [mergeShapes_eq_unionOf hsub, mergeShapes_eq_unionOf hsub', same_unionOf_iff] at hsame
    have hdistinct := (pairwise_sortedShapes (b' :: a' :: rest')).imp And.right
    exact not_crossed_of_forall₂_same hsame hdistinct haa' hbb' hsub hsub'
  · intro hP other hperm
    exact same_mergeShapes hP (fun s hs => hs) (fun s hs => hperm.mem_iff.2 hs)
      (fun s hs => ⟨s, hperm.mem_iff.1 hs, same_refl s⟩)
      (fun s hs => ⟨s, hperm.mem_iff.2 hs, same_refl s⟩)

/-! ## Maps in any order -/

variable {r : Registry} {see : View} {h h' : Host} {maxSample : Int} {depth limit : Nat}
variable {visiting : List Nat} {v w : Value} {s t : Shape}

/-- The values in a container whose shapes are merged into one. -/
def Contents.merged (maxSample : Int) : Contents → List (List Value)
  | .none | .positions _ => []
  | .elements items => [parts maxSample (.elements items)]
  | .entries es => [es.map (·.1), es.map (·.2)]

/-- A shape that a container may have, if `shapes` are those that the values in it may have, and its
entries are enumerated in any order. -/
inductive Contents.MayShape (maxSample : Int) (shapes : Value → Shape → Prop) :
    Contents → Shape → Prop where
  | positions {items : List Value} {ss : List Shape} : List.Forall₂ shapes items ss →
    MayShape maxSample shapes (.positions items) (.ofClass Name.tuple ss)
  | elements {items : List Value} {ss : List Shape} :
    List.Forall₂ shapes (parts maxSample (.elements items)) ss →
    MayShape maxSample shapes (.elements items) (.ofClass Name.list [mergeShapes ss])
  | entries {es es' : List (Value × Value)} {keys values : List Shape} : es.Perm es' →
    List.Forall₂ shapes (es'.map (·.1)) keys → List.Forall₂ shapes (es'.map (·.2)) values →
    MayShape maxSample shapes (.entries es)
      (.ofClass Name.map [mergeShapes keys, mergeShapes values])

/-- A shape that may be inferred for a value, if each map is enumerated in any order, and in a new
one each time that it is met. -/
def MayInfer (r : Registry) (see : View) (h : Host) (maxSample : Int) :
    Nat → List Nat → Value → Shape → Prop
  | 0, visiting, v, s =>
    match r.land h (h.cells.size + 1) visiting v with
    | (_, .repeated type) => s = r.hostShape h.definitions 0 type
    | (_, .value w) => s = r.plainSeen see h 0 w
  | depth + 1, visiting, v, s =>
    match r.land h (h.cells.size + 1) visiting v with
    | (_, .repeated type) => s = r.hostShape h.definitions 0 type
    | (visiting', .value w) =>
      r.contents h w = .none ∧ s = r.plainSeen see h (depth + 1) w ∨
        (r.contents h w).MayShape maxSample (MayInfer r see h maxSample depth visiting') s

/-- Wherever the shapes of values are merged in an inference with less than `limit` levels left,
their texts order them. -/
def OrdersMerges (r : Registry) (see : View) (h : Host) (maxSample : Int) (limit : Nat)
    (v : Value) : Prop :=
  ∀ w, ReflTransGen h.Leads v w → ∀ group ∈ (r.contents h w).merged maxSample,
    ∀ depth < limit, ∀ visiting,
      OrderedByText fun s => ∃ x ∈ group, r.MayInfer see h maxSample depth visiting x s

/-- Texts that order what is merged for a value do so for every value it leads to. -/
theorem OrdersMerges.of_leads (hv : r.OrdersMerges see h maxSample limit v)
    (hw : ReflTransGen h.Leads v w) : r.OrdersMerges see h maxSample limit w :=
  fun u hu => hv u (hw.trans hu)

/-- Values that may have equal shapes only are merged into equal shapes, in any order. -/
theorem same_mergeShapes_of_group {shapes : Value → Shape → Prop} {group xs ys : List Value}
    {ss ts : List Shape} (hP : OrderedByText fun s => ∃ x ∈ group, shapes x s)
    (hsame : ∀ x ∈ group, ∀ s t, shapes x s → shapes x t → s.same t = true)
    (hxs : group.Perm xs) (hys : group.Perm ys) (hss : List.Forall₂ shapes xs ss)
    (hts : List.Forall₂ shapes ys ts) : (mergeShapes ss).same (mergeShapes ts) = true := by
  -- Each list of shapes belongs to the values of the group, so each has a like in the other.
  have hvalue {xs : List Value} {ss : List Shape} (hxs : group.Perm xs)
      (hss : List.Forall₂ shapes xs ss) : ∀ s ∈ ss, ∃ x ∈ group, shapes x s := by
    intro s hs
    obtain ⟨x, hx, hxs'⟩ := exists_of_forall₂ hss.flip hs
    exact ⟨x, hxs.mem_iff.2 hx, hxs'⟩
  have hlike {xs ys : List Value} {ss ts : List Shape} (hxs : group.Perm xs)
      (hys : group.Perm ys) (hss : List.Forall₂ shapes xs ss) (hts : List.Forall₂ shapes ys ts) :
      ∀ s ∈ ss, ∃ t ∈ ts, s.same t = true := by
    intro s hs
    obtain ⟨x, hx, hxs⟩ := hvalue hxs hss s hs
    obtain ⟨t, ht, hxt⟩ := exists_of_forall₂ hts (hys.mem_iff.1 hx)
    exact ⟨t, ht, hsame x hx s t hxs hxt⟩
  exact same_mergeShapes hP (hvalue hxs hss) (hvalue hys hts) (hlike hxs hys hss hts)
    (hlike hys hxs hts hss)

/-- Classes applied to arguments that are the same one by one are the same. -/
theorem same_ofClass (name : Text) {as bs : List Shape}
    (h : List.Forall₂ (fun a b => a.same b = true) as bs) :
    (ofClass name as).same (ofClass name bs) = true := by
  cases h with
  | nil => exact same_refl _
  | cons hab h =>
    have hall := sameAll_iff_forall₂.2 (List.Forall₂.cons hab h)
    simp only [ofClass, List.isEmpty_cons, Bool.false_eq_true, if_false, same, Origin.same_refl,
      sameSlots_map_single, hall, Bool.and_self]

/-- All shapes that the contents of a value may have are equal, if texts order what is merged and
the parts have equal shapes. -/
theorem Contents.MayShape.same {c : Contents} {shapes : Value → Shape → Prop}
    (hP : ∀ group ∈ c.merged maxSample, OrderedByText fun s => ∃ x ∈ group, shapes x s)
    (hsame : ∀ x ∈ c.parts maxSample, ∀ s t, shapes x s → shapes x t → s.same t = true)
    (hs : c.MayShape maxSample shapes s) (ht : c.MayShape maxSample shapes t) :
    s.same t = true := by
  -- Positions keep their order; elements and entries are merged.
  cases hs with
  | positions hss =>
    cases ht with
    | positions hts =>
      exact same_ofClass Name.tuple
        (forall₂_trans_of_mem (fun s _ x hx t _ hs ht => hsame x hx s t hs ht) hss.flip hts)
  | elements hss =>
    cases ht with
    | elements hts =>
      have hP := hP _ (List.mem_singleton_self _)
      exact same_ofClass Name.list
        (.cons (same_mergeShapes_of_group hP hsame (.refl _) (.refl _) hss hts) .nil)
  | entries hperm hkeys hvalues =>
    cases ht with
    | entries hperm' hkeys' hvalues' =>
      obtain ⟨hPkeys, hP⟩ := List.forall_mem_cons.1 hP
      have hPvalues := hP _ (List.mem_singleton_self _)
      obtain ⟨hsamekeys, hsamevalues⟩ := forall_mem_entries.1 hsame
      refine same_ofClass Name.map (.cons ?_ (.cons ?_ .nil))
      · exact same_mergeShapes_of_group hPkeys (List.forall_mem_map.2 hsamekeys) (hperm.map _)
          (hperm'.map _) hkeys hkeys'
      · exact same_mergeShapes_of_group hPvalues (List.forall_mem_map.2 hsamevalues) (hperm.map _)
          (hperm'.map _) hvalues hvalues'

/-- A value that is not entered has one shape only. -/
theorem eq_plainSeen_of_mayInfer (hv : ∀ type a, v ≠ .pointer type (some a))
    (hnone : r.contents h v = .none) (hs : r.MayInfer see h maxSample depth visiting v s) :
    s = r.plainSeen see h depth v := by
  have hland := land_value (r := r) (h := h) (h.cells.size + 1) visiting hv
  -- With no depth left there is one form of the answer, else the contents decide.
  cases depth with
  | zero =>
    simp only [MayInfer, hland] at hs
    exact hs
  | succ depth =>
    simp only [MayInfer, hland] at hs
    obtain ⟨-, rfl⟩ | hs := hs
    · rfl
    · rw [hnone] at hs
      cases hs

/-- All shapes that may be inferred for a value are equal, if texts order the shapes that are
merged. -/
theorem MayInfer.same (hv : r.OrdersMerges see h maxSample limit v) (hdepth : depth ≤ limit)
    (hs : r.MayInfer see h maxSample depth visiting v s)
    (ht : r.MayInfer see h maxSample depth visiting v t) : s.same t = true := by
  -- The induction is on the depth; a value leads to its parts, which have one level less.
  induction depth generalizing visiting v s t with
  | zero =>
    rcases hland : r.land h (h.cells.size + 1) visiting v with ⟨visiting', w | type⟩
    all_goals
      simp only [MayInfer, hland] at hs ht
      rw [hs, ht]
      exact same_refl _
  | succ depth ih =>
    have hlands := lands_land_size (r := r) (h := h) visiting v
    simp only [MayInfer] at hs ht
    rcases hland : r.land h (h.cells.size + 1) visiting v with ⟨visiting', w | type⟩
    all_goals
      rw [hland] at hlands
      simp only [hland] at hs ht
    -- A value without contents has one shape; one with contents has what these may have.
    · have hw := hv.of_leads hlands.leads
      obtain ⟨hnone, rfl⟩ | hs := hs
      · obtain ⟨-, rfl⟩ | ht := ht
        · exact same_refl _
        · rw [hnone] at ht
          cases ht
      obtain ⟨hnone, rfl⟩ | ht := ht
      · rw [hnone] at hs
        cases hs
      refine hs.same (fun group hgroup => hw w .refl group hgroup depth (by omega) visiting')
        (fun x hx s t => ?_) ht
      exact ih (hw.of_leads (.single (leads_of_mem_parts hx))) (by omega)
    · rw [hs, ht]
      exact same_refl _

end Registry

/-! ## Hosts that list entries in another order -/

/-- Two hosts that differ only in the order in which maps list their entries. -/
structure Host.Reordered (h h' : Host) : Prop where
  definitions : h'.definitions = h.definitions
  size : h'.cells.size = h.cells.size
  valueAt : ∀ a, h'.valueAt a = h.valueAt a
  itemsAt : ∀ a n, h'.itemsAt a n = h.itemsAt a n
  entriesAt : ∀ a, (h.entriesAt a).Perm (h'.entriesAt a)

/-- A host lists its entries in the order in which it lists them. -/
theorem Host.Reordered.refl (h : Host) : h.Reordered h :=
  ⟨rfl, rfl, fun _ => rfl, fun _ _ => rfl, fun _ => .refl _⟩

namespace Registry

variable {r : Registry} {see : View} {h h' : Host} {maxSample : Int} {depth : Nat}
variable {visiting : List Nat} {v w : Value} {s : Shape}

/-- Following pointers does not depend on the order of entries. -/
theorem land_reordered (hre : h.Reordered h') (fuel : Nat) :
    r.land h' fuel visiting v = r.land h fuel visiting v := by
  -- By induction on the bound; the cells that pointers lead to are the same.
  induction fuel generalizing visiting v with
  | zero => rfl
  | succ fuel ih =>
    unfold land
    split
    · rename_i heq
      cases heq
      split
      · rfl
      split
      · rfl
      · rw [hre.valueAt, ih]
    · rfl

/-- Following pointers as far as they go does not depend on the order of entries. -/
theorem land_reordered_size (hre : h.Reordered h') :
    r.land h' (h'.cells.size + 1) visiting v = r.land h (h.cells.size + 1) visiting v := by
  rw [hre.size, land_reordered hre]

/-- The shape of a value that is not entered does not depend on the order of entries. -/
theorem plainSeen_reordered (hre : h.Reordered h') (depth : Nat) (v : Value) :
    r.plainSeen see h' depth v = r.plainSeen see h depth v := by
  unfold plainSeen inferPlain
  rw [hre.definitions]

/-- The contents of a container, or the same entries in another order. -/
inductive Contents.Reordered : Contents → Contents → Prop where
  | refl (c : Contents) : Reordered c c
  | entries {es es' : List (Value × Value)} : es.Perm es' → Reordered (.entries es) (.entries es')

/-- Contents in another order are there if the contents are. -/
theorem Contents.Reordered.eq_none {c c' : Contents} (hc : c.Reordered c') (hnone : c' = .none) :
    c = .none := by
  cases hc with
  | refl => exact hnone
  | entries _ => cases hnone

/-- The contents of a value differ in the order of the entries of a map only. -/
theorem contents_reordered (hre : h.Reordered h') (v : Value) :
    (r.contents h v).Reordered (r.contents h' v) := by
  -- Only the entries of a map may come in another order; emptiness is the same for both.
  cases v with
  | map key value a =>
    have hperm := hre.entriesAt a
    simp only [contents]
    split
    · exact .refl _
    generalize h.entriesAt a = es at hperm ⊢
    generalize h'.entriesAt a = es' at hperm ⊢
    cases es with
    | nil =>
      rw [hperm.nil_eq]
      exact .refl _
    | cons e es =>
      cases es' with
      | nil => exact absurd hperm.eq_nil (List.cons_ne_nil e es)
      | cons e' es' => exact .entries hperm
  | tuple a n | slice elem a n =>
    simp only [contents, hre.itemsAt]
    exact .refl _
  | _ => exact .refl _

/-- A shape that is made of the shapes of the parts, in the order of the one or the other. -/
theorem Contents.mayShape_of_shape? {c c' : Contents} {shapes : Value → Shape → Prop}
    {f : Value → Shape} (hc : c.Reordered c') (hs : c'.shape? maxSample f = some s)
    (hf : ∀ x ∈ c.parts maxSample, shapes x (f x)) : c.MayShape maxSample shapes s := by
  have hall {xs : List Value} (hf : ∀ x ∈ xs, shapes x (f x)) :
      List.Forall₂ shapes xs (xs.map f) := by
    rw [List.forall₂_map_right_iff, List.forall₂_same]
    exact hf
  -- Keys and values are merged apart from each other, each in the other order.
  have hentries {es es' : List (Value × Value)} (hperm : es.Perm es')
      (hf : ∀ x ∈ parts maxSample (.entries es), shapes x (f x)) :
      (entries es).MayShape maxSample shapes (.ofClass Name.map
        [mergeShapes (es'.map (f ·.1)), mergeShapes (es'.map (f ·.2))]) := by
    obtain ⟨hkeys, hvalues⟩ := forall_mem_entries.1 hf
    have hkeys := hall (List.forall_mem_map.2 fun e he => hkeys e (hperm.mem_iff.2 he))
    have hvalues := hall (List.forall_mem_map.2 fun e he => hvalues e (hperm.mem_iff.2 he))
    rw [List.map_map] at hkeys hvalues
    exact .entries hperm hkeys hvalues
  cases hc with
  | entries hperm =>
    cases hs
    exact hentries hperm hf
  | refl =>
    cases c with
    | none => cases hs
    | positions items =>
      cases hs
      exact .positions (hall hf)
    | elements items =>
      cases hs
      exact .elements (hall hf)
    | entries es =>
      cases hs
      exact hentries (.refl es) hf

/-- What is inferred on a host is what may be inferred on any other that lists entries in another
order. -/
theorem mayInfer_inferSeen (hre : h.Reordered h') :
    r.MayInfer see h maxSample depth visiting v
      (r.inferSeen see h' maxSample depth visiting v) := by
  -- The induction is on the depth, as both sides go down into the parts of a value.
  induction depth generalizing visiting v with
  | zero =>
    rcases hland : r.land h (h.cells.size + 1) visiting v with ⟨visiting', w | type⟩
    all_goals
      have hland' := (land_reordered_size hre).trans hland
      simp only [MayInfer, hland]
    · rw [inferSeen_plain hland' (.inl rfl), plainSeen_reordered hre]
    · rw [inferSeen_repeated hland', hre.definitions]
  | succ depth ih =>
    rcases hland : r.land h (h.cells.size + 1) visiting v with ⟨visiting', w | type⟩
    all_goals
      have hland' := (land_reordered_size hre).trans hland
      simp only [MayInfer, hland]
    · have hcontents := contents_reordered (r := r) hre w
      cases hshape : (r.contents h' w).shape? maxSample
          (r.inferSeen see h' maxSample depth visiting') with
      | none =>
        have hnone := Contents.shape?_eq_none.1 hshape
        rw [inferSeen_plain hland' (.inr hnone), plainSeen_reordered hre]
        exact .inl ⟨hcontents.eq_none hnone, rfl⟩
      | some s =>
        rw [inferSeen_entered hland' hshape]
        exact .inr (Contents.mayShape_of_shape? hcontents hshape fun _ _ => ih)
    · rw [inferSeen_repeated hland', hre.definitions]

end Registry

/-! ## The inference of the engine -/

namespace Engine

open Shape

/-- Shapes are merged into equal shapes in any order exactly if their texts order them.  Two runs of
inference, on hosts that list the entries of maps in different orders, answer with equal shapes, if
the texts order all shapes that are merged, and neither run remembers what contradicts the other;
and so does any other run, even if it enumerates a map in a new order each time. -/
theorem merge_infer_any_order (shapes : List Shape) (e e' : Engine) {h h' : Host} (see : View)
    (v : Value) (maxDepth maxSample : Int) :
    ((∀ other, shapes.Perm other → (mergeShapes shapes).same (mergeShapes other) = true) ↔
      OrderedByText (· ∈ shapes)) ∧
    (e'.registry = e.registry → h.Reordered h' →
      see.Agrees (e.infer h v maxDepth maxSample).2.memo →
      see.Agrees (e'.infer h' v maxDepth maxSample).2.memo →
      e.registry.OrdersMerges see h maxSample (min maxDepth.toNat maxRecursion) v →
      ∃ s t, (e.infer h v maxDepth maxSample).1 = some s ∧
        (e'.infer h' v maxDepth maxSample).1 = some t ∧ s.same t = true ∧
        ∀ t, e.registry.MayInfer see h maxSample (min maxDepth.toNat maxRecursion) [] v t →
          s.same t = true) := by
  refine ⟨Registry.forall_perm_same_mergeShapes_iff shapes, fun hregistry hre hsee hsee' hv => ?_⟩
  -- The run of the engine is one of those that may happen, and all of them agree.
  have hfirst : e.registry.MayInfer see h maxSample (min maxDepth.toNat maxRecursion) [] v _ :=
    Registry.mayInfer_inferSeen (.refl h)
  refine ⟨_, _, e.infer_eq h v maxDepth maxSample hsee, e'.infer_eq h' v maxDepth maxSample hsee',
    ?_, fun _ => Registry.MayInfer.same hv le_rfl hfirst⟩
  rw [hregistry]
  exact Registry.MayInfer.same hv le_rfl hfirst (Registry.mayInfer_inferSeen hre)

/-- A map from strings. -/
def stringMap : Value := .map .string .any 0

/-- The heap with the entries of the map. -/
def entriesHeap (es : List (Value × Value)) : Host := { cells := #[.entries es] }

/-- Two heaps with the entries of one map in two orders. -/
theorem reordered_entriesHeap {es es' : List (Value × Value)} (hperm : es.Perm es') :
    (entriesHeap es).Reordered (entriesHeap es') where
  definitions := rfl
  size := rfl
  valueAt a := by cases a <;> rfl
  itemsAt a n := by cases a <;> rfl
  entriesAt a := by
    cases a with
    | zero => exact hperm
    | succ a => exact .refl _

/-- A map with a number, and a value that declares its type. -/
def optionalEntries : List (Value × Value) :=
  [(.string (text "a"), .typed (.optionalOf (.con Name.int))), (.string (text "b"), .int .int 1)]

/-- The map of the example leads to itself, its keys and its values. -/
theorem leads_optionalEntries {w : Value}
    (hw : ReflTransGen (entriesHeap optionalEntries).Leads stringMap w) :
    w = stringMap ∨ w = .string (text "a") ∨ w = .typed (.optionalOf (.con Name.int)) ∨
      w = .string (text "b") ∨ w = .int .int 1 := by
  -- By induction on the way, which ends at what the entries hold.
  induction hw with
  | refl => exact .inl rfl
  | tail _ hstep ih =>
    obtain rfl | rfl | rfl | rfl | rfl := ih
    · refine .inr ?_
      simpa [Host.Leads, Host.under, stringMap, entriesHeap, Host.entriesAt, optionalEntries]
        using hstep
    all_goals cases hstep

/-- The texts order what is merged for the map of the example. -/
theorem ordersMerges_optionalEntries {see : View}
    (hsee : Registry.builtin.shapeSeen see (.optionalOf (.con Name.int)) =
      .optionalOf (.leaf Name.int)) :
    Registry.builtin.OrdersMerges see (entriesHeap optionalEntries) (-1) 2 stringMap := by
  intro w hw group hgroup depth hdepth visiting
  -- Only the map has groups to be merged: its keys and its values.
  obtain rfl | rfl | rfl | rfl | rfl := leads_optionalEntries hw
  · obtain rfl | hgroup := List.mem_cons.1 hgroup
    · have hkeys : ∀ s, (∃ x ∈ (optionalEntries.map (·.1)), Registry.builtin.MayInfer see
          (entriesHeap optionalEntries) (-1) depth visiting x s) → s ∈ [.leaf Name.string] := by
        rintro s ⟨x, hx, hs⟩
        simp only [optionalEntries, List.map_cons, List.map_nil, List.mem_cons, List.not_mem_nil,
          or_false] at hx
        obtain rfl | rfl := hx
        all_goals
          have hs := Registry.eq_plainSeen_of_mayInfer (fun _ _ => Value.noConfusion) rfl hs
          exact List.mem_singleton.2 hs
      exact orderedByText_of_texts hkeys (by decide)
    · obtain rfl := List.mem_singleton.1 hgroup
      have hvalues : ∀ s, (∃ x ∈ (optionalEntries.map (·.2)), Registry.builtin.MayInfer see
          (entriesHeap optionalEntries) (-1) depth visiting x s) →
          s ∈ [coarsen depth (.optionalOf (.leaf Name.int)), .leaf Name.int] := by
        rintro s ⟨x, hx, hs⟩
        simp only [optionalEntries, List.map_cons, List.map_nil, List.mem_cons, List.not_mem_nil,
          or_false] at hx
        obtain rfl | rfl := hx
        · have hs := Registry.eq_plainSeen_of_mayInfer (fun _ _ => Value.noConfusion) rfl hs
          rw [Registry.plainSeen_declared rfl, hsee] at hs
          exact hs ▸ List.mem_cons_self
        · have hs := Registry.eq_plainSeen_of_mayInfer (fun _ _ => Value.noConfusion) rfl hs
          exact List.mem_cons_of_mem _ (List.mem_singleton.2 hs)
      refine orderedByText_of_texts hvalues ?_
      interval_cases depth <;> decide
  all_goals cases hgroup

/-- The values of the map are merged in one order, and in the other, and so are the shapes of the
two. -/
theorem merge_infer_any_order_map :
    let first := ({} : Engine).infer (entriesHeap optionalEntries) stringMap 2 (-1)
    let second := first.2.infer (entriesHeap optionalEntries.reverse) stringMap 2 (-1)
    let o := Shape.optionalOf (.leaf Name.int)
    (mergeShapes [o, .leaf Name.int]).same (mergeShapes [.leaf Name.int, o]) = true ∧
      ∃ s t, first.1 = some s ∧ second.1 = some t ∧ s.same t = true := by
  intro first second o
  obtain ⟨hmerge, hinfer⟩ := merge_infer_any_order [o, .leaf Name.int] {} first.2
    second.2.memo.view stringMap 2 (-1)
  -- Both runs see what the memo of the later one shows.
  obtain ⟨s, t, hs, ht, hsame, -⟩ := hinfer
    (infer_registry {} (entriesHeap optionalEntries) stringMap 2 (-1))
    (reordered_entriesHeap optionalEntries.reverse_perm.symm)
    ((Memo.view_agrees second.2.memo).of_extends (first.2.infer_extends _ _ _ _))
    (Memo.view_agrees second.2.memo) (ordersMerges_optionalEntries rfl)
  have hordered : OrderedByText (· ∈ [o, .leaf Name.int]) :=
    orderedByText_of_texts (fun _ => id) (by decide)
  exact ⟨hmerge.2 hordered _ (.swap _ _ _), s, t, hs, ht, hsame⟩

/-- One type in its two spellings, and another type. -/
def spelledEntries : List (Value × Value) :=
  [(.string (text "a"), .typed (.optionalOf (.con Name.int))),
    (.string (text "b"), .typed (.union [.con Name.int, .con Name.nil] false)),
    (.string (text "c"), .string (text "d"))]

/-- The first two entries change places. -/
def respelledEntries : List (Value × Value) :=
  [(.string (text "b"), .typed (.union [.con Name.int, .con Name.nil] false)),
    (.string (text "a"), .typed (.optionalOf (.con Name.int))),
    (.string (text "c"), .string (text "d"))]

/-- Two orders of the entries of a map, for which texts do not order the values: the union with
`Nil` has two spellings, and the third value stands between them. -/
theorem not_merge_infer_any_order :
    let o := Shape.optionalOf (.leaf Name.int)
    let u := Shape.unionOf [.leaf Name.int, .leaf Name.nil]
    let s := Shape.leaf Name.string
    let first := ({} : Engine).infer (entriesHeap spelledEntries) stringMap 2 (-1)
    let second := first.2.infer (entriesHeap respelledEntries) stringMap 2 (-1)
    ([o, u, s].Perm [u, o, s] ∧ (∀ x ∈ [o, u, s], x.Closed) ∧
      (mergeShapes [o, u, s]).same (mergeShapes [u, o, s]) = false) ∧
    ((entriesHeap spelledEntries).Reordered (entriesHeap respelledEntries) ∧
      first.1 = some (.ofClass Name.map [s, .unionOf [o, s]]) ∧
      second.1 = some (.ofClass Name.map [s, .unionOf [s, u]]) ∧
      (Shape.ofClass Name.map [s, .unionOf [o, s]]).same
        (.ofClass Name.map [s, .unionOf [s, u]]) = false) := by
  intro o u s first second
  -- Of the spellings of one union, the first that is met is kept.
  have hfirst : mergeShapes [o, u, s] = .unionOf [o, s] :=
    Registry.mergeShapes_pair (a := o) (b := s) rfl
  have hsecond : mergeShapes [u, o, s] = .unionOf [s, u] :=
    Registry.mergeShapes_pair (a := u) (b := s) rfl
  have hkeys : mergeShapes [s, s, s] = s := rfl
  refine ⟨⟨.swap u o [s], ?_, ?_⟩, reordered_entriesHeap (.swap _ _ _), ?_, ?_, by decide⟩
  · simp only [List.forall_mem_cons, List.not_mem_nil, false_imp_iff, implies_true, and_true]
    exact ⟨⟨rfl, rfl⟩, ⟨rfl, rfl⟩, ⟨rfl, rfl⟩⟩
  · rw [hfirst, hsecond]
    decide
  · exact congrArg (fun x => some (Shape.ofClass Name.map [s, x])) hfirst
  · exact congrArg (fun x => some (Shape.ofClass Name.map [s, x])) hsecond

end Engine

end TypeShape
