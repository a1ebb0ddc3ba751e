import Mathlib.Data.List.Perm.Subperm
import Mathlib.Logic.Relation
import TypeShape.Value.References

/-!
# Values that reach themselves

References are told apart by their kind, their address and, for slices, their length.  The search
for a value that refers to itself goes down along references and keeps the path on which it came;
it has found a cycle when it meets a reference of its path.  `Searches` is this search without any
limit on its steps.  It always ends, because no path is longer than the number of references of the
heap, and it answers yes exactly if some reference that the value leads to leads back to itself.

## Key results

- `Value.mem_refs_iff`, `Host.mem_next_iff`: the references that are collected are those held
- `Host.searches_meetsPath`: the bounded search is the unbounded one
- `Host.Searches.exists_cycle`, `Host.Searches.acc`: what a yes and a no say of the path below
- `Value.isSelfReferential_iff_cycle`: the search ends, and detects cycles exactly
-/

namespace TypeShape

open Relation (ReflTransGen TransGen)

/-! ## Following references -/

/-- A value holds a reference: it is one, or it is an array or a structure with a part that holds
one.  Pointers refer if they are not nil, slices and maps if they are not empty. -/
inductive Value.Holds (h : Host) : Value → Ref → Prop where
  | pointer (type : HostType) (a : Nat) : Holds h (.pointer type (some a)) (.pointer a)
  | slice (elem : HostType) {a n : Nat} :
    h.itemsAt a n ≠ [] → Holds h (.slice elem a n) (.slice a n)
  | tuple {a n : Nat} : h.itemsAt a n ≠ [] → Holds h (.tuple a n) (.slice a n)
  | map (key value : HostType) {a : Nat} : h.entriesAt a ≠ [] → Holds h (.map key value a) (.map a)
  | item (elem : HostType) {items : List Value} {v : Value} {r : Ref} :
    v ∈ items → Holds h v r → Holds h (.array elem items) r
  | field (type : HostType) {fields : List (Text × Value)} {name : Text} {v : Value} {r : Ref} :
    (name, v) ∈ fields → Holds h v r → Holds h (.struct type fields) r
  | message (hostType : HostType) (name : Text) (descriptor : Nat) :
    Holds h (.message hostType name descriptor) (.pointer descriptor)

namespace Host

/-- The values that stand behind a reference: what a pointer points to, the elements of a slice and
the values of a map. -/
inductive Behind (h : Host) : Ref → Value → Prop where
  | pointer (a : Nat) : Behind h (.pointer a) (h.valueAt a)
  | item {a n : Nat} {v : Value} : v ∈ h.itemsAt a n → Behind h (.slice a n) v
  | entry {a : Nat} {k v : Value} : (k, v) ∈ h.entriesAt a → Behind h (.map a) v

/-- One reference leads to another if a value behind it holds it. -/
def RefersTo (h : Host) (r s : Ref) : Prop :=
  ∃ v, h.Behind r v ∧ v.Holds h s

end Host

namespace Value

variable {h : Host} {r : Ref}

/-- The references in a list of values are those in the values. -/
theorem mem_refsAll_iff {vs : List Value} : r ∈ refsAll h vs ↔ ∃ v ∈ vs, r ∈ v.refs h := by
  induction vs with
  | nil => simp [refsAll]
  | cons v vs ih => simp [refsAll, ih]

/-- The references in fields are those in their values. -/
theorem mem_refsFields_iff {fields : List (Text × Value)} :
    r ∈ refsFields h fields ↔ ∃ field ∈ fields, r ∈ field.2.refs h := by
  induction fields with
  | nil => simp [refsFields]
  | cons field fields ih => simp [refsFields, ih]

mutual

/-- What is collected is held. -/
theorem holds_of_mem_refs : ∀ {v : Value}, r ∈ v.refs h → v.Holds h r
  | .pointer type (some a), hr => by
    rw [refs, List.mem_singleton] at hr
    exact hr ▸ .pointer type a
  | .slice elem a n, hr => by
    rw [refs] at hr
    split at hr
    · cases hr
    -- An empty slice refers to nothing, so there are items here.
    · rename_i hitems
      rw [List.mem_singleton] at hr
      exact hr ▸ .slice elem (by simpa using hitems)
  | .tuple a n, hr => by
    rw [refs] at hr
    split at hr
    · cases hr
    · rename_i hitems
      rw [List.mem_singleton] at hr
      exact hr ▸ .tuple (by simpa using hitems)
  | .map key value a, hr => by
    rw [refs] at hr
    split at hr
    · cases hr
    · rename_i hentries
      rw [List.mem_singleton] at hr
      exact hr ▸ .map key value (by simpa using hentries)
  -- Arrays and structures hold what their parts hold; the parts are in the value itself.
  | .array elem items, hr => by
    have hitems : r ∈ refsAll h items := hr
    obtain ⟨v, hv, hholds⟩ := holds_of_mem_refsAll hitems
    exact .item elem hv hholds
  | .struct type fields, hr => by
    have hfields : r ∈ refsFields h fields := hr
    obtain ⟨⟨name, v⟩, hfield, hholds⟩ := holds_of_mem_refsFields hfields
    exact .field type hfield hholds
  | .message hostType name descriptor, hr => by
    rw [refs, List.mem_singleton] at hr
    exact hr ▸ .message hostType name descriptor

/-- So it is for lists of values. -/
theorem holds_of_mem_refsAll : ∀ {vs : List Value}, r ∈ refsAll h vs → ∃ v ∈ vs, v.Holds h r
  | v :: vs, hr => by
    rw [refsAll, List.mem_append] at hr
    obtain hr | hr := hr
    · exact ⟨v, List.mem_cons_self, holds_of_mem_refs hr⟩
    · obtain ⟨w, hw, hholds⟩ := holds_of_mem_refsAll hr
      exact ⟨w, List.mem_cons_of_mem _ hw, hholds⟩

/-- So it is for fields. -/
theorem holds_of_mem_refsFields : ∀ {fields : List (Text × Value)}, r ∈ refsFields h fields →
    ∃ field ∈ fields, field.2.Holds h r
  | (name, v) :: fields, hr => by
    rw [refsFields, List.mem_append] at hr
    obtain hr | hr := hr
    · exact ⟨(name, v), List.mem_cons_self, holds_of_mem_refs hr⟩
    · obtain ⟨field, hfield, hholds⟩ := holds_of_mem_refsFields hr
      exact ⟨field, List.mem_cons_of_mem _ hfield, hholds⟩

end

/-- The references that are collected from a value are those that it holds. -/
theorem mem_refs_iff {v : Value} : r ∈ v.refs h ↔ v.Holds h r := by
  refine ⟨holds_of_mem_refs, fun hholds => ?_⟩
  induction hholds with
  | pointer type a => simp [refs]
  | slice elem hitems => simp [refs, hitems]
  | tuple hitems => simp [refs, hitems]
  | map key value hentries => simp [refs, hentries]
  | item elem hv _ ih => exact mem_refsAll_iff.2 ⟨_, hv, ih⟩
  | field type hfield _ ih => exact mem_refsFields_iff.2 ⟨_, hfield, ih⟩
  | message hostType name descriptor => simp [refs]

end Value

namespace Host

variable {h : Host}

/-- The values behind a reference are those that it leads to in the heap. -/
theorem mem_targets_iff {r : Ref} {v : Value} : v ∈ h.targets r ↔ h.Behind r v := by
  constructor
  · intro hv
    -- The values are those that the cell at the address holds, whatever kind of cell it is.
    cases r with
    | pointer a =>
      rw [targets, List.mem_singleton] at hv
      exact hv ▸ .pointer a
    | slice a n => exact .item hv
    | map a =>
      obtain ⟨⟨k, w⟩, hentry, rfl⟩ := List.mem_map.1 hv
      exact .entry hentry
  · intro hbehind
    cases hbehind with
    | pointer a => exact List.mem_singleton_self _
    | item hv => exact hv
    | entry hentry => exact List.mem_map_of_mem hentry

/-- The references that are collected behind a reference are those that it leads to. -/
theorem mem_next_iff {r s : Ref} : s ∈ h.next r ↔ h.RefersTo r s := by
  simp only [next, List.mem_flatMap, mem_targets_iff, Value.mem_refs_iff, RefersTo]

/-- Whatever a reference leads to occurs in the heap. -/
theorem mem_allRefs_of_mem_next {r s : Ref} (hs : s ∈ h.next r) : s ∈ h.allRefs := by
  obtain ⟨v, hv, hrefs⟩ := List.mem_flatMap.1 hs
  rw [allRefs, List.mem_flatMap]
  -- In all cases, what is read at the address is a cell of the heap.
  cases r with
  | pointer a =>
    rw [targets, List.mem_singleton] at hv
    subst hv
    unfold valueAt at hrefs
    split at hrefs
    · rename_i v hcell
      exact ⟨.value v, Array.mem_toList_iff.2 (Array.mem_of_getElem? hcell), hrefs⟩
    · cases hrefs
  | slice a n =>
    simp only [targets, itemsAt] at hv
    split at hv
    · rename_i vs hcell
      exact ⟨.items vs, Array.mem_toList_iff.2 (Array.mem_of_getElem? hcell),
        List.mem_flatMap.2 ⟨v, List.mem_of_mem_take hv, hrefs⟩⟩
    · cases hv
  | map a =>
    obtain ⟨entry, hentry, rfl⟩ := List.mem_map.1 hv
    unfold entriesAt at hentry
    split at hentry
    · rename_i es hcell
      exact ⟨.entries es, Array.mem_toList_iff.2 (Array.mem_of_getElem? hcell),
        List.mem_flatMap.2 ⟨entry, hentry, hrefs⟩⟩
    · cases hentry

/-! ## The search -/

/-- A search below a list of references ends with an answer.  It goes through the list from the
front; a reference that stands on the path to it is a cycle, and what lies behind any other one is
searched with that reference put on the path. -/
inductive Searches (h : Host) : List Ref → List Ref → Bool → Prop where
  | done {path : List Ref} : Searches h path [] false
  | met {path refs : List Ref} {r : Ref} : r ∈ path → Searches h path (r :: refs) true
  | deeper {path refs : List Ref} {r : Ref} : r ∉ path → Searches h (r :: path) (h.next r) true →
    Searches h path (r :: refs) true
  | beside {path refs : List Ref} {r : Ref} {answer : Bool} : r ∉ path →
    Searches h (r :: path) (h.next r) false → Searches h path refs answer →
    Searches h path (r :: refs) answer

namespace Searches

variable {path refs : List Ref}

/-- A search has one answer. -/
theorem unique {a b : Bool} (ha : h.Searches path refs a) (hb : h.Searches path refs b) :
    a = b := by
  -- By induction on the first search; the second one has to take the same steps.
  induction ha generalizing b with
  | done =>
    cases hb
    rfl
  | met hr =>
    cases hb with
    | met _ => rfl
    | deeper hr' _ => exact absurd hr hr'
    | beside hr' _ _ => exact absurd hr hr'
  | deeper hr _ ih =>
    cases hb with
    | met hr' => exact absurd hr' hr
    | deeper _ _ => rfl
    | beside _ hfalse _ => cases ih hfalse
  | beside hr _ _ ih₁ ih₂ =>
    cases hb with
    | met hr' => exact absurd hr' hr
    | deeper _ htrue => cases ih₁ htrue
    | beside _ _ hrest => exact ih₂ hrest

/-- A search that answers yes has found a way to a cycle, or back to the path. -/
theorem exists_cycle (hsearch : h.Searches path refs true) :
    ∃ r ∈ refs, ∃ s, ReflTransGen h.RefersTo r s ∧ (s ∈ path ∨ TransGen h.RefersTo s s) := by
  generalize hanswer : true = answer at hsearch
  -- By induction on the search.
  induction hsearch with
  | done => cases hanswer
  | met hr => exact ⟨_, List.mem_cons_self, _, .refl, .inl hr⟩
  | @deeper path refs r hr _ ih =>
    obtain ⟨r', hr', s, hway, hs⟩ := ih hanswer
    have hleads : h.RefersTo r r' := mem_next_iff.1 hr'
    refine ⟨r, List.mem_cons_self, ?_⟩
    obtain hs | hs := hs
    · obtain rfl | hs := List.mem_cons.1 hs
      · -- The way leads back to the reference it started from.
        exact ⟨s, .refl, .inr (.head' hleads hway)⟩
      · exact ⟨s, .head hleads hway, .inl hs⟩
    · exact ⟨s, .head hleads hway, .inr hs⟩
  | beside _ _ _ _ ih =>
    obtain ⟨r', hr', hfound⟩ := ih hanswer
    exact ⟨r', List.mem_cons_of_mem _ hr', hfound⟩

/-- A search that answers no has seen every way come to an end. -/
theorem acc (hsearch : h.Searches path refs false) :
    ∀ r ∈ refs, Acc (fun s r => h.RefersTo r s) r := by
  generalize hanswer : false = answer at hsearch
  induction hsearch with
  | done => exact fun r hr => absurd hr List.not_mem_nil
  | met _ => cases hanswer
  | deeper _ _ _ => cases hanswer
  | beside _ _ _ ih₁ ih₂ =>
    refine List.forall_mem_cons.2 ⟨⟨_, fun s hs => ?_⟩, ih₂ hanswer⟩
    exact ih₁ rfl s (mem_next_iff.2 hs)

end Searches

/-- Where every way comes to an end, there is no cycle. -/
theorem not_cycle_of_acc {r s : Ref} (hr : Acc (fun s r => h.RefersTo r s) r)
    (hway : ReflTransGen h.RefersTo r s) : ¬ TransGen h.RefersTo s s := by
  have hs : Acc (fun s r => h.RefersTo r s) s := by
    induction hway with
    | refl => exact hr
    | tail _ hleads ih => exact ih.inv hleads
  -- By induction on how the ways from `s` end: the first step of a cycle leads to another cycle.
  clear hway hr
  induction hs with
  | intro s _ ih =>
    intro hcycle
    obtain ⟨t, hleads, hback⟩ := TransGen.head'_iff.1 hcycle
    exact ih t hleads (.tail' hback hleads)

/-- The bounded search is the unbounded one.  The references of a path are distinct, so there are no
more of them than references to choose from, and the bound is never reached. -/
theorem searches_meetsPath {known : List Ref} (hnext : ∀ r, h.next r ⊆ known) {fuel : Nat}
    {path refs : List Ref} (hpath : path ⊆ known) (hnodup : path.Nodup)
    (hrefs : refs ⊆ known) (hfuel : known.length < fuel + path.length) :
    h.Searches path refs (h.meetsPath fuel path refs) := by
  -- By induction on the bound, and for each bound on the references that are left to try.
  induction fuel generalizing path refs with
  -- A path of distinct references can be no longer than all references are.
  | zero =>
    have hlength := (hnodup.subperm hpath).length_le
    omega
  | succ fuel ih =>
    induction refs with
    | nil => exact .done
    | cons r refs ihrefs =>
      obtain ⟨hr, hrest⟩ := List.cons_subset.1 hrefs
      by_cases hmet : r ∈ path
      · have hanswer : h.meetsPath (fuel + 1) path (r :: refs) = true := by
          simp [meetsPath, hmet]
        exact hanswer ▸ .met hmet
      · have hbelow := ih (List.cons_subset.2 ⟨hr, hpath⟩) (List.nodup_cons.2 ⟨hmet, hnodup⟩)
          (hnext r) (by rw [List.length_cons]; omega)
        have hanswer : h.meetsPath (fuel + 1) path (r :: refs) =
            (h.meetsPath fuel (r :: path) (h.next r) || h.meetsPath (fuel + 1) path refs) := by
          simp [meetsPath, hmet]
        rw [hanswer]
        cases hfound : h.meetsPath fuel (r :: path) (h.next r) with
        | true => exact .deeper hmet (hfound ▸ hbelow)
        | false => exact .beside hmet (hfound ▸ hbelow) (ihrefs hrest)

end Host

/-- The search of a value ends, with one answer.  The answer is yes exactly if, from the value,
following references leads to a reference that leads back to itself. -/
theorem Value.isSelfReferential_iff_cycle (h : Host) (v : Value) :
    (∀ answer, h.Searches [] (v.refs h) answer ↔ answer = v.isSelfReferential h) ∧
      (v.isSelfReferential h = true ↔
        ∃ r s, v.Holds h r ∧ ReflTransGen h.RefersTo r s ∧ TransGen h.RefersTo s s) := by
  have hsearch : h.Searches [] (v.refs h) (v.isSelfReferential h) := by
    -- References behind a reference occur in the heap, and those at the front in the value.
    have hnext : ∀ r, h.next r ⊆ v.refs h ++ h.allRefs := fun r s hs =>
      List.mem_append_right _ (Host.mem_allRefs_of_mem_next hs)
    refine Host.searches_meetsPath hnext (List.nil_subset _) List.nodup_nil
      (List.subset_append_left _ _) ?_
    simp only [List.length_append, Host.pathBound, List.length_nil]
    omega
  refine ⟨fun answer => ⟨fun hanswer => hanswer.unique hsearch, fun hanswer => hanswer ▸ hsearch⟩,
    ?_, ?_⟩
  -- A path that is empty at the start has nothing to come back to, so there is a cycle.
  · intro hyes
    rw [hyes] at hsearch
    obtain ⟨r, hr, s, hway, hs⟩ := hsearch.exists_cycle
    exact ⟨r, s, Value.mem_refs_iff.1 hr, hway, hs.resolve_left List.not_mem_nil⟩
  -- A search that answers no leaves nothing behind that could go round.
  · rintro ⟨r, s, hr, hway, hcycle⟩
    by_contra hno
    rw [Bool.not_eq_true] at hno
    rw [hno] at hsearch
    exact Host.not_cycle_of_acc (hsearch.acc r (Value.mem_refs_iff.2 hr)) hway hcycle

end TypeShape
