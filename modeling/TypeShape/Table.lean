import TypeShape.Text.Basic

/-!
# Tables by name

A table holds at most one entry for a name, in the order in which the names were first entered.
The lemmas say what entering does to looking up and to the names.
-/

namespace TypeShape

/-- Entries by name, in the order of their first entry. -/
abbrev Table (α : Type) := List (Text × α)

namespace Table

variable {α : Type}

/-- The entry of a name. -/
def find? (t : Table α) (name : Text) : Option α :=
  t.lookup name

/-- Whether a name has an entry. -/
def has (t : Table α) (name : Text) : Bool :=
  (t.find? name).isSome

/-- Enters a value, in place of the earlier entry of the name if there is one. -/
def put (name : Text) (a : α) : Table α → Table α
  | [] => [(name, a)]
  | (n, b) :: t => if n = name then (n, a) :: t else (n, b) :: put name a t

/-- Enters a value unless the name has an entry. -/
def putNew (name : Text) (a : α) (t : Table α) : Table α :=
  if t.has name then t else t ++ [(name, a)]

/-- The table without a name. -/
def erase (t : Table α) (name : Text) : Table α :=
  t.filter fun (n, _) => n != name

/-- The names that have entries, in order of first entry. -/
def names (t : Table α) : List Text :=
  t.map (·.1)

/-- The entries in the order of their names. -/
def sorted (t : Table α) : List (Text × α) :=
  t.mergeSort fun a b => Text.le a.1 b.1

/-- Nothing is found in the empty table. -/
@[simp] theorem find?_nil (name : Text) : find? ([] : Table α) name = none := rfl

/-- The first entry of a name is the one found. -/
@[simp] theorem find?_cons (n name : Text) (a : α) (t : Table α) :
    find? ((n, a) :: t) name = if name = n then some a else find? t name := by
  unfold find?
  rw [List.lookup_cons]
  by_cases h : name = n
  · simp [h]
  · simp [h, beq_false_of_ne h]

/-- Looking up the name just entered finds its value. -/
@[simp] theorem find?_put_self (name : Text) (a : α) (t : Table α) :
    find? (put name a t) name = some a := by
  induction t with
  | nil => simp [put]
  | cons e t ih =>
    obtain ⟨n, b⟩ := e
    by_cases h : n = name
    · simp [put, h]
    · have h' : ¬ name = n := fun e => h e.symm
      simp [put, h, h', ih]

/-- Entering a name leaves every other name as it was. -/
theorem find?_put_of_ne {name other : Text} (h : other ≠ name) (a : α) (t : Table α) :
    find? (put name a t) other = find? t other := by
  induction t with
  | nil => simp [put, h]
  | cons e t ih =>
    obtain ⟨n, b⟩ := e
    by_cases hn : n = name
    · subst hn; simp [put, h]
    · simp [put, hn, ih]

/-- An entry is found under its own name, and leaves what is found under other names. -/
theorem find?_put (name other : Text) (a : α) (t : Table α) :
    find? (put name a t) other = if other = name then some a else find? t other := by
  by_cases h : other = name
  · rw [if_pos h, h, find?_put_self]
  · rw [if_neg h, find?_put_of_ne h]

/-- Entries under different names may be made in either order. -/
theorem find?_put_comm {name other : Text} (h : name ≠ other) (a b : α) (t : Table α) (n : Text) :
    find? (put name a (put other b t)) n = find? (put other b (put name a t)) n := by
  rw [find?_put, find?_put, find?_put, find?_put]
  by_cases hn : n = name
  · have hother : n ≠ other := hn ▸ h
    rw [if_pos hn, if_neg hother, if_pos hn]
  · rw [if_neg hn, if_neg hn]

/-- A name that has no entry is entered at the end. -/
theorem put_of_find?_eq_none {t : Table α} {name : Text} (h : find? t name = none) (a : α) :
    put name a t = t ++ [(name, a)] := by
  induction t with
  | nil => rfl
  | cons e t ih =>
    obtain ⟨n, b⟩ := e
    rw [find?_cons] at h
    split at h
    · cases h
    · rename_i hne
      rw [put, if_neg (Ne.symm hne), ih h, List.cons_append]

/-- Entering what is there changes nothing. -/
theorem put_of_find?_eq_some {t : Table α} {name : Text} {a : α}
    (h : t.find? name = some a) : put name a t = t := by
  induction t with
  | nil => cases h
  | cons e t ih =>
    obtain ⟨n, b⟩ := e
    rw [find?_cons] at h
    by_cases hn : name = n
    · rw [if_pos hn] at h
      cases h
      rw [put, if_pos hn.symm]
    · rw [if_neg hn] at h
      rw [put, if_neg (Ne.symm hn), ih h]

/-- The later of two values entered under one name stays. -/
theorem put_put (name : Text) (a b : α) (t : Table α) : put name a (put name b t) = put name a t := by
  induction t with
  | nil => simp [put]
  | cons e t ih =>
    obtain ⟨n, c⟩ := e
    by_cases hn : n = name
    · simp [put, hn]
    · simp [put, hn, ih]

/-- Where a name has an entry, its new value is entered in the same place, before or after the entry
of another name. -/
theorem put_comm_of_isSome {name other : Text} (h : name ≠ other) (a b : α) {t : Table α}
    (ht : (find? t name).isSome = true) :
    put name a (put other b t) = put other b (put name a t) := by
  induction t with
  | nil => cases ht
  | cons e t ih =>
    obtain ⟨n, c⟩ := e
    by_cases hn : n = name
    · have hother : n ≠ other := hn ▸ h
      simp [put, hn, h]
    · have ht' : (find? t name).isSome = true := by
        rwa [find?_cons, if_neg (Ne.symm hn)] at ht
      by_cases hother : n = other
      · have hne : other ≠ name := h.symm
        simp [put, hother, hne]
      · simp [put, hn, hother, ih ht']

/-- A name that is taken out has no entry, and every other name has the one it had. -/
theorem find?_erase (t : Table α) (name other : Text) :
    find? (erase t name) other = if other = name then none else find? t other := by
  induction t with
  | nil => simp [erase]
  | cons e t ih =>
    obtain ⟨n, b⟩ := e
    unfold erase at ih ⊢
    by_cases hn : n = name
    · subst hn
      simp only [List.filter_cons, bne_self_eq_false, Bool.false_eq_true, if_false, ih, find?_cons]
      split <;> rfl
    · simp only [List.filter_cons, bne_iff_ne.2 hn, if_true, find?_cons, ih]
      split
      · rename_i h
        rw [if_neg (h ▸ hn)]
      · rfl

/-- What is found is an entry of the table. -/
theorem mem_of_find? {t : Table α} {name : Text} {a : α} (h : find? t name = some a) :
    (name, a) ∈ t := by
  obtain ⟨before, rest, rfl, -⟩ := List.lookup_eq_some_iff.1 h
  simp

/-- Where no name is entered twice, every entry is found. -/
theorem find?_of_mem {t : Table α} (hdistinct : t.names.Nodup) {entry : Text × α}
    (h : entry ∈ t) : find? t entry.1 = some entry.2 := by
  induction t with
  | nil => cases h
  | cons e t ih =>
    obtain ⟨n, b⟩ := e
    obtain ⟨hnew, hdistinct⟩ := List.nodup_cons.1 hdistinct
    rw [find?_cons]
    obtain rfl | h := List.mem_cons.1 h
    · rw [if_pos rfl]
    · have hmem : entry.1 ∈ names t := List.mem_map_of_mem h
      have hne : entry.1 ≠ n := fun heq => hnew (heq ▸ hmem)
      rw [if_neg hne, ih hdistinct h]

/-- Entering adds its name, and no other. -/
theorem mem_names_put {name other : Text} {a : α} {t : Table α} :
    other ∈ (put name a t).names ↔ other = name ∨ other ∈ t.names := by
  induction t with
  | nil => simp [put, names]
  | cons e t ih =>
    obtain ⟨n, b⟩ := e
    unfold names at ih ⊢
    by_cases hn : n = name
    · simp [put, hn]
    · simp only [put, hn, if_false, List.map_cons, List.mem_cons, ih]
      exact or_left_comm

/-- No name is entered twice. -/
theorem nodup_names_put {t : Table α} (h : t.names.Nodup) (name : Text) (a : α) :
    (put name a t).names.Nodup := by
  induction t with
  | nil => simp [put, names]
  | cons e t ih =>
    obtain ⟨n, b⟩ := e
    obtain ⟨hnew, hdistinct⟩ := List.nodup_cons.1 h
    by_cases hn : n = name
    · simpa [put, hn, names] using h
    · rw [put, if_neg hn]
      refine List.nodup_cons.2 ⟨fun hmem => ?_, ih hdistinct⟩
      exact (mem_names_put.1 hmem).elim hn hnew

/-- A name that has an entry leaves fewer entries when it is taken out. -/
theorem length_erase_lt {t : Table α} {name : Text} {a : α} (h : find? t name = some a) :
    (erase t name).length < t.length :=
  List.length_filter_lt_length_iff_exists.2 ⟨(name, a), mem_of_find? h, by simp⟩

end Table

end TypeShape
