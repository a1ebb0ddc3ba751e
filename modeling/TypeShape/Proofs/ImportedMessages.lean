import TypeShape.Proofs.ImportedClasses
import TypeShape.Proofs.Inheritance

/-!
# The classes of imported messages

An import of messages goes through the files named and the files these import, each of them once and
after its own imports, and declares a record for every message that does not stand for the entries of
a map.  Which files are gone through does not depend on the registry, so the import is a list of
declarations that can be told without one.

## Key results

- `ProtoFile.declares_visitAll`: an import declares the records of the files gone through
- `ProtoFile.mem_reachAll_iff`: these are all files that the named ones lead to
- `ProtoFile.importAll_again`: an import that has succeeded succeeds again and then changes nothing
-/

namespace TypeShape

open Declaring Registry

/-! ## Records -/

namespace ProtoMessage

/-- The class of a message of a full name. -/
def recordOf (record : Text × List ProtoField) : Class :=
  { name := record.1, kind := .record, members := members record.2 }

mutual

/-- The full names of a message and of those declared in it, with their fields.  A message for the
entries of a map is left out. -/
def records (outer : Text) : ProtoMessage → List (Text × List ProtoField)
  | .mk name isMapEntry fields nested =>
    if isMapEntry then []
    else (qualify outer name, fields) :: recordsAll (qualify outer name) nested

/-- `records` on a list of messages. -/
def recordsAll (outer : Text) : List ProtoMessage → List (Text × List ProtoField)
  | [] => []
  | m :: ms => records outer m ++ recordsAll outer ms

end

mutual

/-- Declaring a message declares its record and those inside it. -/
theorem declares_declare (outer : Text) (m : ProtoMessage) :
    Declares (m.declare outer) ((m.records outer).map recordOf) () := by
  match m with
  | .mk name isMapEntry fields nested =>
    unfold ProtoMessage.declare records
    split
    · exact .pure ()
    · exact (Declares.declare _).bind (declares_declareAll _ nested)

/-- Declaring messages declares the records of each in turn. -/
theorem declares_declareAll (outer : Text) (ms : List ProtoMessage) :
    Declares (declareAll outer ms) ((recordsAll outer ms).map recordOf) () := by
  match ms with
  | [] =>
    unfold declareAll recordsAll
    exact .pure ()
  | m :: ms =>
    unfold declareAll recordsAll
    rw [List.map_append]
    exact (declares_declare outer m).bind (declares_declareAll outer ms)

end

end ProtoMessage

namespace ProtoFile

/-- The full names of the messages of a file with their fields, without those for the entries of
maps. -/
def records (f : ProtoFile) : List (Text × List ProtoField) :=
  ProtoMessage.recordsAll f.package f.messages

/-- Declaring the messages of a file declares the records of the file. -/
theorem declares_declareMessages (f : ProtoFile) :
    Declares f.declareMessages (f.records.map ProtoMessage.recordOf) () :=
  (ProtoMessage.declares_declareAll f.package f.messages).within f.name

/-! ## Files -/

/-- The file of a name. -/
def find? (files : List ProtoFile) (name : Text) : Option ProtoFile :=
  files.find? (·.name == name)

/-- A file that is found has one of the names. -/
theorem mem_names_of_find? {files : List ProtoFile} {name : Text} {f : ProtoFile}
    (h : find? files name = some f) : name ∈ files.map (·.name) := by
  unfold find? at h
  have hname : f.name = name := by simpa using List.find?_some h
  exact List.mem_map.2 ⟨f, List.mem_of_find?_eq_some h, hname⟩

/-- Goes through a list of files one after the other. -/
def reachAll (reach : Text → List Text → List ProtoFile × List Text) :
    List Text → List Text → List ProtoFile × List Text
  | [], seen => ([], seen)
  | name :: names, seen =>
    let first := reach name seen
    let rest := reachAll reach names first.2
    (first.1 ++ rest.1, rest.2)

/-- The files that are gone through from a file on, to a depth of `fuel`, and the names that have
been seen then. -/
def reach (files : List ProtoFile) : Nat → Text → List Text → List ProtoFile × List Text
  | 0, _, seen => ([], seen)
  | fuel + 1, name, seen =>
    if seen.contains name then ([], seen)
    else match find? files name with
      | none => ([], name :: seen)
      | some f =>
        let below := reachAll (reach files fuel) f.imports (name :: seen)
        (below.1 ++ [f], below.2)

/-- The classes of the records of some files. -/
def classesOf (fs : List ProtoFile) : List Class :=
  (fs.flatMap records).map ProtoMessage.recordOf

/-- The classes of two lists of files are those of the one and then of the other. -/
theorem classesOf_append (fs gs : List ProtoFile) :
    classesOf (fs ++ gs) = classesOf fs ++ classesOf gs := by
  simp [classesOf]

/-- If going through one file declares the records of the files gone through, so does going through
a list of them. -/
theorem declares_visitAll {visit : Text → List Text → Declaring (List Text)}
    {reach : Text → List Text → List ProtoFile × List Text}
    (h : ∀ name seen, Declares (visit name seen) (classesOf (reach name seen).1) (reach name seen).2)
    (names seen : List Text) :
    Declares (visitAll visit names seen) (classesOf (reachAll reach names seen).1)
      (reachAll reach names seen).2 := by
  -- By induction on the names; the names seen are handed from each to the next.
  induction names generalizing seen with
  | nil => exact .pure seen
  | cons name names ih =>
    unfold visitAll reachAll
    dsimp only
    rw [classesOf_append]
    exact (h name seen).bind (ih _)

/-- Going through a file declares the records of the files gone through. -/
theorem declares_visit (files : List ProtoFile) (fuel : Nat) (name : Text) (seen : List Text) :
    Declares (visit files fuel name seen) (classesOf (reach files fuel name seen).1)
      (reach files fuel name seen).2 := by
  -- By induction on the fuel; a file declares what its imports do and then its own records.
  induction fuel generalizing name seen with
  | zero => exact .pure seen
  | succ fuel ih =>
    unfold visit reach
    by_cases hseen : seen.contains name = true
    · rw [if_pos hseen, if_pos hseen]
      exact .pure seen
    · rw [if_neg hseen, if_neg hseen]
      unfold find?
      cases files.find? (·.name == name) with
      | none => exact .pure _
      | some f =>
        dsimp only
        rw [classesOf_append]
        have hfile : classesOf [f] = f.records.map ProtoMessage.recordOf ++ [] := by
          simp [classesOf]
        rw [hfile]
        exact (declares_visitAll ih _ _).bind ((declares_declareMessages f).bind (.pure _))

/-! ## Which files are gone through -/

/-- The names that some names lead to over the imports of files. -/
inductive LeadsTo (files : List ProtoFile) (names : List Text) : Text → Prop where
  | named {n : Text} : n ∈ names → LeadsTo files names n
  | imported {m n : Text} {f : ProtoFile} : LeadsTo files names m → find? files m = some f →
    n ∈ f.imports → LeadsTo files names n

/-- A file is imported with the files of some names. -/
def IsImported (files : List ProtoFile) (names : List Text) (f : ProtoFile) : Prop :=
  ∃ n, LeadsTo files names n ∧ find? files n = some f

/-- What names lead to that are led to themselves, the first names lead to. -/
theorem LeadsTo.trans {files : List ProtoFile} {names names' : List Text} {n : Text}
    (h : LeadsTo files names' n) (hnames : ∀ m ∈ names', LeadsTo files names m) :
    LeadsTo files names n := by
  induction h with
  | named hn => exact hnames _ hn
  | imported _ hfind hn ih => exact .imported ih hfind hn

/-- Going through some names has seen them, and has gone through the files of all names that are
new, and seen the names that these import. -/
structure Visits (files : List ProtoFile) (seen names : List Text)
    (result : List ProtoFile × List Text) : Prop where
  keeps : ∀ n ∈ seen, n ∈ result.2
  named : ∀ n ∈ names, n ∈ result.2
  closed : ∀ n ∈ result.2, n ∉ seen → ∀ f, find? files n = some f →
    f ∈ result.1 ∧ ∀ m ∈ f.imports, m ∈ result.2
  sound : ∀ f ∈ result.1, IsImported files names f

section

variable {files : List ProtoFile} {seen names names' : List Text}
  {result result' : List ProtoFile × List Text}

/-- No names are gone through by doing nothing. -/
theorem Visits.nil (files : List ProtoFile) (seen : List Text) : Visits files seen [] ([], seen) :=
  ⟨fun _ => id, nofun, fun _ hn hnew => absurd hn hnew, nofun⟩

/-- Going through two lists of names one after the other is going through both. -/
theorem Visits.append (h : Visits files seen names result)
    (h' : Visits files result.2 names' result') :
    Visits files seen (names ++ names') (result.1 ++ result'.1, result'.2) := by
  -- What holds after the first part is kept by the second.
  refine ⟨fun n hn => h'.keeps n (h.keeps n hn), fun n hn => ?_, fun n hn hnew f hf => ?_,
    fun f hf => ?_⟩
  · obtain hn | hn := List.mem_append.1 hn
    · exact h'.keeps n (h.named n hn)
    · exact h'.named n hn
  · -- A name that the first part has not seen is new to the second one.
    by_cases hfirst : n ∈ result.2
    · obtain ⟨hmem, himports⟩ := h.closed n hfirst hnew f hf
      exact ⟨List.mem_append_left _ hmem, fun m hm => h'.keeps m (himports m hm)⟩
    · obtain ⟨hmem, himports⟩ := h'.closed n hn hfirst f hf
      exact ⟨List.mem_append_right _ hmem, himports⟩
  · obtain hf | hf := List.mem_append.1 hf
    · obtain ⟨n, hn, hfind⟩ := h.sound f hf
      exact ⟨n, hn.trans fun m hm => .named (List.mem_append_left _ hm), hfind⟩
    · obtain ⟨n, hn, hfind⟩ := h'.sound f hf
      exact ⟨n, hn.trans fun m hm => .named (List.mem_append_right _ hm), hfind⟩

/-- The more names have been seen, the fewer are left. -/
theorem left_mono {names seen seen' : List Text} (h : ∀ n ∈ seen, n ∈ seen') :
    left names seen' ≤ left names seen := by
  unfold left
  apply Finset.card_le_card
  intro n hn
  simp only [Finset.mem_sdiff, List.mem_toFinset] at hn ⊢
  exact ⟨hn.1, fun hmem => hn.2 (h n hmem)⟩

/-- If going through one name goes through everything below it, so does going through a list of
them. -/
theorem visits_reachAll {reach : Text → List Text → List ProtoFile × List Text} {fuel : Nat}
    (h : ∀ name seen, left (files.map (·.name)) seen < fuel →
      Visits files seen [name] (reach name seen))
    (names : List Text) {seen : List Text} (hfuel : left (files.map (·.name)) seen < fuel) :
    Visits files seen names (reachAll reach names seen) := by
  -- By induction on the names; each leaves no more files to go through than before.
  induction names generalizing seen with
  | nil => exact .nil files seen
  | cons name names ih =>
    have hfirst := h name seen hfuel
    have hfuel' : left (files.map (·.name)) (reach name seen).2 < fuel :=
      lt_of_le_of_lt (left_mono hfirst.keeps) hfuel
    exact hfirst.append (ih hfuel')

/-- Going through a file goes through everything it leads to, if there is fuel for all files that
have not been seen. -/
theorem visits_reach {fuel : Nat} (name : Text) {seen : List Text}
    (hfuel : left (files.map (·.name)) seen < fuel) :
    Visits files seen [name] (reach files fuel name seen) := by
  -- By induction on the fuel: each name that is gone through is one fewer of those left.
  induction fuel generalizing name seen with
  | zero => cases hfuel
  | succ fuel ih =>
    unfold reach
    by_cases hseen : name ∈ seen
    · rw [if_pos (List.contains_iff_mem.2 hseen)]
      exact ⟨fun _ => id, List.forall_mem_singleton.2 hseen, fun _ hn hnew => absurd hn hnew, nofun⟩
    rw [if_neg (mt List.contains_iff_mem.1 hseen)]
    cases hfind : find? files name with
    | none =>
      refine ⟨fun n => List.mem_cons_of_mem _, List.forall_mem_singleton.2 List.mem_cons_self,
        fun n hn hnew f hf => ?_, nofun⟩
      have hname : n = name := (List.mem_cons.1 hn).resolve_right hnew
      rw [hname, hfind] at hf
      cases hf
    | some f =>
      -- The file itself is one of those not seen, so there is fuel for the ones below it.
      have hmem : name ∈ files.map (·.name) := mem_names_of_find? hfind
      have hleft := left_cons hmem hseen
      have hbelow : Visits files (name :: seen) f.imports
          (reachAll (reach files fuel) f.imports (name :: seen)) :=
        visits_reachAll (fun name seen h => ih name h) f.imports (by omega)
      dsimp only
      refine ⟨fun n hn => hbelow.keeps n (List.mem_cons_of_mem _ hn),
        List.forall_mem_singleton.2 (hbelow.keeps name List.mem_cons_self),
        fun n hn hnew g hg => ?_, fun g hg => ?_⟩
      · by_cases hname : n = name
        · rw [hname, hfind] at hg
          cases hg
          exact ⟨List.mem_append_right _ (List.mem_singleton_self f), hbelow.named⟩
        · obtain ⟨hmem, himports⟩ := hbelow.closed n hn (by simp [hname, hnew]) g hg
          exact ⟨List.mem_append_left _ hmem, himports⟩
      · have hself : LeadsTo files [name] name := .named List.mem_cons_self
        obtain hg | hg := List.mem_append.1 hg
        · obtain ⟨n, hn, hfound⟩ := hbelow.sound g hg
          exact ⟨n, hn.trans fun m hm => .imported hself hfind hm, hfound⟩
        · rw [List.mem_singleton.1 hg]
          exact ⟨name, hself, hfind⟩

end

/-- The files that an import goes through. -/
def reached (files : List ProtoFile) (names : List Text) : List ProtoFile :=
  (reachAll (reach files (files.length + 1)) names []).1

/-- An import goes through the files that the named ones lead to, and through no others. -/
theorem mem_reached_iff {files : List ProtoFile} {names : List Text} {f : ProtoFile} :
    f ∈ reached files names ↔ IsImported files names f := by
  have hfuel : left (files.map (·.name)) [] < files.length + 1 := by
    have hcard := List.toFinset_card_le (files.map (·.name))
    rw [List.length_map] at hcard
    simp only [left, List.toFinset_nil, Finset.sdiff_empty]
    omega
  have hvisits := visits_reachAll (fun name _ h => visits_reach name h) names hfuel
  refine ⟨hvisits.sound f, ?_⟩
  rintro ⟨n, hn, hfind⟩
  -- Everything that the names lead to has been seen.
  have hseen : n ∈ (reachAll (reach files (files.length + 1)) names []).2 := by
    clear hfind
    induction hn with
    | named hn => exact hvisits.named _ hn
    | imported _ hfind hn ih =>
      exact (hvisits.closed _ ih List.not_mem_nil _ hfind).2 _ hn
  exact (hvisits.closed n hseen List.not_mem_nil f hfind).1

end ProtoFile

/-! ## Imports -/

namespace Registry

/-- The registry with the hook for messages, unless it is there. -/
def withMessageTyper (r : Registry) : Registry :=
  if r.typers.contains .messages then r else { r with typers := r.typers ++ [.messages] }

/-- Seeing to the hook for messages declares no class. -/
theorem classes_withMessageTyper (r : Registry) : r.withMessageTyper.classes = r.classes := by
  unfold withMessageTyper
  split <;> rfl

/-- The hook for messages is set once. -/
theorem withMessageTyper_again (r : Registry) :
    r.withMessageTyper.withMessageTyper = r.withMessageTyper := by
  by_cases h : r.typers.contains .messages = true
  · have hsame : r.withMessageTyper = r := if_pos h
    rw [hsame, hsame]
  · have hadded : r.withMessageTyper = { r with typers := r.typers ++ [.messages] } := if_neg h
    rw [hadded]
    exact if_pos (by simp)

/-- Where the hook is there at most once, it is there exactly once then. -/
theorem count_withMessageTyper {r : Registry} (h : r.typers.count .messages ≤ 1) :
    r.withMessageTyper.typers.count .messages = 1 := by
  unfold withMessageTyper
  by_cases hmem : Typer.messages ∈ r.typers
  · rw [if_pos (List.contains_iff_mem.2 hmem)]
    have hpos := List.count_pos_iff.2 hmem
    omega
  · rw [if_neg (mt List.contains_iff_mem.1 hmem), List.count_append, List.count_eq_zero.2 hmem]
    rfl

/-- Whether a class can be declared again does not depend on the hooks. -/
theorem Redeclarable.withMessageTyper {r : Registry} {c : Class} (h : r.Redeclarable c) :
    r.withMessageTyper.Redeclarable c := by
  unfold Registry.withMessageTyper
  split
  · exact h
  · exact ⟨h.nonempty, h.unreserved, h.known, h.no_var, h.params_nodup, h.params, h.bases, h.members⟩

end Registry

namespace ProtoFile

variable {files : List ProtoFile} {names : List Text} {r r' : Registry}

/-- The classes that an import declares, one after the other. -/
def importedClasses (files : List ProtoFile) (names : List Text) : List Class :=
  classesOf (reached files names)

/-- The records of messages have no type parameters. -/
theorem params_importedClasses : ∀ c ∈ importedClasses files names, c.params = [] := by
  intro c hc
  obtain ⟨record, -, rfl⟩ := List.mem_map.1 hc
  rfl

/-- When an import has gone through all files, it sees to the hook for messages. -/
theorem after_importAll (files : List ProtoFile) (names : List Text) (r : Registry) :
    after (importAll files names) r =
      match after (visitAll (visit files (files.length + 1)) names []) r with
      | (.ok _, r₁) => (.ok (), r₁.withMessageTyper)
      | (.error e, r₁) => (.error e, r₁) := by
  -- The hook is installed only after a run without failure.
  unfold importAll
  rw [after_bind]
  rcases after (visitAll (visit files (files.length + 1)) names []) r with ⟨_ | seen, r₁⟩
  · rfl
  · dsimp only
    rw [after_get_bind]
    unfold Registry.withMessageTyper
    split <;> rfl

/-- An import declares the records of the files it goes through, and then sees to the hook for
messages. -/
theorem after_importAll_ok : after (importAll files names) r = (.ok (), r') ↔
    ∃ r₁, after ((importedClasses files names).forM Registry.declare) r = (.ok (), r₁) ∧
      -- What is declared on the way does not depend on the registry, so only the success of the
      -- declarations matters.
      r' = r₁.withMessageTyper := by
  have hvisits := declares_visitAll (declares_visit files (files.length + 1)) names []
  rw [after_importAll]
  constructor
  · intro h
    rcases hvisit : after (visitAll (visit files (files.length + 1)) names []) r with ⟨_ | seen, r₁⟩
    · rw [hvisit] at h
      cases h
    · rw [hvisit] at h
      cases h
      exact ⟨r₁, ((hvisits r r₁ seen).1 hvisit).2, rfl⟩
  · rintro ⟨r₁, hdeclared, rfl⟩
    rw [(hvisits r r₁ _).2 ⟨rfl, hdeclared⟩]

/-- So no record is named like one of its own parameters. -/
theorem importedClasses_own :
    ∀ c ∈ importedClasses files names, c.name ∉ c.params.map (·.name) := by
  intro c hc
  rw [params_importedClasses c hc]
  exact List.not_mem_nil

/-- An import that has succeeded succeeds again and then changes nothing. -/
theorem importAll_again (h : after (importAll files names) r = (.ok (), r')) :
    after (importAll files names) r' = (.ok (), r') := by
  obtain ⟨r₁, hdeclared, rfl⟩ := after_importAll_ok.1 h
  obtain ⟨hclasses, hagain⟩ := redeclarable_of_forM importedClasses_own hdeclared
  have hsame := r₁.classes_withMessageTyper
  refine after_importAll_ok.2 ⟨r₁.withMessageTyper, ?_, r₁.withMessageTyper_again.symm⟩
  rw [after_forM_redeclarable fun c hc => (hagain c hc).withMessageTyper, hsame, hclasses,
    enterAll_again, ← hclasses, ← hsame]

/-- After an import, the records that it has declared are found under their names, and every other
name has the class that it had. -/
theorem class?_of_importAll (h : after (importAll files names) r = (.ok (), r')) (n : Text) :
    (n ∈ (importedClasses files names).map (·.name) →
      ∃ c ∈ importedClasses files names, c.name = n ∧ r'.class? n = some c) ∧
    (n ∉ (importedClasses files names).map (·.name) → r'.class? n = r.class? n) := by
  obtain ⟨r₁, hdeclared, rfl⟩ := after_importAll_ok.1 h
  have hclasses := (redeclarable_of_forM importedClasses_own hdeclared).1
  rw [class?, classes_withMessageTyper, hclasses]
  exact ⟨fun hn => find?_enterAll_of_mem hn r.classes,
    fun hn => find?_enterAll_of_not_mem hn r.classes⟩

end ProtoFile

/-! ## Closed messages -/

/-- The message that a value of a field holds. -/
def ProtoType.messageName? : ProtoType → Option Text
  | message name => some name
  | _ => none

/-- The messages that a field holds. -/
def FieldShape.messageNames : FieldShape → List Text
  | single _ t => t.messageName?.toList
  | map key value => key.messageName?.toList ++ value.messageName?.toList

section

variable {K V : Text → Prop}

/-- The type of a value mentions a builtin class or the message it holds. -/
theorem ProtoType.scoped_expr (hany : K Name.any) (hbuiltin : ∀ n ∈ Name.builtins, K n)
    {t : ProtoType} (h : ∀ n ∈ t.messageName?.toList, K n) : t.expr.Scoped K V := by
  cases t with
  | scalar keyword =>
    have hexpr : (scalar keyword).expr =
        ((scalarClasses.lookup keyword).map TypeExpr.con).getD .any := rfl
    rw [hexpr]
    -- A keyword without a class stands for the wildcard.
    cases hlookup : scalarClasses.lookup keyword with
    | none => exact .con hany
    | some name =>
      have hall : ∀ entry ∈ scalarClasses, entry.2 ∈ Name.builtins := by decide
      exact .con (hbuiltin name (hall (keyword, name) (Table.mem_of_find? hlookup)))
  | enum => exact .con (hbuiltin _ (by decide))
  | message name => exact .con (h name (by simp [messageName?]))

/-- The type of a field mentions builtin classes and the messages that the field holds. -/
theorem FieldShape.scoped_expr (hany : K Name.any) (hbuiltin : ∀ n ∈ Name.builtins, K n)
    {shape : FieldShape} (h : ∀ n ∈ shape.messageNames, K n) : shape.expr.Scoped K V := by
  have hoptional {t : TypeExpr} (ht : t.Scoped K V) : (TypeExpr.optionalOf t).Scoped K V :=
    .union (List.forall_mem_cons.2
      ⟨ht, List.forall_mem_singleton.2 (.con (hbuiltin _ (by decide)))⟩)
  -- A message that is not repeated may be missing, so its type is optional either way.
  cases shape with
  | map key value =>
    obtain ⟨hkey, hvalue⟩ := List.forall_mem_append.1 h
    exact .generic (hbuiltin _ (by decide)) (List.forall_mem_cons.2
      ⟨ProtoType.scoped_expr hany hbuiltin hkey,
        List.forall_mem_singleton.2 (ProtoType.scoped_expr hany hbuiltin hvalue)⟩)
  | single cardinality t =>
    have ht : t.expr.Scoped K V := ProtoType.scoped_expr hany hbuiltin h
    cases cardinality with
    | repeated => exact .generic (hbuiltin _ (by decide)) (List.forall_mem_singleton.2 ht)
    | optional => exact hoptional ht
    | plain =>
      cases t with
      | message name => exact hoptional ht
      | _ => exact ht

end

namespace ProtoFile

variable {files : List ProtoFile} {names : List Text} {r r' : Registry}

/-- Every message that a field of an imported file holds is a message of an imported file, and none
for the entries of a map. -/
def Resolves (files : List ProtoFile) (names : List Text) : Prop :=
  ∀ f, IsImported files names f → ∀ record ∈ f.records, ∀ field ∈ record.2,
    ∀ n ∈ field.shape.messageNames, ∃ g, IsImported files names g ∧ n ∈ g.records.map (·.1)

/-- The imported classes are named by the records of the files that the names lead to. -/
theorem mem_names_importedClasses {n : Text} : n ∈ (importedClasses files names).map (·.name) ↔
    ∃ f, IsImported files names f ∧ n ∈ f.records.map (·.1) := by
  simp only [importedClasses, classesOf, List.map_map, List.mem_map, List.mem_flatMap,
    mem_reached_iff]
  constructor
  · rintro ⟨record, ⟨f, hf, hrecord⟩, rfl⟩
    exact ⟨f, hf, record, hrecord, rfl⟩
  · rintro ⟨f, hf, record, hrecord, rfl⟩
    exact ⟨record, ⟨f, hf, hrecord⟩, rfl⟩

/-- What the class of an imported message mentions is `Any` or a class. -/
theorem closed_of_importAll (hbuiltin : r.Knows Name.builtins) (hresolves : Resolves files names)
    (h : after (importAll files names) r = (.ok (), r')) {f : ProtoFile}
    (hf : IsImported files names f) {n : Text} (hn : n ∈ f.records.map (·.1)) :
    -- The classes that are mentioned are those of other messages and the builtin ones, and both are
    -- found after the import.
    ∃ c, r'.class? n = some c ∧ c.Scoped r'.HasType fun _ => False := by
  have hrecord : ∀ m, m ∈ (importedClasses files names).map (·.name) →
      (r'.class? m).isSome = true := by
    intro m hm
    obtain ⟨d, -, -, hfound⟩ := (class?_of_importAll h m).1 hm
    rw [hfound]
    rfl
  have hknown : ∀ m ∈ Name.builtins, (r'.class? m).isSome = true := by
    intro m hm
    by_cases hnew : m ∈ (importedClasses files names).map (·.name)
    · exact hrecord m hnew
    · rw [(class?_of_importAll h m).2 hnew]
      exact hbuiltin m hm
  -- So the class found is a record of some file that was gone through.
  obtain ⟨c, hc, -, hfound⟩ := (class?_of_importAll h n).1 (mem_names_importedClasses.2 ⟨f, hf, hn⟩)
  obtain ⟨record, hmem, rfl⟩ := List.mem_map.1 hc
  obtain ⟨g, hg, hrecords⟩ := List.mem_flatMap.1 hmem
  refine ⟨_, hfound, nofun, fun m hm => ?_, nofun⟩
  obtain ⟨field, hfield, rfl⟩ := List.mem_map.1 hm
  refine FieldShape.scoped_expr (.inl rfl) (fun m hm => .inr (hknown m hm)) fun m hm => .inr ?_
  exact hrecord m (mem_names_importedClasses.2
    (hresolves g (mem_reached_iff.1 hg) record hrecords field hfield m hm))

end ProtoFile

end TypeShape
