import TypeShape.Proofs.DeclaredBases
import TypeShape.Proofs.IdenticalTypes
import TypeShape.Proofs.ImportedClasses
import TypeShape.Proofs.Lineages

/-!
# Implemented interfaces

A type of a package implements an interface if it has the methods of the interface with identical
types.  An import makes a protocol of the interface, and conformance to it asks for every method
again.  It finds the capitalized ones among the members of the type itself, whatever the type
inherits, and they have the same expressions on both sides.  The class of an interface has all
methods of it, though, and the class of another type only the capitalized ones.  A method that is
neither capitalized nor private is therefore asked for and not there, unless it is inherited.

Packages of one name may have types of one name, which come to one class: that of the last of them.

## Key results

- `Registry.holds_bare_iff`: when a class without arguments is below another one
- `Packages.holds_implements_iff`: when the class of a type is below that of an interface, both being
  the last types of their names
- `Engine.isSubtype_of_implements`: when the class of a type is below that of an interface which the
  type implements
- `Engine.not_isSubtype_of_implements`: a method that is not capitalized is not found
-/

namespace TypeShape

open Declaring

namespace Registry

open Shape

variable {r : Registry} {see : View} {c : Class}

/-! ## The members of a class without parameters -/

/-- The parameters of a class that has none are bound to nothing. -/
theorem enters_plain (hc : r.class? c.name = some c) (hparams : c.params = [])
    (args : List Shape) : r.Enters see (ofClass c.name args) ⟨c, []⟩ := by
  constructor
  · rw [classOf?, origin_ofClass]
    exact hc
  · unfold ownBindings
    rw [if_pos (by simp [Class.isGeneric, hparams])]
    rfl

/-- A walk from a class without parameters visits it first and then goes along its bases. -/
theorem run_walkClasses_plain (hc : r.class? c.name = some c) (hparams : c.params = [])
    (args : List Shape) (room : Nat) :
    (r.walkClasses noteVisit (room + 1) (ofClass c.name args) ([], []) : Seeing _).run see =
      (r.walkBases (r.walkClasses noteVisit room) [] c.bases ([c.name], [⟨c, []⟩]) : Seeing _).run
        see := by
  have hole : (ofClass c.name args).isHole = false := by
    rw [isHole, origin_ofClass]
  have hfirst : r.Enters see (ofClass c.name args) ⟨c, []⟩ := enters_plain hc hparams args
  simp only [run_walkClasses_succ, hole, hfirst.cls, hfirst.bindings, Bool.false_eq_true, if_false]
  rfl

/-- A walk from a class without parameters and bases visits nothing else. -/
theorem visits_of_no_bases (hc : r.class? c.name = some c) (hparams : c.params = [])
    (hbases : c.bases = []) (args : List Shape) :
    r.visits see (ofClass c.name args) = .ok [⟨c, []⟩] := by
  show Except.map (·.2) ((r.walkClasses noteVisit (maxRecursion + 1) (ofClass c.name args)
    ([], []) : Seeing _).run see) = _
  rw [run_walkClasses_plain hc hparams, hbases]
  rfl

/-- The first visit of a walk from a class without parameters is to that class. -/
theorem visits_eq_cons (hc : r.class? c.name = some c) (hparams : c.params = [])
    (args : List Shape) {log : List Visit} (h : r.visits see (ofClass c.name args) = .ok log) :
    ∃ rest, log = ⟨c, []⟩ :: rest := by
  obtain ⟨visited, hrun⟩ := run_of_visits h
  rw [run_walkClasses_plain hc hparams args] at hrun
  have hfirst : r.Trail see (ofClass c.name args) [⟨c, []⟩] :=
    .first (enters_plain hc hparams args)
  -- What the walk does after the first visit only adds to the list.
  have hkeeps := keeps_walkBases (r.walkClasses noteVisit maxRecursion)
    (fun s log htrail hahead => keeps_walkClasses maxRecursion htrail hahead)
    (u := ⟨c, []⟩) (fun _ h => h) (List.mem_singleton_self _) hfirst
  obtain ⟨-, -, rest, hrest⟩ := hkeeps visited log hrun
  exact ⟨rest, hrest.symm⟩

/-- Members of different names are all the first of their names. -/
theorem firstMembers_of_nodup {seen : List Text} {ms : List Member}
    (hseen : ∀ m ∈ ms, m.name ∉ seen) (hnodup : (ms.map (·.name)).Nodup) :
    firstMembers seen ms = ms := by
  -- By induction on the members, for all names seen, of which each member adds one.
  induction ms generalizing seen with
  | nil => rfl
  | cons m ms ih =>
    obtain ⟨hm, hms⟩ := List.forall_mem_cons.1 hseen
    rw [List.map_cons, List.nodup_cons] at hnodup
    rw [firstMembers, if_neg (by simpa using hm)]
    refine congrArg (List.cons m) (ih (fun n hn hmem => ?_) hnodup.2)
    obtain heq | hmem := List.mem_cons.1 hmem
    · exact hnodup.1 (heq ▸ List.mem_map_of_mem hn)
    · exact hms n hn hmem

/-- The members of a class that is declared have different names, so all are the first of theirs. -/
theorem firstMembers_own (hr : r.WellFormed) (hc : r.class? c.name = some c) :
    firstMembers [] c.members = c.members :=
  firstMembers_of_nodup (fun _ _ => List.not_mem_nil) (hr.classes _ _ hc).members_nodup

/-- The members of a class without parameters and bases are its own. -/
theorem membersSeen_of_no_bases (hr : r.WellFormed) (hc : r.class? c.name = some c)
    (hparams : c.params = []) (hbases : c.bases = []) (args : List Shape) :
    r.membersSeen see (ofClass c.name args) = .ok (c.members.map (r.memberSeen see [])) := by
  rw [membersSeen_of_visits (visits_of_no_bases hc hparams hbases args), firstDeclared,
    firstMembers_own hr hc, firstDeclared, List.append_nil, List.map_map]
  rfl

/-- Conformance sees the members of a class without parameters before those that it inherits. -/
theorem membersSeen_eq_append (hr : r.WellFormed) (hc : r.class? c.name = some c)
    (hparams : c.params = []) {args : List Shape} {found : List MemberShape}
    (h : r.membersSeen see (ofClass c.name args) = .ok found) :
    ∃ inherited, found = c.members.map (r.memberSeen see []) ++ inherited := by
  -- The members of the class itself come first, since the walk visits the class first.
  cases hvisits : r.visits see (ofClass c.name args) with
  | error e =>
    rw [membersSeen, memberShapes, walkAll_eq_foldl, hvisits] at h
    cases h
  | ok log =>
    obtain ⟨rest, rfl⟩ := visits_eq_cons hc hparams args hvisits
    rw [membersSeen_of_visits hvisits, firstDeclared, firstMembers_own hr hc, List.map_append,
      List.map_map] at h
    cases h
    exact ⟨_, rfl⟩

/-- A member of the class itself is found under its name. -/
theorem find?_own {ms : List Member} (hnodup : (ms.map (·.name)).Nodup) {m : Member} (hm : m ∈ ms)
    (inherited : List MemberShape) :
    (ms.map (r.memberSeen see []) ++ inherited).find? (·.name == m.name) =
      some (r.memberSeen see [] m) := by
  -- A member before it has another name, so the search goes on to it.
  induction ms with
  | nil => cases hm
  | cons n ms ih =>
    rw [List.map_cons, List.nodup_cons] at hnodup
    rw [List.map_cons, List.cons_append]
    obtain rfl | hm := List.mem_cons.1 hm
    · exact List.find?_cons_of_pos (beq_self_eq_true m.name)
    · have hne : ¬ n.name = m.name := fun heq => hnodup.1 (heq ▸ List.mem_map_of_mem hm)
      rw [List.find?_cons_of_neg (by simpa [memberSeen] using hne)]
      exact ih hnodup.2 hm

/-! ## Conformance to a protocol without parameters -/

/-- A class that fits another by name inherits from it. -/
theorem isSubclass_of_fits {sub : Shape → Shape → Prop} {m n : Text} {as ts : List Shape}
    (h : r.NominallyFits sub (ofClass m as) (ofClass n ts)) : r.isSubclass m n = true := by
  have hobject (hobj : (ofClass n ts).isObject = true) : r.isSubclass m n = true := by
    have horigin := origin_ofClass n ts
    rw [isObject_iff.1 hobj] at horigin
    cases horigin
    exact isSubclass_iff.2 (.inr (.inl rfl))
  obtain hobj | ⟨horigin, -⟩ := h
  · exact hobject hobj
  · rw [originSatisfies, origin_ofClass, origin_ofClass, Bool.or_eq_true] at horigin
    exact horigin.elim hobject id

/-- When a class without arguments is below another one: it inherits from it, or that one is a
protocol to which it conforms. -/
theorem holds_bare_iff (hsee : see.IsWhole) (m n : Text) {k : Nat} :
    r.Holds see (k + 2) [] (ofClass m []) (ofClass n []) ↔ r.isSubclass m n = true ∨
      r.isProtocol (ofClass n []) = true ∧
        r.Conforms see (r.Holds see (k + 1) [conformanceKey (ofClass m []) (ofClass n [])])
          (ofClass m []) (ofClass n []) := by
  have hwm : (ofClass m []).isWhole = true := isWhole_ofClass m rfl
  have hwn : (ofClass n []).isWhole = true := isWhole_ofClass n rfl
  have hsm := isSolid_ofClass m []
  have hsn := isSolid_ofClass n []
  -- A class inherits from itself, and a question about it is answered before any rule.
  by_cases heq : m = n
  · subst heq
    exact ⟨fun _ => .inl (isSubclass_iff.2 (.inl rfl)), fun _ => holds_refl hsee hwm _ _⟩
  constructor
  · -- There are no slots to compare, so a class that fits by name inherits.
    intro h
    obtain hfits | ⟨hprotocol, hconf⟩ := h.rule.nominal_or_conforms (by simp)
      (not_same_ofClass heq [] []) hsm hsn
    · exact .inl (isSubclass_of_fits hfits)
    · exact .inr ⟨hprotocol, hconf.resolve_left List.not_mem_nil⟩
  · intro h
    refine holds_of_rule_of_isWhole hsee hwm hwn ?_
    obtain hsub | ⟨hprotocol, hconf⟩ := h
    · refine .nominal hsm hsn (.inr ⟨?_, .inl rfl⟩)
      exact originSatisfies_of_kinds (origin_ofClass m []) (origin_ofClass n []) fun _ => hsub
    · exact .conforms hsm hsn hprotocol (.inr hconf)

/-- What it takes to conform to a protocol that has no parameters and no bases. -/
theorem conforms_plain_iff {d : Class} (hr : r.WellFormed) (hd : r.class? d.name = some d)
    (hparams : d.params = []) (hbases : d.bases = []) {sub : Shape → Shape → Prop} {s : Shape} :
    r.Conforms see sub s (ofClass d.name []) ↔ ∃ found, r.membersSeen see s = .ok found ∧
      ∀ m ∈ d.members, isPrivateName m.name = false →
        ∃ own, found.find? (·.name == m.name) = some own ∧
          sub own.shape (r.shapeSeen see m.type) := by
  have hmembers : r.membersSeen see (ofClass d.name []) =
      .ok (d.members.map (r.memberSeen see [])) :=
    membersSeen_of_no_bases hr hd hparams hbases []
  constructor
  -- The members wanted are those of the protocol itself, since it has no bases.
  · rintro ⟨wanted, found, hwanted, hfound, hall⟩
    rw [hmembers] at hwanted
    cases hwanted
    refine ⟨found, hfound, fun m hm hpublic => ?_⟩
    exact hall _ (List.mem_map_of_mem hm) hpublic
  · rintro ⟨found, hfound, hall⟩
    refine ⟨_, found, hmembers, hfound, fun member hmember hpublic => ?_⟩
    obtain ⟨m, hm, rfl⟩ := List.mem_map.1 hmember
    exact hall m hm hpublic

end Registry

/-! ## The classes of types and of interfaces -/

namespace Importer

variable {imp : Importer} {i : Imported}

/-- A name of a method that the class of an interface has and that of another type has not, although
conformance asks for it. -/
def isOneSided (name : Text) : Bool :=
  !Letter.isCapitalized name && !isPrivateName name

/-- A type without type parameters has a class without them. -/
theorem paramsOf_plain (h : i.declaration.params = []) : imp.paramsOf i = [] := by
  unfold paramsOf
  rw [h]
  rfl

/-- The class of an interface has all its methods as members and no bases. -/
theorem classOf_interface {methods : List (Text × ResolvedType)}
    {embeds : List (List ResolvedType)} {home : Text}
    (h : imp.packages.underlying i.self = .interface methods embeds home) :
    imp.classOf i =
      { name := i.className, kind := .protocol, params := imp.paramsOf i,
        members := imp.membersOf (imp.paramsOf i) (imp.packages.interfaceMethods i.self) } := by
  unfold classOf
  rw [h]

/-- The members that come from fields have capitalized names. -/
theorem isCapitalized_fieldParts (vars : List TypeVar)
    (fields : List (Option Text × ResolvedType)) :
    ∀ m ∈ (imp.fieldParts vars fields).2, Letter.isCapitalized m.name = true := by
  induction fields with
  | nil => nofun
  | cons field rest ih =>
    -- An embedded field of an imported type makes a base; any other field makes a member if its
    -- name is capitalized, and nothing otherwise.
    unfold fieldParts
    dsimp only
    split
    · exact ih
    · split
      · rename_i hname
        exact List.forall_mem_cons.2 ⟨hname, ih⟩
      · exact ih

/-- The class of a type that is no interface has the capitalized methods of the type as its last
members, and no member that is not capitalized. -/
theorem classOf_concrete
    (h : ∀ methods embeds home, imp.packages.underlying i.self ≠ .interface methods embeds home) :
    ∃ bases fields, (∀ m ∈ fields, Letter.isCapitalized m.name = true) ∧
      imp.classOf i =
        { name := i.className, params := imp.paramsOf i, bases,
          members := fields ++ imp.membersOf (imp.paramsOf i)
            ((imp.packages.methodSet i.self).filter fun m => Letter.isCapitalized m.1.name) } := by
  -- A structure has fields as members besides; of all other types, the methods are the only
  -- members.
  unfold classOf
  dsimp only
  split
  · rename_i methods embeds home hinterface
    exact absurd hinterface (h methods embeds home)
  · exact ⟨_, _, isCapitalized_fieldParts _ _, rfl⟩
  · exact ⟨_, [], nofun, rfl⟩

end Importer

namespace Packages

open Registry

variable {ps : Packages} {s i : Imported} {r r' : Registry}

/-- A type that is no interface implements one: the methods of the interface are those of a pointer
to the type, with identical types. -/
structure Implements (ps : Packages) (s i : Imported) : Prop where
  interface : ∃ methods embeds home, ps.underlying i.self = .interface methods embeds home
  concrete : ∀ methods embeds home, ps.underlying s.self ≠ .interface methods embeds home
  methods : ∀ m ∈ ps.interfaceMethods i.self, ∃ own ∈ ps.methodSet s.self,
    own.1 = m.1 ∧ ps.identical m.2 own.2 = true

/-- The types of the methods that an interface and a type share are converted in full. -/
def ConvertsShared (ps : Packages) (s i : Imported) : Prop :=
  ∀ m ∈ ps.interfaceMethods i.self, ∀ own ∈ ps.methodSet s.self, own.1 = m.1 →
    m.2.converts (maxRecursion + 1) = true ∧ own.2.converts (maxRecursion + 1) = true

/-- The class under the name of an imported type is its own, if the type is the last one of this
name. -/
theorem class?_of_standing (h : after ps.declareAll r = (.ok (), r')) (hi : i ∈ ps.imported)
    (hstanding : ps.standing i = i) :
    r'.class? (ps.importedClass i).name = some (ps.importedClass i) := by
  have hfind := (class?_of_declareAll h hi).2.2
  rw [hstanding] at hfind
  rw [importedClass, classOf_name]
  exact hfind

/-- An import keeps a registry well formed. -/
theorem wellFormed_of_declareAll (hr : r.WellFormed) (h : after ps.declareAll r = (.ok (), r')) :
    r'.WellFormed := by
  have hleads : Leads (fun _ => True) Entry ps.declareAll :=
    ps.leads_declareAll.mono (fun _ => id) fun _ _ => .name
  exact stable_wellFormed.path (hleads.path trivial h) hr

/-- The class of an interface has the methods of the interface as its members and nothing else. -/
theorem importedClass_interface (h : ps.Implements s i) (hparams : i.declaration.params = []) :
    (ps.importedClass i).kind = .protocol ∧ (ps.importedClass i).params = [] ∧
      (ps.importedClass i).bases = [] ∧ (ps.importedClass i).members =
        Importer.membersOf ⟨ps, ps.imported⟩ [] (ps.interfaceMethods i.self) := by
  obtain ⟨methods, embeds, home, hinterface⟩ := h.interface
  have hclass : ps.importedClass i = _ := Importer.classOf_interface hinterface
  rw [Importer.paramsOf_plain hparams] at hclass
  rw [hclass]
  exact ⟨rfl, rfl, rfl, rfl⟩

/-- The class of a type that is no interface has its capitalized methods among its members, and only
capitalized members. -/
theorem importedClass_concrete (h : ps.Implements s i) (hparams : s.declaration.params = []) :
    (ps.importedClass s).kind = .nominal ∧ (ps.importedClass s).params = [] ∧
      (∀ m ∈ (ps.importedClass s).members, Letter.isCapitalized m.name = true) ∧
      ∀ own ∈ ps.methodSet s.self, Letter.isCapitalized own.1.name = true →
        ⟨own.1.name, Importer.exprOf ⟨ps, ps.imported⟩ [] own.2⟩ ∈ (ps.importedClass s).members := by
  obtain ⟨bases, fields, hfields, hclass⟩ :
      ∃ bases fields, _ ∧ ps.importedClass s = _ := Importer.classOf_concrete h.concrete
  rw [Importer.paramsOf_plain hparams] at hclass
  rw [hclass]
  -- The members are those of the fields, followed by the capitalized methods.
  refine ⟨rfl, rfl, List.forall_mem_append.2 ⟨hfields, fun m hm => ?_⟩, fun own hown hcapital => ?_⟩
  · obtain ⟨own, hown, rfl⟩ := List.mem_map.1 hm
    exact (List.mem_filter.1 hown).2
  · refine List.mem_append_right _ (List.mem_map.2 ⟨own, ?_, rfl⟩)
    exact List.mem_filter.2 ⟨hown, hcapital⟩

/-- An interface is another class than a type that implements it. -/
theorem name_ne_of_implements (h : ps.Implements s i) (hsparams : s.declaration.params = [])
    (hiparams : i.declaration.params = [])
    (hsclass : r.class? (ps.importedClass s).name = some (ps.importedClass s))
    (hiclass : r.class? (ps.importedClass i).name = some (ps.importedClass i)) :
    (ps.importedClass s).name ≠ (ps.importedClass i).name := by
  intro heq
  rw [heq, hiclass, Option.some.injEq] at hsclass
  have hkind := (importedClass_interface h hiparams).1
  rw [hsclass, (importedClass_concrete h hsparams).1] at hkind
  cases hkind

/-- A class name has a dot in it, and `Object` has none. -/
theorem className_ne_object (i : Imported) : i.className ≠ Name.object := by
  intro h
  have hmem : Text.byte '.' ∈ i.className :=
    List.mem_append_left _ (List.mem_append_right _ (List.mem_singleton_self _))
  rw [h] at hmem
  exact absurd hmem (by decide)

section

variable (hr : r.WellFormed) {see : View}
  (hsclass : r.class? (ps.importedClass s).name = some (ps.importedClass s))
  (hsparams : s.declaration.params = []) (h : ps.Implements s i) (hconverts : ps.ConvertsShared s i)

include hr hsclass hsparams h hconverts

/-- A capitalized method of an interface is found with the shape that the interface has for it among
the members of a type that implements the interface. -/
theorem find?_of_implements {found : List MemberShape}
    (hfound : r.membersSeen see (.ofClass (ps.importedClass s).name []) = .ok found)
    {m : MemberName × ResolvedType} (hm : m ∈ ps.interfaceMethods i.self)
    (hcapital : Letter.isCapitalized m.1.name = true) :
    found.find? (·.name == m.1.name) =
      some ⟨m.1.name, r.shapeSeen see (Importer.exprOf ⟨ps, ps.imported⟩ [] m.2)⟩ := by
  obtain ⟨-, hplain, -, hmembers⟩ := importedClass_concrete h hsparams
  obtain ⟨own, hown, hname, hidentical⟩ := h.methods m hm
  obtain ⟨hfull, hfull'⟩ := hconverts m hm own hown hname
  rw [← hname] at hcapital ⊢
  -- The two types are identical, so they have the same expression.
  have hexpr : Importer.exprOf ⟨ps, ps.imported⟩ [] m.2 =
      Importer.exprOf ⟨ps, ps.imported⟩ [] own.2 :=
    ps.exprOf_of_identical _ _ hfull hfull' hidentical
  obtain ⟨inherited, rfl⟩ := membersSeen_eq_append hr hsclass hplain hfound
  rw [hexpr]
  exact find?_own (hr.classes _ _ hsclass).members_nodup (hmembers own hown hcapital) inherited

/-- The class of a type is below that of an interface which the type implements if it inherits from
it, or if its members can be worked out and the one-sided methods of the interface are inherited. -/
theorem holds_implements_iff (hsee : see.IsWhole)
    (hiclass : r.class? (ps.importedClass i).name = some (ps.importedClass i))
    (hiparams : i.declaration.params = []) {inst tmpl : Shape}
    (hinst : inst = .ofClass (ps.importedClass s).name [])
    (htmpl : tmpl = .ofClass (ps.importedClass i).name []) {k : Nat} :
    r.Holds see (k + 2) [] inst tmpl ↔
      r.isSubclass (ps.importedClass s).name (ps.importedClass i).name = true ∨
      ∃ found, r.membersSeen see inst = .ok found ∧
        ∀ m ∈ ps.interfaceMethods i.self, Importer.isOneSided m.1.name = true →
          ∃ own, found.find? (·.name == m.1.name) = some own ∧
            r.Holds see (k + 1) [conformanceKey inst tmpl] own.shape
              (r.shapeSeen see (Importer.exprOf ⟨ps, ps.imported⟩ [] m.2)) := by
  obtain ⟨hkind, hplain, hbases, hmembers⟩ := importedClass_interface h hiparams
  have hprotocol : r.isProtocol (.ofClass (ps.importedClass i).name []) = true := by
    simp [isProtocol, classOf?, hiclass, hkind]
  rw [hinst, htmpl, holds_bare_iff hsee, and_iff_right hprotocol,
    conforms_plain_iff hr hiclass hplain hbases, hmembers]
  refine or_congr_right (exists_congr fun found => and_congr_right fun hfound => ?_)
  constructor
  · intro hall m hm honesided
    rw [Importer.isOneSided, Bool.and_eq_true, Bool.not_eq_true', Bool.not_eq_true'] at honesided
    exact hall _ (List.mem_map_of_mem hm) honesided.2
  -- The other methods are found without asking, because the types convert alike.
  · -- Of the methods that are asked for, those that are not one-sided are capitalized.
    intro hall member hmember hpublic
    obtain ⟨m, hm, rfl⟩ := List.mem_map.1 hmember
    by_cases hcapital : Letter.isCapitalized m.1.name = true
    · have hfind := find?_of_implements hr hsclass hsparams h hconverts hfound hm hcapital
      exact ⟨_, hfind, holds_refl hsee (hsee _) k _⟩
    · refine hall m hm ?_
      rw [Importer.isOneSided, Bool.and_eq_true, Bool.not_eq_true', Bool.not_eq_true']
      exact ⟨Bool.eq_false_iff.2 hcapital, hpublic⟩

/-- A class without bases is below an interface that its type implements exactly if the interface
has no one-sided method. -/
theorem holds_implements_of_no_bases (hsee : see.IsWhole)
    (hiclass : r.class? (ps.importedClass i).name = some (ps.importedClass i))
    (hiparams : i.declaration.params = []) (hbases : (ps.importedClass s).bases = [])
    {inst tmpl : Shape} (hinst : inst = .ofClass (ps.importedClass s).name [])
    (htmpl : tmpl = .ofClass (ps.importedClass i).name []) {k : Nat} :
    r.Holds see (k + 2) [] inst tmpl ↔
      ∀ m ∈ ps.interfaceMethods i.self, Importer.isOneSided m.1.name = false := by
  obtain ⟨-, hplain, hcapital, -⟩ := importedClass_concrete h hsparams
  have hfound : r.membersSeen see (.ofClass (ps.importedClass s).name []) = .ok _ :=
    membersSeen_of_no_bases hr hsclass hplain hbases []
  -- The class has no bases, so it inherits from itself and `Object` only.
  have hsub : ¬ r.isSubclass (ps.importedClass s).name (ps.importedClass i).name = true := by
    rw [isSubclass_iff]
    rintro (heq | hobject | hpath)
    · exact name_ne_of_implements h hsparams hiparams hsclass hiclass heq
    · exact className_ne_object i ((classOf_name _ i).symm.trans hobject)
    · obtain ⟨base, hbase, -⟩ := Relation.TransGen.head'_iff.1 hpath
      rw [HasBase, supers, hsclass] at hbase
      simp [Class.baseNames, hbases] at hbase
  rw [holds_implements_iff hr hsclass hsparams h hconverts hsee hiclass hiparams hinst htmpl,
    or_iff_right hsub]
  constructor
  · rintro ⟨found, hfound', hall⟩ m hm
    rw [hinst, hfound] at hfound'
    cases hfound'
    by_contra honesided
    rw [Bool.not_eq_false] at honesided
    obtain ⟨own, hown, -⟩ := hall m hm honesided
    -- The members that are found are those of the class itself, and they are capitalized.
    obtain ⟨member, hmember, rfl⟩ := List.mem_map.1 (List.mem_of_find?_eq_some hown)
    have hfits := List.find?_some hown
    have hname : member.name = m.1.name := eq_of_beq hfits
    rw [← hname, Importer.isOneSided, hcapital member hmember] at honesided
    cases honesided
  · intro hall
    rw [hinst]
    refine ⟨_, hfound, fun m hm honesided => ?_⟩
    rw [hall m hm] at honesided
    cases honesided

end

/-! ### A structure with one method -/

/-- The types of packages whose declarations are sorted are imported in that order. -/
theorem imported_of_sorted (hshown : ∀ p ∈ ps, p.hidden = false)
    (hsorted : ∀ p ∈ ps, p.declarations.Pairwise fun a b => Text.le a.name b.name = true)
    (hall : ∀ p ∈ ps, ∀ d ∈ p.declarations, ps.isImported ⟨p, d⟩ = true) :
    ps.imported = ps.flatMap fun p => p.declarations.map (Imported.mk p) := by
  -- Nothing is hidden, sorting changes nothing, and every declaration is imported.
  have hvisible : ps.filter (fun p => !p.hidden) = ps := by
    rw [List.filter_eq_self]
    intro p hp
    rw [hshown p hp]
    rfl
  rw [imported, hvisible]
  refine List.flatMap_congr fun p hp => ?_
  rw [List.mergeSort_of_pairwise (hsorted p hp), List.filter_eq_self]
  intro i hi
  obtain ⟨d, hd, rfl⟩ := List.mem_map.1 hi
  exact hall p hp d hd

/-- What a declared type is made of is found in its declaration. -/
theorem underlying_defined {path name : Text} {d : TypeDeclaration}
    (h : ps.declaration? path name = some d) (args : List ResolvedType) :
    ps.underlying (.named (.defined path name) args) =
      ps.underlyingFuel ps.declarationCount
        ((ps.resolve (scopeOf path d) d.type).instantiate args) := by
  simp [underlying, underlyingFuel, PackageType.unaliased, h]

/-- A written interface of one method is resolved in its method. -/
theorem resolve_interface (scope : TypeScope) (name : Text) (t : WrittenType) (home : Text) :
    ps.resolve scope (.interface [(name, t)] [] home) =
      .interface [(name, ps.resolve scope t)] [] scope.path := by
  rw [resolve, resolve]
  unfold resolveFuel
  rfl

/-- A structure without fields is resolved to itself. -/
theorem resolve_struct (scope : TypeScope) (home : Text) :
    ps.resolve scope (.struct [] home) = .struct [] scope.path := by
  rw [resolve]
  unfold resolveFuel
  rfl

/-- The methods declared for a type are those of its declaration. -/
theorem declaredMethods_defined {path name : Text} {d : TypeDeclaration}
    (h : ps.declaration? path name = some d) (args : List ResolvedType) :
    ps.declaredMethods (.named (.defined path name) args) = d.methods.map fun m =>
      (.within path m.1, (ps.resolve (scopeOf path d) m.2).instantiate args) := by
  simp only [declaredMethods, h]

/-- An interface is its own underlying type. -/
@[simp] theorem underlyingFuel_interface (fuel : Nat) (methods : List (Text × ResolvedType))
    (embeds : List (List ResolvedType)) (home : Text) :
    ps.underlyingFuel fuel (.interface methods embeds home) = .interface methods embeds home := by
  cases fuel <;> rfl

/-- A structure is its own underlying type. -/
@[simp] theorem underlyingFuel_struct (fuel : Nat) (fields : List (Option Text × ResolvedType))
    (home : Text) : ps.underlyingFuel fuel (.struct fields home) = .struct fields home := by
  cases fuel <;> rfl

/-- The methods of an interface that embeds nothing are its own. -/
theorem interfaceMethods_of_no_embeds {t : ResolvedType} {methods : List (Text × ResolvedType)}
    {home : Text} (h : ps.underlying t = .interface methods [] home) :
    ps.interfaceMethods t =
      (distinctMethods (methods.map fun m => (.within home m.1, m.2))).mergeSort
        fun m n => m.1.le n.1 := by
  rw [interfaceMethods, embeddingDepth, interfaceMethodsFuel, h]
  dsimp only
  rw [List.flatMap_nil, List.append_nil]

/-- A structure without fields has no methods but those declared for it. -/
theorem methodSet_of_no_fields {t : ResolvedType} (hname : t.unaliased = t) {home : Text}
    (h : ps.underlying t = .struct [] home) {m : MemberName × ResolvedType}
    (hm : ps.declaredMethods t = [m]) : ps.methodSet t = [m] := by
  -- Nothing comes in from embedded types, so the search ends on its first level.
  have hnone : ps.interfaceMethods t = [] := by
    rw [interfaceMethods, embeddingDepth, interfaceMethodsFuel, h]
    exact List.mergeSort_nil
  have hfields : ps.fieldsOf t = [] := by
    rw [fieldsOf, h]
    rfl
  have htable : ∀ fuel, ps.methodTableFuel (fuel + 1) [] [⟨t, false⟩] [] = [(m.1, some m.2)] := by
    intro fuel
    cases fuel <;> simp [methodTableFuel, levelMethods, hm, hnone, hfields, enterMethod,
      consolidate, MethodTable.putNew]
  obtain ⟨fuel, hfuel⟩ : ∃ fuel, ps.levelCount = fuel + 1 := ⟨_, rfl⟩
  rw [methodSet, hname, hfuel, htable, List.mergeSort_singleton]
  rfl

section

variable (name : Text) (t : WrittenType)

/-- An interface with one method. -/
def oneMethod : TypeDeclaration :=
  { name := text "I", type := .interface [(name, t)] [] }

/-- A structure with one method. -/
def withMethod : TypeDeclaration :=
  { name := text "S", type := .struct [], methods := [(name, t)] }

/-- A package with both. -/
def holder : Package :=
  { name := text "p", declarations := [oneMethod name t, withMethod name t] }

/-- Another package of the same name, with a structure that has no methods. -/
def namesake : Package :=
  { name := text "p", path := text "q/p",
    declarations := [{ name := text "S", type := .struct [] }] }

/-- The type of the one method, with its names resolved. -/
def resolvedMethod (ps : Packages) : MemberName × ResolvedType :=
  (.within (text "p") name, (ps.resolve ⟨text "p", []⟩ t).instantiate [])

variable {name t} (hfind : ps.find? (·.path == text "p") = some (holder name t))

include hfind

/-- The underlying type of the interface is its method. -/
theorem underlying_oneMethod : ps.underlying (Imported.mk (holder name t) (oneMethod name t)).self =
    .interface [(name, (ps.resolve ⟨text "p", []⟩ t).instantiate [])] [] (text "p") := by
  have hdeclared : ps.declaration? (text "p") (text "I") = some (oneMethod name t) := by
    rw [declaration?, hfind]
    rfl
  refine (underlying_defined hdeclared _).trans ?_
  rw [oneMethod, resolve_interface]
  exact underlyingFuel_interface _ _ _ _

/-- The underlying type of the structure has no fields. -/
theorem underlying_withMethod :
    ps.underlying (Imported.mk (holder name t) (withMethod name t)).self = .struct [] (text "p") := by
  have hdeclared : ps.declaration? (text "p") (text "S") = some (withMethod name t) := by
    rw [declaration?, hfind]
    rfl
  refine (underlying_defined hdeclared _).trans ?_
  rw [withMethod, resolve_struct]
  exact underlyingFuel_struct _ _ _

/-- Both types have the one method. -/
theorem methods_holder :
    ps.interfaceMethods (Imported.mk (holder name t) (oneMethod name t)).self =
      [resolvedMethod name t ps] ∧
    ps.methodSet (Imported.mk (holder name t) (withMethod name t)).self =
      [resolvedMethod name t ps] := by
  constructor
  · rw [interfaceMethods_of_no_embeds (underlying_oneMethod hfind)]
    exact List.mergeSort_singleton _
  · refine methodSet_of_no_fields rfl (underlying_withMethod hfind) ?_
    -- The methods of the structure are those declared for its name.
    have hdeclared : ps.declaration? (text "p") (text "S") = some (withMethod name t) := by
      rw [declaration?, hfind]
      rfl
    exact declaredMethods_defined hdeclared _

/-- Both types are imported. -/
theorem isImported_holder : ∀ d ∈ (holder name t).declarations,
    ps.isImported ⟨holder name t, d⟩ = true := by
  refine List.forall_mem_cons.2 ⟨?_, List.forall_mem_singleton.2 ?_⟩
  · rw [isImported, underlying_oneMethod hfind, isMethodSet, embeddingDepth, isMethodSetFuel,
      underlying_oneMethod hfind]
    rfl
  · rw [isImported, underlying_withMethod hfind]
    rfl

/-- The structure implements the interface by its own method. -/
theorem implements_holder :
    ps.Implements ⟨holder name t, withMethod name t⟩ ⟨holder name t, oneMethod name t⟩ := by
  obtain ⟨hinterface, hstruct⟩ := methods_holder hfind
  refine ⟨⟨_, _, _, underlying_oneMethod hfind⟩, fun methods embeds home heq => ?_, fun m hm => ?_⟩
  · rw [underlying_withMethod hfind] at heq
    cases heq
  · rw [hinterface, ← hstruct] at hm
    exact ⟨m, hm, rfl, ps.identical_self m.2⟩

/-- The structure has no bases. -/
theorem bases_withMethod :
    (ps.importedClass ⟨holder name t, withMethod name t⟩).bases = [] := by
  unfold importedClass Importer.classOf
  dsimp only
  rw [underlying_withMethod hfind]
  rfl

omit hfind

/-- A package alone is imported type by type. -/
theorem imported_holder : imported [holder name t] =
    [⟨holder name t, oneMethod name t⟩, ⟨holder name t, withMethod name t⟩] := by
  refine imported_of_sorted (List.forall_mem_singleton.2 rfl) (List.forall_mem_singleton.2 ?_)
    (List.forall_mem_singleton.2 (isImported_holder rfl))
  simp [holder, oneMethod, withMethod]
  decide

/-- The package imported after one of the same name. -/
theorem imported_namesake_holder : imported [namesake, holder name t] =
    [⟨namesake, { name := text "S", type := .struct [] }⟩,
      ⟨holder name t, oneMethod name t⟩, ⟨holder name t, withMethod name t⟩] := by
  have hfind : [namesake, holder name t].find? (·.path == text "p") = some (holder name t) := rfl
  refine imported_of_sorted ?_ ?_ ?_
  · exact List.forall_mem_cons.2 ⟨rfl, List.forall_mem_singleton.2 rfl⟩
  · refine List.forall_mem_cons.2 ⟨List.pairwise_singleton _ _, List.forall_mem_singleton.2 ?_⟩
    simp [holder, oneMethod, withMethod]
    decide
  · refine List.forall_mem_cons.2 ⟨List.forall_mem_singleton.2 ?_,
      List.forall_mem_singleton.2 (isImported_holder hfind)⟩
    -- The structure of the first package is no interface, so nothing keeps it from being imported.
    have hunderlying : underlying [namesake, holder name t]
        (Imported.mk namesake { name := text "S", type := .struct [] }).self =
          .struct [] (text "q/p") := by
      refine (underlying_defined rfl _).trans ?_
      rw [resolve_struct]
      exact underlyingFuel_struct _ _ _
    rw [isImported, hunderlying]
    rfl

end

end Packages

/-! ## Types below the interfaces that they implement -/

namespace Engine

open Registry

/-- When the class of a type is below that of an interface which the type implements.

The classes are those of the last types of the two names, and the one is below the other if it
inherits from it, or if that is a protocol to which it conforms.

If the two types are the last ones of their names, and the types of the methods that they share are
converted in full, then conformance asks for no more than the one-sided methods of the interface: the
members of the class can be worked out, and every one-sided method is inherited with a type below that
of the interface.  All other methods are there.  A class without bases inherits nothing, so it is
below the interface exactly if the interface has no one-sided method. -/
theorem isSubtype_of_implements (e : Engine) (hmemo : e.memo.IsWhole) {history : List Event}
    {r : Registry} (hr : r ∈ pool history) {ps : Packages}
    (himport : after ps.declareAll r = (.ok (), e.registry)) {s i : Imported}
    (hs : s ∈ ps.imported) (hi : i ∈ ps.imported) (hsparams : s.declaration.params = [])
    (hiparams : i.declaration.params = []) (himplements : ps.Implements s i) :
    let imp : Importer := ⟨ps, ps.imported⟩
    let inst := (TypeExpr.con s.className).shape
    let tmpl := (TypeExpr.con i.className).shape
    let see := (e.subtypeRun inst tmpl).memo.view
    let below := e.registry.Holds see maxRecursion [conformanceKey inst tmpl]
    (e.registry.class? s.className = some (ps.importedClass (ps.standing s)) ∧
      e.registry.class? i.className = some (ps.importedClass (ps.standing i))) ∧
    ((e.isSubtype inst tmpl).1 = true ↔
      e.registry.isSubclass s.className i.className = true ∨
      (ps.importedClass (ps.standing i)).kind = .protocol ∧
        e.registry.Conforms see below inst tmpl) ∧
    (ps.standing s = s → ps.standing i = i → ps.ConvertsShared s i →
      ((e.isSubtype inst tmpl).1 = true ↔
        e.registry.isSubclass s.className i.className = true ∨
        ∃ found, e.registry.membersSeen see inst = .ok found ∧
          ∀ m ∈ ps.interfaceMethods i.self, Importer.isOneSided m.1.name = true →
            ∃ own, found.find? (·.name == m.1.name) = some own ∧
              below own.shape (e.registry.shapeSeen see (imp.exprOf [] m.2))) ∧
      ((ps.importedClass s).bases = [] → ((e.isSubtype inst tmpl).1 = true ↔
        ∀ m ∈ ps.interfaceMethods i.self, Importer.isOneSided m.1.name = false))) := by
  intro imp inst tmpl see below
  -- The history makes the registry well formed before the import, and the import keeps it so.
  have hsee : see.IsWhole := (e.subtypeRun_isWhole hmemo inst tmpl).view
  have hwf := Packages.wellFormed_of_declareAll
    (pool_keeps stable_wellFormed builtin_wellFormed history r hr) himport
  have hsclass := (Packages.class?_of_declareAll himport hs).2.2
  have hiclass := (Packages.class?_of_declareAll himport hi).2.2
  have hinst : inst = .ofClass s.className [] :=
    TypeExpr.shape_of_className? rfl (hwf.classes _ _ hsclass).unreserved
  have htmpl : tmpl = .ofClass i.className [] :=
    TypeExpr.shape_of_className? rfl (hwf.classes _ _ hiclass).unreserved
  have hlevel := e.isSubtype_iff_holds inst tmpl (Memo.view_agrees _)
  refine ⟨⟨hsclass, hiclass⟩, hlevel.trans ?_, fun hslast hilast hconverts => ?_⟩
  -- Whether the template is a protocol can be seen at the class alone.
  · have hprotocol : e.registry.isProtocol (.ofClass i.className []) = true ↔
        (ps.importedClass (ps.standing i)).kind = .protocol := by
      simp [isProtocol, classOf?, hiclass]
    rw [← hprotocol]
    show e.registry.Holds see (maxRecursion + 1) [] inst tmpl ↔ _
    simp only [below]
    rw [hinst, htmpl]
    exact holds_bare_iff hsee _ _
  -- From here on the two classes are those of the types themselves.
  have hsname : (ps.importedClass s).name = s.className := Packages.classOf_name imp s
  have hiname : (ps.importedClass i).name = i.className := Packages.classOf_name imp i
  have hsown := Packages.class?_of_standing himport hs hslast
  have hiown := Packages.class?_of_standing himport hi hilast
  rw [← hsname] at hinst
  rw [← hiname] at htmpl
  refine ⟨?_, fun hbases => ?_⟩
  · rw [← hsname, ← hiname]
    exact hlevel.trans (Packages.holds_implements_iff hwf hsown hsparams himplements hconverts
      hsee hiown hiparams hinst htmpl)
  · exact hlevel.trans (Packages.holds_implements_of_no_bases hwf hsown hsparams himplements
      hconverts hsee hiown hiparams hbases hinst htmpl)

/-- A structure with a capitalized method is below the interface of this method, and an earlier
package of the same name with another structure of the same name changes nothing. -/
theorem isSubtype_of_implements_size :
    let signature : WrittenType := .func [] [.plain (text "int")] false
    let holder := Packages.holder (text "Size") signature
    let ps : Packages := [Packages.namesake, holder]
    let i : Imported := ⟨holder, Packages.oneMethod (text "Size") signature⟩
    let s : Imported := ⟨holder, Packages.withMethod (text "Size") signature⟩
    let e : Engine := { registry := (after ps.declareAll .builtin).2 }
    (after ps.declareAll .builtin).1 = .ok () ∧ s ∈ ps.imported ∧ i ∈ ps.imported ∧
      ps.Implements s i ∧
      (e.isSubtype (TypeExpr.con s.className).shape (TypeExpr.con i.className).shape).1 = true := by
  intro signature holder ps i s e
  have hfind : ps.find? (·.path == text "p") = some holder := rfl
  have himported : ps.imported = [⟨Packages.namesake, _⟩, i, s] :=
    Packages.imported_namesake_holder
  have hok : (after ps.declareAll .builtin).1 = .ok () := by
    rw [Packages.declareAll, himported]
    decide +kernel
  have himport : after ps.declareAll .builtin = (.ok (), e.registry) := Prod.ext hok rfl
  have himplements : ps.Implements s i := Packages.implements_holder hfind
  have hmem : s ∈ ps.imported ∧ i ∈ ps.imported := by simp [himported]
  -- the structure is the last type of its name
  have hlast : ps.standing s = s ∧ ps.standing i = i := by
    rw [Packages.standing, Packages.standing, himported]
    exact ⟨rfl, rfl⟩
  have hresolved : (Packages.resolvedMethod (text "Size") signature ps).2 =
      .func [] [.plain (.basic (text "int"))] false := by
    rw [Packages.resolvedMethod, Packages.resolve]
    unfold Packages.resolveFuel
    rfl
  obtain ⟨hinterface, hstruct⟩ := Packages.methods_holder hfind
  have hconverts : ps.ConvertsShared s i := by
    intro m hm own hown _
    rw [hinterface] at hm
    rw [hstruct] at hown
    rw [List.mem_singleton.1 hm, List.mem_singleton.1 hown, hresolved]
    exact ⟨rfl, rfl⟩
  have hbuiltin : Registry.builtin ∈ pool [] := List.mem_singleton_self _
  -- No one-sided method is left, because the name of the only method is capitalized.
  have hiff := ((isSubtype_of_implements e Memo.isWhole_nil hbuiltin himport hmem.1 hmem.2 rfl rfl
    himplements).2.2 hlast.1 hlast.2 hconverts).2 (Packages.bases_withMethod hfind)
  refine ⟨hok, hmem.1, hmem.2, himplements, hiff.2 fun m hm => ?_⟩
  rw [hinterface] at hm
  rw [List.mem_singleton.1 hm]
  decide

/-- A structure is not below the interface of its method, if the name of the method is not
capitalized. -/
theorem not_isSubtype_of_implements :
    let signature : WrittenType := .func [] [] false
    let holder := Packages.holder (text "m") signature
    let ps : Packages := [holder]
    let i : Imported := ⟨holder, Packages.oneMethod (text "m") signature⟩
    let s : Imported := ⟨holder, Packages.withMethod (text "m") signature⟩
    let e : Engine := { registry := (after ps.declareAll .builtin).2 }
    (after ps.declareAll .builtin).1 = .ok () ∧ ps.imported = [i, s] ∧ ps.Implements s i ∧
      (e.isSubtype (TypeExpr.con s.className).shape (TypeExpr.con i.className).shape).1 =
        false := by
  intro signature holder ps i s e
  have himported : ps.imported = [i, s] := Packages.imported_holder
  -- Importing and comparing can both be computed here.
  refine ⟨?_, himported, Packages.implements_holder rfl, ?_⟩
  · rw [Packages.declareAll, himported]
    decide +kernel
  · show (isSubtype { registry := (after ps.declareAll .builtin).2 } _ _).1 = false
    rw [Packages.declareAll, himported]
    decide +kernel

end Engine

end TypeShape
