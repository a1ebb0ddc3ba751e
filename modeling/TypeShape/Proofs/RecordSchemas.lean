import TypeShape.Proofs.Lineages

/-!
# Schemas of records

The schema of a record has one field for every member, inherited ones included, in the order in
which structural conformance sees the members.  Conformance puts into a member the bindings of the
class that declares it.  The schema puts into every member the arguments of the record itself, so
its field is the schema of the declared type under the bindings of the declaring class only where
both come to the same: the parameters of an inherited class stay open in the schema.

## Key results

- `Registry.schema_of_schemaWithin`: a schema that is found within a number of levels is the schema
- `Registry.schema_record`: the fields in the schema of a record
- `Registry.schema_inherited_open`: an argument that a base fixes is missing in the schema
-/

namespace TypeShape

/-! ## Schemas with more room -/

/-- What one computation gives, another gives as well. -/
def CarriesOver {α : Type} (x y : Except Error α) : Prop :=
  ∀ a, x = .ok a → y = .ok a

namespace CarriesOver

variable {α β : Type}

/-- A result carries over to itself. -/
theorem refl (x : Except Error α) : CarriesOver x x := fun _ h => h

/-- What is made of results that carry over carries over. -/
theorem bind {x y : Except Error α} {f g : α → Except Error β} (h : CarriesOver x y)
    (hfg : ∀ a, CarriesOver (f a) (g a)) : CarriesOver (x >>= f) (y >>= g) := by
  intro b hb
  obtain ⟨a, ha, hb⟩ := bind_eq_ok.1 hb
  exact bind_eq_ok.2 ⟨a, h a ha, hfg a b hb⟩

/-- Over a list, it is enough that the results of the elements carry over. -/
theorem mapM {f g : α → Except Error β} (h : ∀ a, CarriesOver (f a) (g a)) (as : List α) :
    CarriesOver (as.mapM f) (as.mapM g) := by
  induction as with
  | nil => exact refl _
  | cons a as ih =>
    rw [List.mapM_cons, List.mapM_cons]
    exact (h a).bind fun _ => ih.bind fun _ => refl _

/-- A choice carries over branch by branch. -/
theorem ite {c : Prop} [Decidable c] {x x' y y' : Except Error α} (hx : CarriesOver x x')
    (hy : CarriesOver y y') : CarriesOver (if c then x else y) (if c then x' else y') := by
  split
  · exact hx
  · exact hy

end CarriesOver

/-- A list of computations gives what each of them gives. -/
theorem forall₂_of_mapM {α β : Type} {f : α → Except Error β} {as : List α} {bs : List β}
    (h : as.mapM f = .ok bs) : List.Forall₂ (fun a b => f a = .ok b) as bs := by
  -- By induction on the list; each computation has succeeded.
  induction as generalizing bs with
  | nil =>
    cases h
    exact .nil
  | cons a as ih =>
    rw [List.mapM_cons] at h
    obtain ⟨b, hb, h⟩ := bind_eq_ok.1 h
    obtain ⟨bs', hbs, h⟩ := bind_eq_ok.1 h
    cases h
    exact .cons hb (ih hbs)

namespace Registry

variable {r : Registry}

section

variable {f g : TypeExpr → Except Error Text} (h : ∀ t, CarriesOver (f t) (g t))

include h

/-- If the schemas of other types carry over, so does that of a variable. -/
theorem carriesOver_varSchema (v : TypeVar) : CarriesOver (varSchema f v) (varSchema g v) := by
  unfold varSchema
  exact .ite (.ite (.refl _) ((h _).bind fun _ => .refl _))
    ((h _).bind fun _ => .ite (.refl _) ((h _).bind fun _ => .refl _))

/-- If the schemas of types carry over, so does the field of a member. -/
theorem carriesOver_fieldSchema (record : Text) (s : Subst) (member : Member) :
    CarriesOver (fieldSchema f record s member) (fieldSchema g record s member) := by
  unfold fieldSchema
  split
  · exact .refl _
  · exact .refl _
  · exact (h _).bind fun _ => .refl _

/-- If the schemas of types carry over, so does that of a class. -/
theorem carriesOver_classSchema (name : Text) (args : List TypeExpr) :
    CarriesOver (r.classSchema f name args) (r.classSchema g name args) := by
  -- The classes with a schema of their own ask for no other schema; then come lists, tuples, maps
  -- and records.
  unfold classSchema
  refine .ite (.refl _) <| .ite (.refl _) <| .ite (.refl _) <| .ite (.refl _) <|
    .ite (.refl _) <| .ite (.refl _) <| .ite (.refl _) <| .ite ?_ <| .ite ?_ <| .ite ?_ ?_
  · cases args with
    | nil => exact .refl _
    | cons elem _ => exact (h elem).bind fun _ => .refl _
  · cases args with
    | nil => exact .refl _
    | cons elem elems => exact (CarriesOver.mapM h _).bind fun _ => .refl _
  · rcases args with _ | ⟨key, _ | ⟨value, _ | _⟩⟩
    · exact .refl _
    · exact .refl _
    · exact .ite ((h value).bind fun _ => .refl _) (.refl _)
    · exact .refl _
  · cases r.class? name with
    | none => exact .refl _
    | some c =>
      refine .ite ?_ (.refl _)
      exact (CarriesOver.mapM (carriesOver_fieldSchema h _ _) _).bind fun _ => .refl _

/-- If the schemas of types carry over, so does the next level. -/
theorem carriesOver_schemaStep (t : TypeExpr) :
    CarriesOver (r.schemaStep f t) (r.schemaStep g t) := by
  unfold schemaStep
  split
  · exact carriesOver_classSchema h _ _
  · exact carriesOver_classSchema h _ _
  · exact (CarriesOver.mapM h _).bind fun _ => .refl _
  · exact .refl _
  · exact (h _).bind fun _ => .refl _
  · exact carriesOver_varSchema h _
  · exact .refl _

end

/-- A schema found within a number of levels is found within one more. -/
theorem carriesOver_schemaWithin (r : Registry) (room : Nat) (t : TypeExpr) :
    CarriesOver (r.schemaWithin room t) (r.schemaWithin (room + 1) t) := by
  induction room generalizing t with
  | zero =>
    intro out hout
    cases hout
  | succ room ih => exact carriesOver_schemaStep ih t

/-- A schema that is found with one level less is the schema. -/
theorem schema_of_schemaWithin {t : TypeExpr} {out : Text}
    (h : r.schemaWithin maxSchemaDepth t = .ok out) : r.schema t = .ok out :=
  r.carriesOver_schemaWithin maxSchemaDepth t out h

/-! ## The fields of a record -/

/-- Entering new names one after the other puts them at the end. -/
theorem foldl_put_zip {ps : List TypeVar} (hnodup : (ps.map (·.name)).Nodup)
    (args : List TypeExpr) {s : Subst} (hnew : ∀ p ∈ ps, Table.find? s p.name = none) :
    (ps.zip args).foldl (fun s (p, t) => Table.put p.name t s) s =
      s ++ (ps.map (·.name)).zip args := by
  -- By induction on the parameters; each name is new among those entered before it.
  induction ps generalizing args s with
  | nil => exact (List.append_nil s).symm
  | cons p ps ih =>
    cases args with
    | nil => exact (List.append_nil s).symm
    | cons a args =>
      rw [List.map_cons, List.nodup_cons] at hnodup
      obtain ⟨hp, hps⟩ := List.forall_mem_cons.1 hnew
      rw [List.zip_cons_cons, List.foldl_cons, ih hnodup.2 args (unbound_put hnodup.1 hps a),
        Table.put_of_find?_eq_none hp, List.append_assoc, List.map_cons, List.zip_cons_cons]
      rfl

/-- The substitution behind the fields of a record binds the parameters to the arguments. -/
theorem parameterSubst_eq_binding {c : Class} (hnodup : (c.params.map (·.name)).Nodup)
    (args : List TypeExpr) : parameterSubst c.params args = c.binding args := by
  rw [parameterSubst, foldl_put_zip hnodup args (by simp)]
  rfl

/-- A field for a member, with the schema of an expression. -/
def IsField (r : Registry) (m : Member) (t : TypeExpr) (field : Text) : Prop :=
  ∃ out, r.schema t = .ok out ∧ field = Quoted.quote m.name ++ text ": " ++ out

/-- A field that was found has the schema of its type, wherever the search stopped. -/
theorem isField_of_fieldSchema {record : Text} {s : Subst} {m : Member} {field : Text}
    (h : fieldSchema (r.schemaWithin maxSchemaDepth) record s m = .ok field) :
    r.IsField m (m.type.apply s) field := by
  unfold fieldSchema at h
  split at h
  · cases h
  · cases h
  · obtain ⟨out, hout, h⟩ := bind_eq_ok.1 h
    cases h
    exact ⟨out, schema_of_schemaWithin hout, rfl⟩

/-- The classes whose schema does not depend on their declaration. -/
def fixedSchemas : List Text :=
  [Name.any, Name.object, Name.int, Name.float, Name.string, Name.bool, Name.bytes, Name.nil,
    Name.list, Name.sequence, Name.tuple, Name.map, Name.mapping]

/-- A record without a schema of its own has that of its fields. -/
theorem classSchema_record {deeper : TypeExpr → Except Error Text} {c : Class}
    (hc : r.class? c.name = some c) (hkind : c.kind = .record) (hname : c.name ∉ fixedSchemas)
    (args : List TypeExpr) : r.classSchema deeper c.name args = r.recordSchema deeper c args := by
  simp only [fixedSchemas, List.mem_cons, List.not_mem_nil, or_false, not_or] at hname
  simp [classSchema, hname, hc, hkind]

/-- The schema of a class applied to arguments. -/
theorem schema_generic (name : Text) (args : List TypeExpr) :
    r.schema (TypeExpr.generic name args) =
      r.classSchema (r.schemaWithin maxSchemaDepth) name args := by
  cases args <;> rfl

/-- The fields in the schema of a record.  There is one for every member, inherited ones included,
with the schema of its declared type after the arguments are put in for the parameters of the
record.  Let a walk along the bases succeed: then the fields belong to the members that structural
conformance sees, in the same order, and a field is the schema of the declared type under the
bindings of the declaring class wherever these bindings put in for every variable of the type what
comes of it in the record. -/
theorem schema_record (hr : r.Reachable) {c : Class} (hc : r.class? c.name = some c)
    (hkind : c.kind = .record) (hname : c.name ∉ fixedSchemas) {args : List TypeExpr}
    {schema : Text} (h : r.schema (TypeExpr.generic c.name args) = .ok schema) :
    ∃ fields, schema = text "close(\x7b" ++ Text.commas fields ++ text "\x7d)" ∧
      List.Forall₂ (fun m field => r.IsField m (m.type.apply (c.binding args)) field)
        (r.members c.name) fields ∧
      (r.Unaliased → ∀ log,
        r.visits TypeExpr.reduce (TypeExpr.generic c.name args).shape = .ok log →
          r.membersSeen TypeExpr.reduce (TypeExpr.generic c.name args).shape =
            .ok ((firstDeclared [] log).map fun (v, m) =>
              r.memberSeen TypeExpr.reduce v.bindings m) ∧
          List.Forall₂ (fun (v, m) field =>
            (∀ x ∈ m.type.varOccurrences, (c.binding args).applied x = v.bindings.value x) →
              r.IsField m (m.type.mapVars v.bindings.value) field)
            (firstDeclared [] log) fields) := by
  have hr := hr.wellDeclared
  obtain ⟨-, hreserved, hnodup, -⟩ := hr _ c hc
  rw [schema_generic, classSchema_record hc hkind hname, recordSchema,
    parameterSubst_eq_binding hnodup] at h
  obtain ⟨fields, hfields, h⟩ := bind_eq_ok.1 h
  cases h
  have hall : List.Forall₂ (fun m field => r.IsField m (m.type.apply (c.binding args)) field)
      (r.members c.name) fields :=
    (forall₂_of_mapM hfields).imp fun _ _ => isField_of_fieldSchema
  refine ⟨fields, rfl, hall, fun halias log hlog => ⟨membersSeen_of_visits hlog, ?_⟩⟩
  have hsee : ∀ t, View.Shows TypeExpr.reduce t := fun _ => rfl
  have hclass := TypeExpr.shape_of_className? (TypeExpr.className?_generic c.name args) hreserved
  rw [hclass] at hlog
  rw [members_of_visits hr halias hsee hc _ hlog, List.forall₂_map_left_iff] at hall
  refine hall.imp fun (v, m) field hfield hsame => ?_
  -- The arguments of the record and the bindings of the declaring class come to the same on the
  -- variables of the type, so to the same on the type.
  have hpass : m.type.apply (c.binding args) = m.type.mapVars v.bindings.value := by
    rw [TypeExpr.apply_eq_mapVars]
    exact (TypeExpr.mapVars_eq_iff _ _ _).2 hsame
  rwa [hpass] at hfield

/-! ## A record that fixes an argument of its base -/

/-- A record with a member of the type of its parameter. -/
def box : Class where
  name := text "Box"
  kind := .record
  params := [{ name := text "T" }]
  members := [⟨text "x", .var (text "T") .omitted []⟩]

/-- A record derived from the boxes of integers. -/
def intBox : Class where
  name := text "IntBox"
  kind := .record
  bases := [.app (text "Box") [.con Name.int]]

/-- The registry that knows both records. -/
def boxes : Registry :=
  { builtin with
    classes := builtin.classes ++ [(box.name, box), (intBox.name, intBox)]
    vars := builtin.vars ++ box.params.map fun v => (v.name, v) }

/-- The registry is that after declaring the two records. -/
theorem boxes_reachable : boxes.Reachable := by
  have hdeclared : boxes =
      (Declaring.after (declare intBox) (Declaring.after (declare box) builtin).2).2 := rfl
  exact hdeclared ▸ .declare _ (.declare _ .builtin)

/-- A record that hands its parameter on to the boxes and has a member of its own. -/
def crate : Class where
  name := text "Crate"
  kind := .record
  params := [{ name := text "T" }]
  bases := [.app (text "Box") [.var (text "T") .omitted []]]
  members := [⟨text "count", .con Name.int⟩]

/-- The registry that knows the crates as well. -/
def crates : Registry :=
  { boxes with classes := boxes.classes ++ [(crate.name, crate)] }

/-- So is that of the crates. -/
theorem crates_reachable : crates.Reachable := by
  have hdeclared : crates = (Declaring.after (declare crate) boxes).2 := rfl
  exact hdeclared ▸ .declare _ boxes_reachable

/-- A crate of strings has the field of its own member and that of the inherited one, whose type is
the argument: the boxes are bound to it as well. -/
theorem schema_crate :
    let t := TypeExpr.generic crate.name [.con Name.string]
    let u : Visit := ⟨crate, [(text "T", .con Name.string)]⟩
    let v : Visit := ⟨box, [(text "T", .con Name.string)]⟩
    crates.schema t = .ok (text "close(\x7b\"count\": int, \"x\": string\x7d)") ∧
    crates.visits TypeExpr.reduce t.shape = .ok [u, v] ∧
    ∃ own inherited fieldOwn fieldInherited,
      firstDeclared [] [u, v] = [(u, own), (v, inherited)] ∧
      text "close(\x7b\"count\": int, \"x\": string\x7d)" =
        text "close(\x7b" ++ Text.commas [fieldOwn, fieldInherited] ++ text "\x7d)" ∧
      crates.IsField own (own.type.mapVars u.bindings.value) fieldOwn ∧
      inherited.type.mapVars v.bindings.value = .con Name.string ∧
      crates.IsField inherited (inherited.type.mapVars v.bindings.value) fieldInherited := by
  intro t u v
  let own : Member := ⟨text "count", .con Name.int⟩
  let inherited : Member := ⟨text "x", .var (text "T") .omitted []⟩
  have hschema : crates.schema t = .ok (text "close(\x7b\"count\": int, \"x\": string\x7d)") := rfl
  have hvisits : crates.visits TypeExpr.reduce t.shape = .ok [u, v] := rfl
  obtain ⟨fields, heq, -, hseen⟩ := schema_record crates_reachable rfl rfl (by decide) hschema
  obtain ⟨-, hfields⟩ := hseen (fun _ _ => rfl) [u, v] hvisits
  have hdeclared : firstDeclared [] [u, v] = [(u, own), (v, inherited)] := rfl
  rw [hdeclared] at hfields
  obtain ⟨fieldOwn, rest, hown, hrest, rfl⟩ := List.forall₂_cons_left_iff.1 hfields
  obtain ⟨fieldInherited, _, hinherited, hnone, rfl⟩ := List.forall₂_cons_left_iff.1 hrest
  cases hnone
  -- the parameter of the crates and that of the boxes are bound to the same argument
  exact ⟨hschema, hvisits, own, inherited, fieldOwn, fieldInherited, hdeclared, heq, hown nofun, rfl,
    hinherited (List.forall_mem_singleton.2 rfl)⟩

/-- The argument that a record fixes for its base is missing in the schema: the field of the
inherited member is open. -/
theorem schema_inherited_open :
    let u : Visit := ⟨intBox, []⟩
    let v : Visit := ⟨box, [(text "T", .con Name.int)]⟩
    boxes.Reachable ∧ boxes.schema (.con intBox.name) = .ok (text "close(\x7b\"x\": _\x7d)") ∧
    boxes.visits TypeExpr.reduce (TypeExpr.con intBox.name).shape = .ok [u, v] ∧
    ∃ m, firstDeclared [] [u, v] = [(v, m)] ∧
      m.type.mapVars v.bindings.value = .con Name.int ∧
      ¬ boxes.IsField m (m.type.mapVars v.bindings.value) (text "\"x\": _") := by
  intro u v
  refine ⟨boxes_reachable, rfl, rfl, _, rfl, rfl, ?_⟩
  -- The schema of an integer is not open.
  rintro ⟨out, hout, hfield⟩
  cases hout
  exact absurd hfield (by decide)

end Registry

end TypeShape
