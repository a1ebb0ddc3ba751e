import TypeShape.Registry.Hierarchy

/-!
# Schemas of types

The schema of a type expression is the constraint on data, in the notation of constraints, that
says which data belong to the type.  Callables, types of types and classes other than records have
none, and neither have types that nest deeper than a fixed number of levels, such as records that
contain themselves.
-/

namespace TypeShape

/-- Schemas of types that nest deeper than this are refused. -/
def maxSchemaDepth : Nat := 32

/-- The schema of a literal. -/
def Literal.schema : Literal → Except Error Text
  | .nil => .ok (text "null")
  | .bool true => .ok (text "true")
  | .bool false => .ok (text "false")
  | .string s => .ok (Quoted.quote s)
  | .int n => .ok (Text.ofInt n)
  | .float .single x => .ok (Binary.render .single x)
  | .float .double x =>
    let t := Binary.render .double x
    .ok (if t.any fun c => c = Text.byte '.' || c = Text.byte 'e' || c = Text.byte 'E' then t
      else t ++ text ".0")
  | v => .error (.unsupported (.literal v.render))

namespace Registry

/-- Schemas with `|` between them. -/
def joinAlternatives (parts : List Text) : Text :=
  Text.join (text " | ") parts

/-- Schemas with `&` between them. -/
def joinConjuncts (parts : List Text) : Text :=
  Text.join (text " & ") parts

/-- The schema of a variable: that of its bound and that of its constraints, as far as it has
them. -/
def varSchema (deeper : TypeExpr → Except Error Text) (v : TypeVar) : Except Error Text := do
  let bound ← if v.bound.isOmitted then pure [] else do
    let s ← deeper v.bound
    pure [Text.parenthesized s]
  let constraints ← if v.constraints.isEmpty then pure [] else do
    let s ← deeper (.union v.constraints false)
    pure [Text.parenthesized s]
  match bound ++ constraints with
  | [] => pure (text "_")
  | parts => pure (joinConjuncts parts)

/-- The substitution of arguments for the parameters of a class, as far as there are both. -/
def parameterSubst (params : List TypeVar) (args : List TypeExpr) : Subst :=
  (params.zip args).foldl (fun s (p, t) => Table.put p.name t s) []

/-- The field of a record for a member. -/
def fieldSchema (deeper : TypeExpr → Except Error Text) (record : Text) (s : Subst) (member : Member) :
    Except Error Text :=
  match member.type with
  | .omitted => .error .hole
  | .callable _ _ _ => .error (.unsupported (.method record member.name))
  | t => do
    let schema ← deeper (t.apply s)
    pure (Quoted.quote member.name ++ text ": " ++ schema)

/-- The schema of a record: a closed structure with a field for every member. -/
def recordSchema (r : Registry) (deeper : TypeExpr → Except Error Text) (c : Class)
    (args : List TypeExpr) : Except Error Text := do
  let s := parameterSubst c.params args
  let fields ← (r.members c.name).mapM (fieldSchema deeper c.name s)
  pure (text "close(\x7b" ++ Text.commas fields ++ text "\x7d)")

/-- The schema of a class applied to arguments. -/
def classSchema (r : Registry) (deeper : TypeExpr → Except Error Text) (name : Text)
    (args : List TypeExpr) : Except Error Text :=
  -- Builtin classes first: they have schemas of their own, whatever the registry says about their
  -- names.
  if name = Name.any || name = Name.object then .ok (text "_")
  else if name = Name.int then .ok (text "int")
  else if name = Name.float then .ok (text "float")
  else if name = Name.string then .ok (text "string")
  else if name = Name.bool then .ok (text "bool")
  else if name = Name.bytes then .ok (text "bytes")
  else if name = Name.nil then .ok (text "null")
  else if name = Name.list || name = Name.sequence then
    match args with
    | [] => .ok (text "[..._]")
    | elem :: _ => do
      let s ← deeper elem
      pure (Text.bracketed (text "..." ++ Text.parenthesized s))
  else if name = Name.tuple then
    match args with
    | [] => .ok (text "[..._]")
    | elems => do
      let parts ← elems.mapM deeper
      pure (Text.bracketed (Text.commas parts))
  else if name = Name.map || name = Name.mapping then
    match args with
    | [] => .ok (text "\x7b...\x7d")
    | [key, value] =>
      -- Data have texts as keys, so other keys cannot be checked.
      if key.same (.con Name.string) then do
        let s ← deeper value
        pure (text "\x7b[string]: " ++ s ++ text "\x7d")
      else .error (.unsupported .mappingKeys)
    | _ => .error (.unsupported .mappingKeys)
  -- Of all other classes, records alone have a structure that data can have.
  else match r.class? name with
    | some c =>
      if c.kind = .record then r.recordSchema deeper c args
      else .error (.unsupported (.noSchema name))
    | none => .error (.unsupported (.noSchema name))

/-- The schema of a type, one level of it; `deeper` gives the schemas of its parts. -/
def schemaStep (r : Registry) (deeper : TypeExpr → Except Error Text) (t : TypeExpr) :
    Except Error Text :=
  match t with
  | .con name => r.classSchema deeper name []
  | .app head args => r.classSchema deeper head args
  | .union members _ => do
    let parts ← members.mapM deeper
    pure (joinAlternatives (parts.map Text.parenthesized))
  | .literal values => do
    let parts ← values.mapM Literal.schema
    pure (joinAlternatives parts)
  | .annotated inner metadata => do
    let s ← deeper inner
    pure (joinConjuncts ((s :: metadata).map Text.parenthesized))
  | .var name bound constraints =>
    -- A variable that says nothing about its types stands for the declaration of its name.
    let v : TypeVar := ⟨name, bound, constraints⟩
    varSchema deeper (if v.unrestricted then (r.var? name).getD v else v)
  | t => .error (.unsupported (.noSchema t.display))

/-- The schema of a type with a number of levels left. -/
def schemaWithin (r : Registry) : Nat → TypeExpr → Except Error Text
  | 0, t => .error (.unsupported (.tooDeep t.display))
  | room + 1, t => r.schemaStep (schemaWithin r room) t

/-- The schema of a type, as a text in the notation of constraints. -/
def schema (r : Registry) (t : TypeExpr) : Except Error Text :=
  r.schemaWithin (maxSchemaDepth + 1) t

end Registry

end TypeShape
