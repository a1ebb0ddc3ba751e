import TypeShape.Package.Identity

/-!
# Methods

A defined type has its own methods and those promoted from the fields embedded in it, level by level:
what is found at a level hides the same name further down, and a name found more than once at a level,
or as a method and as a field, is hidden altogether.
-/

namespace TypeShape.Packages

/-- A type found at some level of embedding; `multiple` if it is embedded there more than once. -/
structure Embedded where
  type : ResolvedType
  multiple : Bool

/-- The methods declared for a type, with its type arguments put into them. -/
def declaredMethods (ps : Packages) : ResolvedType → Methods
  | .named (.defined path name) args =>
    match ps.declaration? path name with
    | none => []
    | some d => d.methods.map fun (n, t) =>
      (.within path n, (ps.resolve (scopeOf path d) t).instantiate args)
  | _ => []

/-- The methods that a type brings to its level. -/
def levelMethods (ps : Packages) (e : Embedded) : Methods :=
  ps.declaredMethods e.type ++ ps.interfaceMethods e.type

/-- The fields of a type by name, and whether they are embedded. -/
def fieldsOf (ps : Packages) (t : ResolvedType) : List (MemberName × Bool × ResolvedType) :=
  match ps.underlying t with
  | .struct fields home => fields.map fun f => (PackageType.fieldName home f, f.1.isNone, f.2)
  | _ => []

/-- The methods that are known, by name; a hidden name has none. -/
abbrev MethodTable := List (MemberName × Option ResolvedType)

/-- Enters what is known of a name, unless something is known. -/
def MethodTable.putNew (known : MethodTable) (name : MemberName) (t : Option ResolvedType) :
    MethodTable :=
  if known.any fun (n, _) => n == name then known else known ++ [(name, t)]

/-- Enters a method that was found at a level: it is hidden if the type it comes from is there more
than once, if the level has another one of its name, or if the level has such a field. -/
def enterMethod (found : List (MemberName × Bool × ResolvedType)) (fieldNames : List MemberName)
    (known : MethodTable) (m : MemberName × Bool × ResolvedType) : MethodTable :=
  let (name, multiple, t) := m
  let rivals := found.filter fun (n, _) => n == name
  let hidden := multiple || rivals.length ≠ 1 || fieldNames.contains name
  known.putNew name (if hidden then none else some t)

/-- Merges the types of a level that are identical. -/
def consolidate (ps : Packages) : List Embedded → List Embedded
  | [] => []
  | e :: es =>
    let rest := ps.consolidate es
    if rest.any fun f => ps.identical f.type e.type then
      { e with multiple := true } :: rest.filter fun f => !ps.identical f.type e.type
    else e :: rest

/-- Goes down level by level, to a depth of `fuel`; types of `seen` were met further up. -/
def methodTableFuel (ps : Packages) :
    Nat → List ResolvedType → List Embedded → MethodTable → MethodTable
  | 0, _, _, known => known
  | _ + 1, _, [], known => known
  | fuel + 1, seen, level, known =>
    -- A type that was met further up brings nothing new at this level.
    let fresh := level.filter fun e => !seen.any fun t => ps.identical t e.type
    let found := fresh.flatMap fun e =>
      (ps.levelMethods e).map fun (n, t) => (n, e.multiple, t)
    let fields := fresh.flatMap fun e => ps.fieldsOf e.type
    let fieldNames := fields.map (·.1)
    let known := found.foldl (enterMethod found fieldNames) known
    -- Fields hide the methods of their names further down.
    let known := fieldNames.foldl (fun known n => known.putNew n none) known
    -- A pointer is embedded like what it points to.
    let next := fresh.flatMap fun e => (ps.fieldsOf e.type).filterMap fun (_, embedded, t) =>
      if embedded then some (Embedded.mk t.pointee e.multiple) else none
    ps.methodTableFuel fuel (fresh.map (·.type) ++ seen) (ps.consolidate next) known

/-- How many levels of embedding there are at most. -/
def levelCount (ps : Packages) : Nat :=
  (ps.declarationCount + 2) * (ps.declarationCount + 2)

/-- The methods of a pointer to a type, promoted ones included, by name. -/
def methodSet (ps : Packages) (t : ResolvedType) : Methods :=
  -- The method set is that of a pointer, which has the methods of the type as well.
  let known := ps.methodTableFuel ps.levelCount [] [⟨t.unaliased, false⟩] []
  let sorted := known.mergeSort fun a b => Text.le a.1.id b.1.id
  sorted.filterMap fun (name, found) => found.map fun t => (name, t)

end TypeShape.Packages
