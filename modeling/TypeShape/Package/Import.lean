import TypeShape.Package.Methods
import TypeShape.Registry.Declare

/-!
# Importing packages

The capitalized types of packages are declared as classes named `package.Type`: interfaces as
protocols with their methods as members, all other types as nominal classes.  Fields and methods
become members, embedded imported types become bases, and type parameters become variables named
`package.Type.Param`.  What lies outside the imported packages is `Any`.

Types are told apart by the path of their package and their own name, and classes by the name of the
package and that of the type.  So types of two packages of one name may come to one class, which is
then that of the last of them.

Every class is entered by name before any of them is filled in, so that they may refer to each other.
-/

namespace TypeShape

/-- A type that is imported. -/
structure Imported where
  package : Package
  declaration : TypeDeclaration

namespace Imported

/-- The name of the class. -/
def className (i : Imported) : Text :=
  i.package.name ++ text "." ++ i.declaration.name

/-- The type applied to its own parameters. -/
def self (i : Imported) : ResolvedType :=
  .named (.defined i.package.path i.declaration.name)
    ((List.range i.declaration.params.length).map fun n => .plain (.param n))

/-- The scope inside the declaration. -/
def scope (i : Imported) : TypeScope :=
  Packages.scopeOf i.package.path i.declaration

end Imported

/-- What an import knows: the packages, and which types are imported. -/
structure Importer where
  packages : Packages
  imported : List Imported

/-- The class of a predeclared type; `Any` for those that have none. -/
def basicClass (name : Text) : TypeExpr :=
  let isAmong (names : List String) : Bool := names.any fun n => text n == name
  if isAmong ["bool"] then .con Name.bool
  else if isAmong ["int", "int8", "int16", "int32", "int64", "uint", "uint8", "uint16", "uint32",
      "uint64", "uintptr"] then .con Name.int
  else if isAmong ["float32", "float64"] then .con Name.float
  else if isAmong ["string"] then .con Name.string
  else .any

/-- Whether a type is the predeclared type of bytes. -/
def PackageType.isByte : ResolvedType → Bool
  | .named (.basic name) _ => name == text "uint8"
  | _ => false

namespace Importer

/-- The imported type of a name in the package of a path. -/
def find? (imp : Importer) (path name : Text) : Option Imported :=
  imp.imported.find? fun i => i.package.path == path && i.declaration.name == name

mutual

/-- The type expression of a type, where `vars` are the variables of the type parameters.  `room`
levels may still be entered; below them everything is `Any`.  Other names for a type in a row are one
level. -/
def typeExpr (imp : Importer) (vars : List TypeVar) (room : Nat) : ResolvedType → TypeExpr
  | .named head args =>
    if room = 0 then .any
    else match head with
      | .basic name => basicClass name
      | .defined path name =>
        match imp.find? path name with
        | none => .any
        | some i => .generic i.className (typeExprs imp vars (room - 1) args)
      | .param i => (vars[i]?.map TypeVar.toExpr).getD .any
      | .error => .any
      | .comparable => .any
  | .aliased _ target =>
    -- Only the last of several names in a row spends a level.
    if target.isAliased then typeExpr imp vars room target
    else if room = 0 then .any
    else typeExpr imp vars (room - 1) target
  | .pointer target => if room = 0 then .any else typeExpr imp vars (room - 1) target
  | .slice elem =>
    if room = 0 then .any
    -- Bytes are known by the element type; an alias of it is another type here.
    else if elem.isByte then .con Name.bytes
    else .generic Name.list [typeExpr imp vars (room - 1) elem]
  | .array _ elem =>
    if room = 0 then .any else .generic Name.list [typeExpr imp vars (room - 1) elem]
  | .map key value =>
    if room = 0 then .any
    else .generic Name.map [typeExpr imp vars (room - 1) key, typeExpr imp vars (room - 1) value]
  | .func params results _ =>
    if room = 0 then .any
    else
      -- A function without results returns `Nil`, and several results are a tuple.
      let result := match typeExprs imp vars (room - 1) results with
        | [] => .nil
        | [t] => t
        | ts => .generic Name.tuple ts
      .callable (typeExprs imp vars (room - 1) params) result false
  -- Nothing is said about the rest, which has no class of its own.
  | .channel _ _ => .any
  | .struct _ _ => .any
  | .interface _ _ _ => .any

/-- The type expressions of a list of types. -/
def typeExprs (imp : Importer) (vars : List TypeVar) (room : Nat) :
    List ResolvedType → List TypeExpr
  | [] => []
  | t :: ts => typeExpr imp vars room t :: typeExprs imp vars room ts

end

/-- The type expression of a type at full depth. -/
def exprOf (imp : Importer) (vars : List TypeVar) (t : ResolvedType) : TypeExpr :=
  imp.typeExpr vars (maxRecursion + 1) t

/-- Adds an alternative, unless it says nothing or is there. -/
def addTerm (terms : List TypeExpr) (t : TypeExpr) : List TypeExpr :=
  if t.same .any || terms.any (fun u => u.same t) then terms else terms ++ [t]

/-- The alternatives that a constraint lists, if it is more than a set of methods.  A type that is
no interface stands for the constraint that lists it alone. -/
def alternativesOf (imp : Importer) (constraint : ResolvedType) : List ResolvedType :=
  -- Methods are not listed as alternatives; such a constraint restricts nothing.
  if imp.packages.isMethodSet constraint then []
  else match imp.packages.underlying constraint with
    | .interface _ embeds _ => embeds.flatten
    | .named .comparable _ => []
    | _ => [constraint]

/-- Restricts a variable by the constraint of its type parameter: one alternative is a bound, several
are constraints.  Methods do not restrict it. -/
def constrain (imp : Importer) (vars : List TypeVar) (v : TypeVar) (constraint : ResolvedType) :
    TypeVar :=
  match ((imp.alternativesOf constraint).map (imp.exprOf vars)).foldl addTerm [] with
  | [] => v
  | [t] => { v with bound := t }
  | terms => { v with constraints := terms }

/-- Restricts the variables from index `n` on, in order; a constraint may mention all of them. -/
def constrainFrom (imp : Importer) (scope : TypeScope) :
    Nat → List (Option WrittenType) → List TypeVar → List TypeVar
  | _, [], vars => vars
  | n, c :: cs, vars =>
    match c, vars[n]? with
    | some c, some v =>
      constrainFrom imp scope (n + 1) cs
        (vars.set n (imp.constrain vars v (imp.packages.resolve scope c)))
    | _, _ => constrainFrom imp scope (n + 1) cs vars

/-- The variables of the type parameters of an imported type. -/
def paramsOf (imp : Importer) (i : Imported) : List TypeVar :=
  let vars := i.declaration.params.map fun (name, _) =>
    ({ name := i.className ++ text "." ++ name } : TypeVar)
  imp.constrainFrom i.scope 0 (i.declaration.params.map (·.2)) vars

/-- The base that an embedded type gives rise to, if it is imported; another name for a type does
not count. -/
def baseOf? (imp : Importer) (vars : List TypeVar) (t : ResolvedType) : Option TypeExpr :=
  let target := match t with
    | .pointer target => target
    | t => t
  match target with
  | .named (.defined path name) _ =>
    if (imp.find? path name).isSome then some (imp.exprOf vars target) else none
  | _ => none

/-- The bases and members that the fields of a structure give rise to. -/
def fieldParts (imp : Importer) (vars : List TypeVar) :
    List (Option Text × ResolvedType) → List TypeExpr × List Member
  | [] => ([], [])
  | (name, t) :: rest =>
    let (bases, members) := imp.fieldParts vars rest
    -- Only an embedded field has no name, and only that of an imported type is a base.
    let base := if name.isNone then imp.baseOf? vars t else none
    match base with
    | some b => (b :: bases, members)
    | none =>
      -- An embedded field that is no base is a member under the name of its type.
      let name := name.getD t.embeddedName
      if Letter.isCapitalized name then (bases, ⟨name, imp.exprOf vars t⟩ :: members)
      else (bases, members)

/-- The base of a type that is defined as something else than a structure or an interface. -/
def underlyingBase? (imp : Importer) (vars : List TypeVar) (t : ResolvedType) : Option TypeExpr :=
  match imp.exprOf vars t with
  | .con name => if name = Name.any then none else some (.con name)
  | .app head args => some (.app head args)
  | _ => none

/-- Methods as members. -/
def membersOf (imp : Importer) (vars : List TypeVar) (ms : Packages.Methods) : List Member :=
  ms.map fun (n, t) => ⟨n.name, imp.exprOf vars t⟩

/-- The kind of the class of an imported type. -/
def kindOf (imp : Importer) (i : Imported) : ClassKind :=
  match imp.packages.underlying i.self with
  | .interface _ _ _ => .protocol
  | _ => .nominal

/-- The class of an imported type. -/
def classOf (imp : Importer) (i : Imported) : Class :=
  let params := imp.paramsOf i
  -- An interface keeps all its methods, other types only those with capital names.
  let methods := (imp.packages.methodSet i.self).filter fun (n, _) => Letter.isCapitalized n.name
  match imp.packages.underlying i.self with
  | .interface _ _ _ =>
    { name := i.className, kind := .protocol, params,
      members := imp.membersOf params (imp.packages.interfaceMethods i.self) }
  | .struct fields _ =>
    let (bases, members) := imp.fieldParts params fields
    { name := i.className, params, bases, members := members ++ imp.membersOf params methods }
  | u =>
    { name := i.className, params, bases := (imp.underlyingBase? params u).toList,
      members := imp.membersOf params methods }

/-- Runs an act on an imported type; its failure names the type. -/
def declaring (i : Imported) (act : Declaring Unit) : Declaring Unit :=
  Declaring.within (text "importing " ++ i.declaration.name) act

end Importer

namespace Packages

/-- Whether a declaration is imported: its name is capitalized and a name of its own, and it is no
interface that only restricts type parameters. -/
def isImported (ps : Packages) (i : Imported) : Bool :=
  Letter.isCapitalized i.declaration.name && !i.declaration.isAlias &&
    match ps.underlying i.self with
    | .interface _ _ _ => ps.isMethodSet i.self
    | .named .comparable _ => false
    | _ => true

/-- The imported types: those of each package that is not hidden, by name. -/
def imported (ps : Packages) : List Imported :=
  (ps.filter fun p => !p.hidden).flatMap fun p =>
    ((p.declarations.mergeSort fun a b => Text.le a.name b.name).map (Imported.mk p)).filter
      ps.isImported

/-- Declares the types of packages as classes. -/
def declareAll (ps : Packages) : Declaring Unit := do
  let imp : Importer := ⟨ps, ps.imported⟩
  -- First the bare classes, so that a base may name a class that is filled in later.
  imp.imported.forM fun i =>
    Importer.declaring i (Registry.declare { name := i.className, kind := imp.kindOf i })
  imp.imported.forM fun i => Importer.declaring i (Registry.declare (imp.classOf i))

end Packages

end TypeShape
