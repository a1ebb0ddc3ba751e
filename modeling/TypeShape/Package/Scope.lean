import TypeShape.Package.Basic

/-!
# Names in packages

A name in a package is a type parameter of the declaration it stands in, else a type of the package,
else a predeclared type; a name with a dot is a type of another package, whose path stands in front of
the last dot.  Resolving a type replaces its names by what they stand for, and names that are other
names for a type by that type.

What a defined type is made of is found by following its definition until it is no name.
-/

namespace TypeShape

/-- What a name stands for. -/
inductive TypeHead where
  /-- A predeclared type that is no interface. -/
  | basic (name : Text)
  /-- A type declared in the package of a path. -/
  | defined (path name : Text)
  /-- A type parameter of the declaration at hand. -/
  | param (index : Nat)
  /-- The predeclared interface of errors. -/
  | error
  /-- The predeclared constraint of comparable types. -/
  | comparable
  deriving DecidableEq, Repr, Inhabited

/-- A type whose names are resolved. -/
abbrev ResolvedType := PackageType TypeHead

/-- Replaces type parameters by arguments; a parameter without argument stays. -/
def PackageType.instantiate (args : List ResolvedType) (t : ResolvedType) : ResolvedType :=
  t.bind id fun head as =>
    match head with
    | .param i => args[i]?.getD (.plain head)
    -- A type parameter has no arguments of its own.
    | _ => .named head as

/-- The packages that can be referred to. -/
abbrev Packages := List Package

/-- Where a type is written: the path of the package, and the type parameters of the declaration. -/
structure TypeScope where
  path : Text
  params : List Text := []

/-- The type that a predeclared name stands for. -/
def predeclared (name : Text) : ResolvedType :=
  if name = text "error" then .plain .error
  else if name = text "comparable" then .plain .comparable
  else if name = text "any" then .aliased name (.interface [] [])
  else if name = text "byte" then .plain (.basic (text "uint8"))
  else if name = text "rune" then .plain (.basic (text "int32"))
  else .plain (.basic name)

namespace Packages

/-- The declaration of a type in the package of a path. -/
def declaration? (ps : Packages) (path name : Text) : Option TypeDeclaration := do
  let p ← ps.find? fun p => p.path == path
  p.declarations.find? fun d => d.name == name

/-- The number of declarations. -/
def declarationCount (ps : Packages) : Nat :=
  ps.foldr (fun p n => p.declarations.length + n) 0

/-- The path and the name that a name of a type leads to from the package of a path. -/
def qualified (path name : Text) : Text × Text :=
  let last := (name.reverse.takeWhile (· != Text.byte '.')).reverse
  if last.length = name.length then (path, name)
  else ((name.take (name.length - last.length)).dropLast, last)

/-- The scope inside a declaration of the package of a path. -/
def scopeOf (path : Text) (d : TypeDeclaration) : TypeScope :=
  { path, params := d.params.map (·.1) }

/-- Replaces the names of a type by what they stand for, through at most `fuel` other names in a
row. -/
def resolveFuel (ps : Packages) : Nat → TypeScope → WrittenType → ResolvedType
  | fuel, scope, t => t.bind (fun _ => scope.path) fun name args =>
    -- Type parameters hide every other type of their name.
    match scope.params.idxOf? name with
    | some i => .plain (.param i)
    | none =>
      -- A name without a package before it is that of the package at hand.
      let (path, n) := qualified scope.path name
      match ps.declaration? path n with
      -- What is not declared anywhere is predeclared.
      | none => predeclared name
      | some d =>
        if d.isAlias then
          match fuel with
          | 0 => .named (.defined path n) args
          | fuel + 1 =>
            .aliased n ((resolveFuel ps fuel (scopeOf path d) d.type).instantiate args)
        else .named (.defined path n) args

/-- Replaces the names of a type by what they stand for.  Names that are other names for a type do
not lead back to themselves, so there are no more of them in a row than declarations. -/
def resolve (ps : Packages) (scope : TypeScope) (t : WrittenType) : ResolvedType :=
  ps.resolveFuel ps.declarationCount scope t

/-- Follows definitions until a type is no name, at most `fuel` of them. -/
def underlyingFuel (ps : Packages) : Nat → ResolvedType → ResolvedType
  | 0, t => t
  | fuel + 1, t =>
    -- Another name for a type is followed without spending fuel.
    match t.unaliased with
    | .named (.defined path name) args =>
      match ps.declaration? path name with
      | none => t
      | some d =>
        ps.underlyingFuel fuel ((ps.resolve (scopeOf path d) d.type).instantiate args)
    | .named .error _ =>
      .interface [(text "Error", .func [] [.plain (.basic (text "string"))] false)] []
    | u => u

/-- What a type is made of. -/
def underlying (ps : Packages) (t : ResolvedType) : ResolvedType :=
  ps.underlyingFuel (ps.declarationCount + 1) t

end Packages

end TypeShape
