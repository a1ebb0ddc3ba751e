import TypeShape.Package.Interface

/-!
# Identical types

Two types are identical if they are made in the same way of identical types; other names for types
are seen through.  Interfaces are identical if they have the same methods, whatever the order in which
these are written and whether they are written or embedded.
-/

namespace TypeShape

/-- The last part of the name of a type, which is the name of a field that embeds it. -/
def PackageType.embeddedName : ResolvedType → Text
  | .aliased name _ => name
  | .pointer target => embeddedName target
  | .named (.defined _ name) _ => name
  | .named (.basic name) _ => name
  | .named .error _ => text "error"
  | _ => []

/-- The name of a field of a structure in the package of a path. -/
def PackageType.fieldName (path : Text) (field : Option Text × ResolvedType) : MemberName :=
  .within path (field.1.getD field.2.embeddedName)

namespace PackageType

section

variable (interfaces : ResolvedType → ResolvedType → Bool)

mutual

/-- Whether two types are identical, where `interfaces` says so for interfaces. -/
def same : ResolvedType → ResolvedType → Bool
  -- Other names for a type do not tell it apart, on either side.
  | aliased _ t, u => same t u
  | named a as, u =>
    match u.unaliased with
    -- A defined type is told by its declaration, not by what it is defined as.
    | named b bs => a == b && sameAll as bs
    | _ => false
  | pointer t, u =>
    match u.unaliased with
    | pointer u => same t u
    | _ => false
  | slice t, u =>
    match u.unaliased with
    | slice u => same t u
    | _ => false
  | array m t, u =>
    match u.unaliased with
    | array n u => m == n && same t u
    | _ => false
  | map k t, u =>
    match u.unaliased with
    | map l u => same k l && same t u
    | _ => false
  | channel t d, u =>
    match u.unaliased with
    | channel u e => d == e && same t u
    | _ => false
  | func ps rs v, u =>
    match u.unaliased with
    | func qs ss w => sameAll ps qs && sameAll rs ss && v == w
    | _ => false
  | struct fs home, u =>
    match u.unaliased with
    | struct gs home' => sameFields home home' fs gs
    | _ => false
  | interface ms es home, u =>
    match u.unaliased with
    | interface ns fs home' => interfaces (interface ms es home) (interface ns fs home')
    | _ => false

/-- Whether two lists of types are identical. -/
def sameAll : List ResolvedType → List ResolvedType → Bool
  | [], [] => true
  | t :: ts, u :: us => same t u && sameAll ts us
  | _, _ => false

/-- Whether two lists of fields, of structures in the packages of two paths, are identical. -/
def sameFields (home home' : Text) :
    List (Option Text × ResolvedType) → List (Option Text × ResolvedType) → Bool
  | [], [] => true
  | (m, t) :: ts, (n, u) :: us =>
    m.isNone == n.isNone && fieldName home (m, t) == fieldName home' (n, u) && same t u &&
      sameFields home home' ts us
  | _, _ => false

end

end

end PackageType

namespace Packages

/-- Whether two types are identical, interfaces inside one another being compared to a depth of
`fuel`.  Interfaces may lead back to themselves, and are identical if no difference is found. -/
def identicalFuel (ps : Packages) : Nat → ResolvedType → ResolvedType → Bool
  | 0, t, u => t.same (fun _ _ => true) u
  | fuel + 1, t, u => t.same (fun t u =>
      -- The methods are sorted by name, so those of one name stand side by side.
      let ms := ps.interfaceMethods t
      let ns := ps.interfaceMethods u
      ms.length == ns.length &&
        (ms.zip ns).all fun (m, n) => m.1 == n.1 && ps.identicalFuel fuel m.2 n.2) u

/-- How many types the declarations of packages are built from. -/
def size (ps : Packages) : Nat :=
  let constraints (d : TypeDeclaration) : List WrittenType := d.params.filterMap (·.2)
  (ps.flatMap (·.declarations)).foldr (fun d n => d.type.size + PackageType.sizeMethods d.methods +
    PackageType.sizeAll (constraints d) + n) 0

/-- Whether two types are identical.  There are not more pairs of interfaces to be compared than pairs
of types. -/
def identical (ps : Packages) (t u : ResolvedType) : Bool :=
  ps.identicalFuel ((ps.size + t.size) * (ps.size + u.size)) t u

end Packages

end TypeShape
