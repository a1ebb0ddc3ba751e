import TypeShape.Package.Scope
import TypeShape.Text.Letter

/-!
# Interfaces

An interface has its own methods and those of the interfaces it embeds.  A name that is not
capitalized is known in its package only: two packages may each have a method of such a name, and
these are different methods.
-/

namespace TypeShape

/-- The name of a field or a method, with the path of its package unless it is capitalized. -/
structure MemberName where
  name : Text
  package : Option Text
  deriving DecidableEq, Repr, Inhabited

namespace MemberName

/-- A name as it is known in the package of a path. -/
def within (path name : Text) : MemberName :=
  ⟨name, if Letter.isCapitalized name then none else some path⟩

/-- A text that is different for different names. -/
def id (n : MemberName) : Text :=
  match n.package with
  | none => n.name
  | some path => path ++ text "." ++ n.name

/-- Whether a name comes before another in the list of an interface: capitalized names first, then by
name, then by package. -/
def le (m n : MemberName) : Bool :=
  match m.package, n.package with
  | none, none => Text.le m.name n.name
  | none, some _ => true
  | some _, none => false
  | some p, some q => if m.name = n.name then Text.le p q else Text.le m.name n.name

/-- The name of a method does not depend on where it is declared. -/
@[simp] theorem name_within (path name : Text) : (within path name).name = name := rfl

end MemberName

namespace Packages

/-- A name with the type of a method. -/
abbrev Methods := List (MemberName × ResolvedType)

/-- Keeps the first method of each name. -/
def distinctMethods : Methods → Methods
  | [] => []
  | m :: ms => m :: (distinctMethods ms).filter fun n => n.1 != m.1

/-- The methods of an interface and of the interfaces it embeds, to a depth of `fuel`. -/
def interfaceMethodsFuel (ps : Packages) : Nat → ResolvedType → Methods
  | 0, _ => []
  | fuel + 1, t =>
    match ps.underlying t with
    | .interface methods embeds home =>
      methods.map (fun (name, t) => (.within home name, t)) ++ embeds.flatMap fun
        | [e] => ps.interfaceMethodsFuel fuel e
        | _ => []
    | _ => []

/-- How deep interfaces are embedded in one another at most. -/
def embeddingDepth (ps : Packages) : Nat :=
  ps.declarationCount + 2

/-- All methods of an interface, in the order in which they are listed. -/
def interfaceMethods (ps : Packages) (t : ResolvedType) : Methods :=
  (distinctMethods (ps.interfaceMethodsFuel ps.embeddingDepth t)).mergeSort fun m n => m.1.le n.1

/-- Whether a type is an interface that consists of methods only, to a depth of `fuel`.  A union does
not restrict types if one of its alternatives does not. -/
def isMethodSetFuel (ps : Packages) : Nat → ResolvedType → Bool
  | 0, _ => false
  | fuel + 1, t =>
    match ps.underlying t with
    | .interface _ embeds _ => embeds.all fun terms => terms.any (ps.isMethodSetFuel fuel)
    | _ => false

/-- Whether a type is an interface that consists of methods only, and restricts types by nothing
else. -/
def isMethodSet (ps : Packages) (t : ResolvedType) : Bool :=
  ps.isMethodSetFuel ps.embeddingDepth t

end Packages

end TypeShape
