import TypeShape.Registry.Basic

/-!
# Inheritance

The bases of classes make a graph on names, which may have cycles because a class can be declared
anew.  A class is a subclass of whatever can be reached from it along bases, of itself, and of
`Object`.  The members of a class are its own, then those of the classes reached from it, each
base before the next one; the first member of a name wins.
-/

namespace TypeShape.Registry

/-- The names of the bases of the class `name`. -/
def supers (r : Registry) (name : Text) : List Text :=
  match r.class? name with
  | some c => c.baseNames
  | none => []

/-- The number of bases written in the registry: an upper bound on the steps of a walk along
bases that enters no class twice. -/
def baseCount (r : Registry) : Nat :=
  r.classes.foldr (fun (_, c) n => c.bases.length + n) 0

/-- The names of `found` that are not among `visited`, each once. -/
def unvisited (visited : List Text) : List Text → List Text
  | [] => []
  | n :: ns =>
    if visited.contains n then unvisited visited ns else n :: unvisited (n :: visited) ns

/-- Whether a walk from the names of `queue`, nearest first, meets `goal` as a base. -/
def reaches (r : Registry) (goal : Text) : Nat → List Text → List Text → Bool
  | 0, _, _ => false
  | _ + 1, _, [] => false
  | fuel + 1, visited, name :: queue =>
    let bases := r.supers name
    -- The goal counts as met when it is written as a base, whether or not it is a class.
    if bases.contains goal then true
    else
      let new := unvisited visited bases
      reaches r goal fuel (new ++ visited) (queue ++ new)

/-- Nominal inheritance. -/
def isSubclass (r : Registry) (sub super : Text) : Bool :=
  sub = super || super = Name.object || r.reaches super (r.baseCount + 2) [sub] [sub]

/-- The classes met on a walk along bases, a class before its bases and a base with all that is
reached from it before the next base, each class once. -/
def lineageFrom (r : Registry) : Nat → List Text → List Text → List Class
  | 0, _, _ => []
  | _ + 1, _, [] => []
  | fuel + 1, visited, name :: stack =>
    -- A name is visited when it is taken off the stack, so it may stand there more than once.
    if visited.contains name then lineageFrom r fuel visited stack
    else match r.class? name with
      | none => lineageFrom r fuel (name :: visited) stack
      | some c => c :: lineageFrom r fuel (name :: visited) (c.baseNames ++ stack)

/-- The class `name` and all it inherits from. -/
def lineage (r : Registry) (name : Text) : List Class :=
  r.lineageFrom (r.baseCount + 2) [] [name]

/-- Keeps the first member of each name; names in `seen` are left out. -/
def firstMembers : List Text → List Member → List Member
  | _, [] => []
  | seen, m :: ms =>
    if seen.contains m.name then firstMembers seen ms
    else m :: firstMembers (m.name :: seen) ms

/-- The members of a class, inherited ones included. -/
def members (r : Registry) (name : Text) : List Member :=
  firstMembers [] ((r.lineage name).flatMap (·.members))

end TypeShape.Registry
