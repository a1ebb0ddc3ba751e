import TypeShape.Registry.Basic

/-!
# Declarations

Classes, type variables, aliases and bindings of host types enter a registry one declaration at a
time.  A declaration is checked before it is entered; the type parameters of a class are declared
as variables while the class is being checked, so they stay when a later check fails.
-/

namespace TypeShape

/-- A computation that changes a registry and may fail; what it changed before failing stays. -/
abbrev Declaring := ExceptT Error (StateM Registry)

/-- Runs a declaring computation with a note of what it was doing put before its failures. -/
def Declaring.within {α : Type} (doing : Text) (act : Declaring α) : Declaring α :=
  tryCatch act fun e => throw (.context doing e)

namespace Registry

/-- Fails with a fault of the declaration of `name`. -/
def refuse {α : Type} (name : Text) (fault : DeclarationFault) : Declaring α :=
  throw (.declaration name fault)

/-- Declares a type variable.  A second declaration must agree with the first, or be a bare
reference to it. -/
def declareVar (v : TypeVar) : Declaring Unit := do
  let r ← get
  if v.name.isEmpty then refuse (text "<typevar>") .nameRequired
  -- The reserved names are refused before any table is looked at.
  else if Name.isReserved v.name then refuse v.name .nameReserved
  else if r.classes.has v.name then refuse v.name .isClass
  else match r.var? v.name with
    | some existing =>
      -- The declaration that stands is kept, also where the new one agrees with it.
      if v.unrestricted || existing.toExpr.key == v.toExpr.key then pure ()
      else refuse v.name .conflictingVariable
    | none => set { r with vars := Table.put v.name v r.vars }

/-- Declares the type parameters of class `owner`; `seen` are the names of those before. -/
def declareParams (owner : Text) : List Text → List TypeVar → Declaring Unit
  | _, [] => pure ()
  | seen, p :: ps =>
    if seen.contains p.name then refuse owner (.duplicateParameter p.name)
    else do
      declareVar p
      declareParams owner (p.name :: seen) ps

/-- The fault of a base of class `owner`, if it has one. -/
def baseFault? (r : Registry) (owner : Text) (base : TypeExpr) : Option DeclarationFault :=
  match base.className? with
  | none => some (.baseNotClass base.render)
  | some name =>
    if name = owner then some .inheritsItself
    else if r.classes.has name then none
    else some (.unknownBase name)

/-- The first name that occurs twice. -/
def firstRepeated : List Text → List Text → Option Text
  | _, [] => none
  | seen, n :: ns => if seen.contains n then some n else firstRepeated (n :: seen) ns

/-- Declares a class, in place of an earlier class of its name. -/
def declare (c : Class) : Declaring Unit := do
  let r ← get
  if c.name.isEmpty then refuse (text "<class>") .nameRequired
  else if Name.isReserved c.name then refuse c.name .nameReserved
  else if r.vars.has c.name then refuse c.name .isVariable
  else do
    -- The parameters stay declared, even if a fault of the class is found below.
    declareParams c.name [] c.params
    -- The registry that the class is put into has its parameters already.
    let r ← get
    match c.bases.findSome? (r.baseFault? c.name) with
    | some fault => refuse c.name fault
    | none =>
      match firstRepeated [] (c.members.map (·.name)) with
      | some name => refuse c.name (.duplicateMember name)
      | none => set { r with classes := Table.put c.name c r.classes }

/-- Declares a name for a type expression. -/
def declareAlias (name : Text) (t : TypeExpr) : Declaring Unit := do
  let r ← get
  if name.isEmpty || Name.isReserved name then refuse name .invalidAlias
  else if r.classes.has name then refuse name .isClass
  else if r.vars.has name then refuse name .isVariable
  else set { r with aliases := Table.put name t r.aliases }

/-- Binds a host type, or changes its binding. -/
def putHostType (t : HostType) (name : Text) : List (HostType × Text) → List (HostType × Text)
  | [] => [(t, name)]
  -- The place in the list is kept, so that an older binding is changed where it is.
  | (u, n) :: rest => if u.same t then (u, name) :: rest else (u, n) :: putHostType t name rest

/-- Makes the values of a host type instances of a class. -/
def bindHostType (t : HostType) (name : Text) : Declaring Unit := do
  let r ← get
  if r.classes.has name then set { r with hostTypes := putHostType t name r.hostTypes }
  else throw (.unknownType name)

/-- Installs one more hook. -/
def addTyper (typer : Typer) : Declaring Unit :=
  modify fun r => { r with typers := r.typers ++ [typer] }

end Registry

end TypeShape
