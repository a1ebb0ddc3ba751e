import TypeShape.Declaration.File
import TypeShape.Registry.Declare

/-!
# Applying declaration files

The classes of a file may refer to each other in any order: before anything is read, every class
that the registry lacks is entered without parameters, bases and members.  Then the variables,
the classes and the aliases are declared in the order of the file.  What was declared before a
failure stays.
-/

namespace TypeShape.DeclarationFile

/-- Reads a type expression with the names known so far. -/
def parseType (source : Text) : Declaring TypeExpr := do
  let r ← get
  match r.parse source with
  | .ok t => pure t
  | .error e => throw e

/-- `path: part name`. -/
def doing (f : DeclarationFile) (part : String) (name : Text) : Text :=
  f.path ++ text ": " ++ text part ++ text " " ++ name

/-- Enters a class by name and kind, unless it is there. -/
def enterClass (f : DeclarationFile) (c : ClassEntry) : Declaring Unit := do
  let r ← get
  let kind := (kindOf? c.kind).getD .nominal
  -- A class that is there keeps its entry until it is declared anew below.
  if r.classes.has c.name then pure ()
  else Declaring.within (f.doing "class" c.name) (Registry.declare { name := c.name, kind })

/-- Declares a variable. -/
def applyVar (f : DeclarationFile) (v : VarEntry) : Declaring Unit := do
  let doing := f.doing "var" v.name
  let bound ← if v.bound.isEmpty then pure .omitted
    else Declaring.within (doing ++ text ": bound") (parseType v.bound)
  let constraints ← v.constraints.mapM fun source =>
    Declaring.within (doing ++ text ": constraint") (parseType source)
  Declaring.within doing (Registry.declareVar ⟨v.name, bound, constraints⟩)

/-- The steps of entering a variable, as one computation after another. -/
theorem applyVar_eq (f : DeclarationFile) (v : VarEntry) :
    f.applyVar v =
      (if v.bound.isEmpty then pure .omitted
        else Declaring.within (f.doing "var" v.name ++ text ": bound") (parseType v.bound)) >>=
      fun bound => (v.constraints.mapM fun source =>
        Declaring.within (f.doing "var" v.name ++ text ": constraint") (parseType source)) >>=
      fun constraints =>
        Declaring.within (f.doing "var" v.name) (Registry.declareVar ⟨v.name, bound, constraints⟩) := by
  unfold applyVar
  dsimp only
  split <;> rfl

/-- The type variable that a parameter of a class names, declared if it is not. -/
def parameter (doing : Text) (name : Text) : Declaring TypeVar := do
  let r ← get
  -- A parameter that is a variable already keeps its bound and its constraints.
  match r.var? name with
  | some v => pure v
  | none => do
    let v : TypeVar := { name }
    Declaring.within (doing ++ text ": param " ++ name) (Registry.declareVar v)
    pure v

/-- Declares a class. -/
def applyClass (f : DeclarationFile) (c : ClassEntry) : Declaring Unit := do
  let doing := f.doing "class" c.name
  let params ← c.params.mapM (parameter doing)
  let bases ← c.bases.mapM fun source =>
    Declaring.within (doing ++ text ": base") (parseType source)
  let members ← c.members.mapM fun m => do
    let type ← Declaring.within (doing ++ text ": member " ++ m.name) (parseType m.type)
    pure (Member.mk m.name type)
  let kind := (kindOf? c.kind).getD .nominal
  Declaring.within doing (Registry.declare { name := c.name, kind, params, bases, members })

/-- Declares an alias. -/
def applyAlias (f : DeclarationFile) (a : AliasEntry) : Declaring Unit :=
  Declaring.within (f.doing "alias" a.name) do
    let t ← parseType a.type
    Registry.declareAlias a.name t

/-- Declares what a file lists. -/
def apply (f : DeclarationFile) : Declaring Unit := do
  -- Classes are entered first, so that all parts of the file may name them.
  f.classes.forM f.enterClass
  f.vars.forM f.applyVar
  f.classes.forM f.applyClass
  f.aliases.forM f.applyAlias

end TypeShape.DeclarationFile
