import TypeShape.Table

/-!
# Host packages

A host package declares types by name.  The types in it are trees over names; the kind of names is
a parameter, so that a tree as it is written, over names that are mere texts, and a tree whose names
have been resolved are the same type, and resolving names and replacing type parameters are both
`bind`.

A package is told from others by its path, and a type of another package is written with the path in
front.  The name of a package is no more than the first part of the names of its classes.
-/

namespace TypeShape

/-- Which way the values of a channel go. -/
inductive ChannelDirection where
  | both
  | send
  | receive
  deriving DecidableEq, Repr, Inhabited

/-- A type of a host package, over names of kind `ν`. -/
inductive PackageType (ν : Type) where
  /-- A type by its name, with type arguments if it is generic. -/
  | named (head : ν) (args : List (PackageType ν))
  /-- Another name for a type. -/
  | aliased (name : Text) (target : PackageType ν)
  | pointer (target : PackageType ν)
  | slice (elem : PackageType ν)
  | array (length : Nat) (elem : PackageType ν)
  | map (key value : PackageType ν)
  | channel (elem : PackageType ν) (direction : ChannelDirection := .both)
  /-- A function; the last parameter of a variadic one is a slice. -/
  | func (params results : List (PackageType ν)) (variadic : Bool)
  /-- A structure; a field without a name of its own is embedded.  Names that are not capitalized
  belong to the package at home. -/
  | struct (fields : List (Option Text × PackageType ν)) (home : Text := [])
  /-- An interface with its own methods and what it embeds, each a union of alternatives.  Names that
  are not capitalized belong to the package at home. -/
  | interface (methods : List (Text × PackageType ν)) (embeds : List (List (PackageType ν)))
    (home : Text := [])
  deriving Inhabited

namespace PackageType

variable {ν μ : Type}

/-- A type by its name, without arguments. -/
def plain (head : ν) : PackageType ν := named head []

mutual

/-- Puts what `f` gives for a name and its arguments in the place of every named type, and what `g`
gives for a package in the place of every home. -/
def bind (g : Text → Text) (f : ν → List (PackageType μ) → PackageType μ) :
    PackageType ν → PackageType μ
  | named head args => f head (bindAll g f args)
  | aliased name target => aliased name (bind g f target)
  | pointer target => pointer (bind g f target)
  | slice elem => slice (bind g f elem)
  | array length elem => array length (bind g f elem)
  | map key value => map (bind g f key) (bind g f value)
  | channel elem direction => channel (bind g f elem) direction
  | func params results variadic => func (bindAll g f params) (bindAll g f results) variadic
  | struct fields home => struct (bindFields g f fields) (g home)
  | interface methods embeds home =>
    interface (bindMethods g f methods) (bindEmbeds g f embeds) (g home)

/-- `bind` on a list of types. -/
def bindAll (g : Text → Text) (f : ν → List (PackageType μ) → PackageType μ) :
    List (PackageType ν) → List (PackageType μ)
  | [] => []
  | t :: ts => bind g f t :: bindAll g f ts

/-- `bind` on the fields of a structure. -/
def bindFields (g : Text → Text) (f : ν → List (PackageType μ) → PackageType μ) :
    List (Option Text × PackageType ν) → List (Option Text × PackageType μ)
  | [] => []
  | (name, t) :: rest => (name, bind g f t) :: bindFields g f rest

/-- `bind` on the methods of an interface. -/
def bindMethods (g : Text → Text) (f : ν → List (PackageType μ) → PackageType μ) :
    List (Text × PackageType ν) → List (Text × PackageType μ)
  | [] => []
  | (name, t) :: rest => (name, bind g f t) :: bindMethods g f rest

/-- `bind` on what an interface embeds. -/
def bindEmbeds (g : Text → Text) (f : ν → List (PackageType μ) → PackageType μ) :
    List (List (PackageType ν)) → List (List (PackageType μ))
  | [] => []
  | terms :: rest => bindAll g f terms :: bindEmbeds g f rest

end

mutual

/-- How many types a type is built from. -/
def size : PackageType ν → Nat
  | named _ args => sizeAll args + 1
  | aliased _ target => size target + 1
  | pointer target => size target + 1
  | slice elem => size elem + 1
  | array _ elem => size elem + 1
  | map key value => size key + size value + 1
  | channel elem _ => size elem + 1
  | func params results _ => sizeAll params + sizeAll results + 1
  | struct fields _ => sizeFields fields + 1
  | interface methods embeds _ => sizeMethods methods + sizeEmbeds embeds + 1

/-- `size` of a list of types. -/
def sizeAll : List (PackageType ν) → Nat
  | [] => 0
  | t :: ts => size t + sizeAll ts

/-- `size` of the fields of a structure. -/
def sizeFields : List (Option Text × PackageType ν) → Nat
  | [] => 0
  | (_, t) :: rest => size t + sizeFields rest

/-- `size` of the methods of an interface. -/
def sizeMethods : List (Text × PackageType ν) → Nat
  | [] => 0
  | (_, t) :: rest => size t + sizeMethods rest

/-- `size` of what an interface embeds. -/
def sizeEmbeds : List (List (PackageType ν)) → Nat
  | [] => 0
  | terms :: rest => sizeAll terms + sizeEmbeds rest

end

/-- Whether a type is another name for one. -/
def isAliased : PackageType ν → Bool
  | aliased _ _ => true
  | _ => false

/-- The type behind other names for it. -/
def unaliased : PackageType ν → PackageType ν
  | aliased _ target => unaliased target
  | t => t

/-- The type behind one pointer, and the type itself if it is none; other names are seen through. -/
def pointee (t : PackageType ν) : PackageType ν :=
  match t.unaliased with
  | pointer target => target.unaliased
  | t => t

end PackageType

/-- A type as it is written in a package. -/
abbrev WrittenType := PackageType Text

/-- The declaration of a type in a package. -/
structure TypeDeclaration where
  name : Text
  /-- Whether the name is another name for its type, and not a type of its own. -/
  isAlias : Bool := false
  /-- The type parameters with their constraints, if these are written. -/
  params : List (Text × Option WrittenType) := []
  type : WrittenType
  methods : List (Text × WrittenType) := []
  deriving Inhabited

/-- A package.  A hidden one may be referred to but is not imported. -/
structure Package where
  name : Text
  /-- What tells the package from all others; several may have one name. -/
  path : Text := name
  hidden : Bool := false
  declarations : List TypeDeclaration := []

end TypeShape
