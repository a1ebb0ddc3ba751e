import TypeShape.Expr.Basic

/-!
# Shapes

A shape is the canonical tree of a type expression that matching works on: every node has an
origin, which says what it is, and is either bare or applied to argument slots.  A slot holds one
shape or a group of shapes, the parameter list of a callable.  Shapes made from expressions are
well formed; shapes built by hand may combine any origin with any slots, and may have holes.
-/

namespace TypeShape

/-- What a node is, type variables apart. -/
inductive OriginKind where
  | nominal
  | union
  | callable
  | typeOf
  | any
  | unknown
  deriving DecidableEq, Repr

/-- The word for a kind of origin. -/
def OriginKind.name : OriginKind → Text
  | nominal => text "class"
  | union => text "union"
  | callable => text "callable"
  | typeOf => text "typeof"
  | any => text "any"
  | unknown => text "unknown"

/-- What a node stands for.  The name of a class is its name; the name of a union tells the
spelling `Optional` from `Union`. -/
inductive Origin where
  | plain (kind : OriginKind) (name : Text)
  | var (decl : TypeVar)
  /-- A place of a hand-built tree without a node. -/
  | hole
  deriving Repr, Inhabited

namespace Origin

/-- The kind of an origin that is neither variable nor hole. -/
def kind? : Origin → Option OriginKind
  | plain kind _ => some kind
  | _ => none

/-- The name of an origin. -/
def name : Origin → Text
  | plain _ name => name
  | var decl => decl.name
  | hole => []

/-- A plain origin has its kind. -/
@[simp] theorem kind?_plain (kind : OriginKind) (name : Text) :
    (plain kind name).kind? = some kind := rfl

/-- A variable has none of the kinds. -/
@[simp] theorem kind?_var (decl : TypeVar) : (var decl).kind? = none := rfl

/-- Nor has a hole. -/
@[simp] theorem kind?_hole : hole.kind? = none := rfl

/-- Whether two origins are the same.  The spelling of a union and the name of the wildcard do not
count, and variables are the same when their names are. -/
def same : Origin → Origin → Bool
  | plain a m, plain b n => a == b && (a == .union || a == .any || m == n)
  | var v, var w => v.name == w.name
  | hole, hole => true
  | _, _ => false

end Origin

mutual

/-- The canonical tree of a type. -/
inductive Shape where
  | bare (origin : Origin)
  | applied (origin : Origin) (slots : List Slot)

/-- An argument slot: one shape, or a group that stands for a parameter list. -/
inductive Slot where
  | single (shape : Shape)
  | group (shapes : List Shape)

end

instance : Inhabited Shape := ⟨.bare .hole⟩

namespace Shape

/-- The origin of the root. -/
def origin : Shape → Origin
  | bare origin => origin
  | applied origin _ => origin

/-- The slots of the root; none for a bare shape. -/
def slots : Shape → List Slot
  | bare _ => []
  | applied _ slots => slots

/-- Whether the root carries slots, even if there are none. -/
def isParameterized : Shape → Bool
  | bare _ => false
  | applied _ _ => true

/-- A shape without slots has its origin. -/
@[simp] theorem origin_bare (o : Origin) : (bare o).origin = o := rfl

/-- A shape with slots has its origin. -/
@[simp] theorem origin_applied (o : Origin) (slots : List Slot) :
    (applied o slots).origin = o := rfl

/-- A bare shape has no slots. -/
@[simp] theorem slots_bare (o : Origin) : (bare o).slots = [] := rfl

/-- An applied shape has its slots. -/
@[simp] theorem slots_applied (o : Origin) (slots : List Slot) :
    (applied o slots).slots = slots := rfl

/-- A bare shape is not parameterized. -/
@[simp] theorem isParameterized_bare (o : Origin) : (bare o).isParameterized = false := rfl

/-- An applied shape is. -/
@[simp] theorem isParameterized_applied (o : Origin) (slots : List Slot) :
    (applied o slots).isParameterized = true := rfl

/-- Whether the root has a kind of origin. -/
def hasKind (kind : OriginKind) (s : Shape) : Bool :=
  s.origin.kind? == some kind

/-- Whether the shape is the wildcard. -/
def isAny (s : Shape) : Bool := s.hasKind .any

/-- Whether the shape is a union. -/
def isUnion (s : Shape) : Bool := s.hasKind .union

/-- Whether the shape is a union spelled `Optional`. -/
def isOptional (s : Shape) : Bool :=
  s.isUnion && s.origin.name == Name.optional

/-- The declaration of the variable that the shape is. -/
def var? (s : Shape) : Option TypeVar :=
  match s.origin with
  | .var decl => some decl
  | _ => none

/-- Whether the shape is a type variable. -/
def isVar (s : Shape) : Bool := s.var?.isSome

/-- Whether the shape is a hole. -/
def isHole (s : Shape) : Bool :=
  match s.origin with
  | .hole => true
  | _ => false

/-! ## Building -/

/-- The wildcard. -/
def any : Shape := bare (.plain .any Name.any)

/-- A bare class. -/
def leaf (name : Text) : Shape := bare (.plain .nominal name)

/-- A class applied to arguments; bare when there are none. -/
def ofClass (name : Text) (args : List Shape) : Shape :=
  if args.isEmpty then leaf name else applied (.plain .nominal name) (args.map .single)

/-- A union of branches. -/
def unionOf (branches : List Shape) : Shape :=
  applied (.plain .union Name.union) (branches.map .single)

/-- The union of a shape and `Nil`, in the spelling `Optional`. -/
def optionalOf (s : Shape) : Shape :=
  applied (.plain .union Name.optional) [.single s, .single (leaf Name.nil)]

/-- The origin of callables. -/
def callableOrigin : Origin := .plain .callable Name.callable

/-- A callable of which neither parameters nor result are known. -/
def anyCallable : Shape := bare callableOrigin

/-- A callable with a parameter list. -/
def callableOf (params : List Shape) (result : Shape) : Shape :=
  applied callableOrigin [.group params, .single result]

/-- A callable that accepts every parameter list. -/
def variadicOf (result : Shape) : Shape :=
  applied callableOrigin [.single any, .single result]

/-- The origin of types of types. -/
def typeOfOrigin : Origin := .plain .typeOf Name.typeOf

/-- The type of types. -/
def anyType : Shape := bare typeOfOrigin

/-- The type of a type. -/
def typeOf (s : Shape) : Shape := applied typeOfOrigin [.single s]

/-- A type variable. -/
def ofVar (decl : TypeVar) : Shape := bare (.var decl)

/-! ## Walking -/

/-- The shapes in a list of slots, groups opened. -/
@[simp] def slotShapes : List Slot → List Shape
  | [] => []
  | .single s :: rest => s :: slotShapes rest
  | .group ss :: rest => ss ++ slotShapes rest

/-- The branches of a union, and the shape itself if it is none. -/
def branches (s : Shape) : List Shape :=
  if s.isUnion then slotShapes s.slots else [s]

mutual

/-- The number of levels; a bare shape has one. -/
@[simp] def depth : Shape → Nat
  | bare _ => 1
  | applied _ slots => depthSlots slots + 1

/-- The number of levels below a list of slots. -/
@[simp] def depthSlots : List Slot → Nat
  | [] => 0
  | .single s :: rest => max s.depth (depthSlots rest)
  | .group ss :: rest => max (depthAll ss) (depthSlots rest)

/-- The number of levels of the deepest shape in a list. -/
@[simp] def depthAll : List Shape → Nat
  | [] => 0
  | s :: rest => max s.depth (depthAll rest)

end

mutual

/-- Every occurrence of a type variable, from left to right. -/
@[simp] def varOccurrences : Shape → List TypeVar
  | bare (.var decl) => [decl]
  | bare _ => []
  | applied (.var decl) slots => decl :: varOccurrencesSlots slots
  | applied _ slots => varOccurrencesSlots slots

/-- Every occurrence of a type variable in a list of slots. -/
@[simp] def varOccurrencesSlots : List Slot → List TypeVar
  | [] => []
  | .single s :: rest => s.varOccurrences ++ varOccurrencesSlots rest
  | .group ss :: rest => varOccurrencesAll ss ++ varOccurrencesSlots rest

/-- Every occurrence of a type variable in a list of shapes. -/
@[simp] def varOccurrencesAll : List Shape → List TypeVar
  | [] => []
  | s :: rest => s.varOccurrences ++ varOccurrencesAll rest

end

/-- Whether the shape has no type variable. -/
def isConcrete (s : Shape) : Bool :=
  s.varOccurrences.isEmpty

mutual

/-- Structural equality: the same origins and the same slots in the same order. -/
@[simp] def same : Shape → Shape → Bool
  | bare o, bare p => o.same p
  | applied o as, applied p bs => o.same p && sameSlots as bs
  | _, _ => false

/-- Structural equality of lists of slots. -/
@[simp] def sameSlots : List Slot → List Slot → Bool
  | [], [] => true
  | .single a :: as, .single b :: bs => same a b && sameSlots as bs
  | .group a :: as, .group b :: bs => sameAll a b && sameSlots as bs
  | _, _ => false

/-- Structural equality of lists of shapes. -/
@[simp] def sameAll : List Shape → List Shape → Bool
  | [], [] => true
  | a :: as, b :: bs => same a b && sameAll as bs
  | _, _ => false

end

/-! ## Printing -/

/-- Whether slots are those of a callable that accepts every parameter list. -/
def isVariadicSlots : List Slot → Bool
  | [.single head, .single _] => head.isAny
  | _ => false

/-- Whether slots are those of a union that prints as `Optional`. -/
def isOptionalSlots : List Slot → Bool
  | [.single _, _] => true
  | _ => false

/-- Puts the texts of the slots after the name of the origin. -/
def renderWith (origin : Origin) (slots : List Slot) (texts : List Text) : Text :=
  match origin with
  | .plain .any _ => Name.any
  | .var decl => decl.name
  | .plain .union name =>
    if name = Name.optional && isOptionalSlots slots then
      Name.optional ++ Text.bracketed (texts.headD [])
    else Name.union ++ Text.bracketed (Text.commas texts)
  | .plain .callable _ =>
    if isVariadicSlots slots then
      Name.callable ++ Text.bracketed (text "..., " ++ texts.getLastD [])
    else Name.callable ++ Text.bracketed (Text.commas texts)
  | .plain _ name => name ++ Text.bracketed (Text.commas texts)
  | .hole => text "<nil>"

/-- The text of a bare origin. -/
def renderBare : Origin → Text
  | .plain .any _ => Name.any
  | .plain .union _ => Name.union
  | .plain .callable _ => Name.callable
  | .plain _ name => name
  | .var decl => decl.name
  | .hole => text "<nil>"

mutual

/-- The shape in the notation of type expressions. -/
def render : Shape → Text
  | bare origin => renderBare origin
  | applied origin slots => renderWith origin slots (renderSlots slots)

/-- The texts of a list of slots. -/
def renderSlots : List Slot → List Text
  | [] => []
  | .single s :: rest => s.render :: renderSlots rest
  | .group ss :: rest => Text.bracketed (Text.commas (renderAll ss)) :: renderSlots rest

/-- The texts of a list of shapes. -/
def renderAll : List Shape → List Text
  | [] => []
  | s :: rest => s.render :: renderAll rest

end

mutual

/-- Whether the text of the shape would show a place that has no node.  The wildcard and variables
do not show their slots, and `Optional` shows its first slot only. -/
def showsHole : Shape → Bool
  | bare .hole => true
  | bare _ => false
  | applied .hole _ => true
  | applied (.plain .any _) _ => false
  | applied (.var _) _ => false
  | applied (.plain .union name) (.single first :: rest) =>
    first.showsHole || (!(name = Name.optional && rest.length = 1) && showsHoleSlots rest)
  | applied (.plain .callable _) [.single head, .group results] =>
    head.isAny || head.showsHole || showsHoleAll results
  | applied _ slots => showsHoleSlots slots

/-- Whether the texts of a list of slots would show a place that has no node. -/
@[simp] def showsHoleSlots : List Slot → Bool
  | [] => false
  | .single s :: rest => s.showsHole || showsHoleSlots rest
  | .group ss :: rest => showsHoleAll ss || showsHoleSlots rest

/-- Whether the texts of a list of shapes would show a place that has no node. -/
@[simp] def showsHoleAll : List Shape → Bool
  | [] => false
  | s :: rest => s.showsHole || showsHoleAll rest

end

end Shape

end TypeShape
