import TypeShape.Expr.Basic

/-!
# Printing type expressions

`render` writes an expression the way the reader takes it, `key` writes it with every detail that
tells two expressions apart: the bounds and constraints of variables, the `Optional` spelling, and
metadata, under one-letter tags.  Both are one structural pass.
-/

namespace TypeShape.TypeExpr

mutual

/-- The expression as it is written.  A callable without result has the result `Any`, and the
type of an omitted type is the bare `Type`. -/
def render : TypeExpr → Text
  | omitted => text "<nil>"
  | con name => name
  | app head args =>
    if args.isEmpty then head else head ++ Text.bracketed (Text.commas (renderAll args))
  | var name _ _ => name
  | union members optional =>
    match optional, renderAll members with
    | true, [t, _] => Name.optional ++ Text.bracketed t
    | _, ts => Name.union ++ Text.bracketed (Text.commas ts)
  | callable params result ellipsis =>
    let ret := if result.isOmitted then Name.any else result.render
    if ellipsis then Name.callable ++ Text.bracketed (text "..., " ++ ret)
    else Name.callable ++
      Text.bracketed (Text.bracketed (Text.commas (renderAll params)) ++ text ", " ++ ret)
  | typeOf operand =>
    if operand.isOmitted then Name.typeOf else Name.typeOf ++ Text.bracketed operand.render
  | annotated inner metadata =>
    Name.annotated ++ Text.bracketed (Text.commas (inner.render :: metadata.map Quoted.quote))
  | literal values =>
    Name.literal ++ Text.bracketed (Text.commas (values.map Literal.render))

/-- The members of a list of expressions as they are written. -/
def renderAll : List TypeExpr → List Text
  | [] => []
  | t :: ts => t.render :: renderAll ts

end

mutual

/-- Whether nothing is omitted where `render` needs an expression. -/
def isComplete : TypeExpr → Bool
  | omitted => false
  | con _ => true
  | app _ args => areComplete args
  | var _ _ _ => true
  | union members optional =>
    match optional, members with
    | true, [t, _] => t.isComplete
    | _, ms => areComplete ms
  | callable params result ellipsis =>
    (result.isOmitted || result.isComplete) && (ellipsis || areComplete params)
  | typeOf operand => operand.isOmitted || operand.isComplete
  | annotated inner _ => inner.isComplete
  | literal _ => true

/-- Whether every member of a list is complete. -/
def areComplete : List TypeExpr → Bool
  | [] => true
  | t :: ts => t.isComplete && areComplete ts

end

/-- An expression inside a message, where an omitted one is marked as such. -/
def display (t : TypeExpr) : Text :=
  if t.isOmitted then text "%!s(<nil>)"
  else if t.isComplete then t.render
  else text "%!s(PANIC=String method: runtime error: invalid memory address or nil pointer dereference)"

/-- Keys in brackets. -/
def keyList (keys : List Text) : Text :=
  Text.bracketed (Text.join (text ",") keys)

mutual

/-- The expression with every detail that distinguishes it, for use as a key. -/
def key : TypeExpr → Text
  | omitted => text "<nil>"
  | con name => name
  | app head args => head ++ keyList (keyAll args)
  | var name bound constraints =>
    text "~" ++ name ++
      if bound.isOmitted && constraints.isEmpty then []
      else text "<" ++ (if bound.isOmitted then [] else bound.key) ++ keyAlternatives constraints ++
        text ">"
  | union members optional => text (if optional then "?U" else "U") ++ keyList (keyAll members)
  | callable params result ellipsis =>
    text "F" ++ (if ellipsis then text "[...]" else keyList (keyAll params)) ++ text "->" ++ result.key
  | typeOf operand => text "T" ++ Text.bracketed operand.key
  | annotated inner metadata =>
    text "A" ++ Text.bracketed (inner.key ++ text ";" ++
      Text.bracketed (Text.join (text " ") (metadata.map Quoted.quote)))
  | literal values =>
    Name.literal ++ Text.bracketed (Text.commas (values.map Literal.render))

/-- The keys of a list of expressions, each after a bar. -/
def keyAlternatives : List TypeExpr → Text
  | [] => []
  | t :: ts => text "|" ++ t.key ++ keyAlternatives ts

/-- The keys of a list of expressions, one by one. -/
def keyAll : List TypeExpr → List Text
  | [] => []
  | t :: ts => t.key :: keyAll ts

end

end TypeShape.TypeExpr
