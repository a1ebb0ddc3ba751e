import TypeShape.Error

/-!
# Documents

A document is the tree that a declaration file holds before it is known what it declares: scalars,
sequences and mappings.  A scalar remembers whether it was quoted, because a bare word may stand
for a number, a truth value or nothing.
-/

namespace TypeShape

/-- The tree of a file of declarations, or of a value written on the command line. -/
inductive Document where
  | scalar (quoted : Bool) (content : Text)
  | seq (items : List Document)
  | map (entries : List (Document × Document))
  deriving Repr, Inhabited

namespace Document

/-- The bare words for nothing. -/
def nullWords : List Text :=
  ["", "~", "null", "Null", "NULL"].map text

/-- Whether a document is a bare word for nothing. -/
def isNull : Document → Bool
  | scalar false content => nullWords.contains content
  | _ => false

/-- The content of a scalar. -/
def scalar? : Document → Option Text
  | scalar _ content => some content
  | _ => none

/-- Whether a mapping has two scalar keys of the same content. -/
def hasRepeatedKey : List (Document × Document) → Bool
  | [] => false
  | (key, _) :: rest =>
    (match key.scalar? with
      | some name => rest.any fun (k, _) => k.scalar? == some name
      | none => false) || hasRepeatedKey rest

end Document

end TypeShape
