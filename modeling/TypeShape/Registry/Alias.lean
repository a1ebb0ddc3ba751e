import TypeShape.Registry.Basic

/-!
# Alias expansion

Aliases may refer to each other.  A pass replaces one alias after the other; passes are repeated
while they change the expression, at most once more than there are aliases.
-/

namespace TypeShape.Registry

/-- Replaces each alias once, in the order given; a replacement that makes no difference is
dropped.  The flag tells whether any made one. -/
def expandPass : Table TypeExpr → TypeExpr × Bool → TypeExpr × Bool
  | [], acc => acc
  | (name, expansion) :: rest, (t, changed) =>
    let next := TypeExpr.replaceClass name expansion t
    -- Whether there is a difference is told as the expressions are compared elsewhere, so another
    -- spelling of a union is none.
    if next.same t then expandPass rest (t, changed) else expandPass rest (next, true)

/-- Repeats the pass while it changes the expression, at most `n` times. -/
def expandPasses (aliases : Table TypeExpr) : Nat → TypeExpr → TypeExpr
  | 0, t => t
  | n + 1, t =>
    match expandPass aliases (t, false) with
    | (next, true) => expandPasses aliases n next
    | (next, false) => next

/-- The expression with its aliases replaced by what they stand for. -/
def expandAliases (r : Registry) (t : TypeExpr) : TypeExpr :=
  if r.aliases.isEmpty then t else expandPasses r.aliases (r.aliases.length + 1) t

end TypeShape.Registry
