import RegexAlgebra.Expr.Classes
import RegexAlgebra.Pool.Session

/-!
# Nullability in the algebra

Nothing and the empty word are closed under union and intersection. So nullability can be put together by the
constructors of the pool like any other expression, and the character classes can ask for it in this form. This is how
they are computed here, in sessions on the pool. The sessions end as the answers that are read off the nodes say, see
`RegexAlgebra.Pool.isNullable` and `RegexAlgebra.Pool.classes`.
-/

namespace RegexAlgebra.Expr

/--
The empty word if the expression matches it, nothing otherwise.

The right operand of an intersection or a concatenation is looked at only if the left one is not nothing, and the
operand of a star not at all.
-/
def nullability (e : Expr) : Session Expr := do
  let pool ← get
  match _h : pool.node e with
  | .empty => return .empty
  | .range _ => return .empty
  | .epsilon => return .epsilon
  | .startAnchor => throw (.anchorReached .nullability)
  | .endAnchor => throw (.anchorReached .nullability)
  | .binary .union left right =>
    let a ← nullability left
    let b ← nullability right
    Session.build (·.union a b)
  | .binary _ left right =>
    let a ← nullability left
    if a = .empty then
      return .empty
    else
      let b ← nullability right
      Session.build (·.intersect a b)
  | .unary .star _ => return .epsilon
  | .unary .negate sub =>
    let a ← nullability sub
    return if a = .empty then .epsilon else .empty
termination_by e.id
decreasing_by
  all_goals exact pool.operand_lt (by simp [_h, Node.operands])

/-- Whether the expression matches the empty word, by its nullability. -/
def isNullable (e : Expr) : Session Bool := do
  let nullable ← e.nullability
  return nullable = .epsilon

/--
The partition of the alphabet on whose cells the derivative of an expression does not change.

The right operand of a concatenation takes part only if the left one is nullable.
-/
def characterClasses (e : Expr) : Session (List Interval) := do
  let pool ← get
  match _h : pool.node e with
  | .empty => return Partition.trivial
  | .epsilon => return Partition.trivial
  | .range interval => return interval.cells
  | .startAnchor => throw (.anchorReached .classes)
  | .endAnchor => throw (.anchorReached .classes)
  | .unary _ sub => characterClasses sub
  | .binary .concat left right =>
    if ← left.isNullable then
      let ls ← characterClasses left
      let rs ← characterClasses right
      return Partition.refine ls rs
    else
      characterClasses left
  | .binary _ left right =>
    let ls ← characterClasses left
    let rs ← characterClasses right
    return Partition.refine ls rs
termination_by e.id
decreasing_by
  all_goals exact pool.operand_lt (by simp [_h, Node.operands])

end RegexAlgebra.Expr
