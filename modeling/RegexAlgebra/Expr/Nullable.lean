import RegexAlgebra.Pool.Session

/-!
# Nullability

An expression is nullable if it matches the empty word. The answer is read off the nodes and stores none. Anchors have
no meaning here, as whether they match depends on where the empty word stands: to meet one is an error.
-/

namespace RegexAlgebra.Pool

/--
Whether an expression matches the empty word.

The right operand of an intersection or a concatenation is looked at only if the left one is nullable, and the operand
of a star not at all; an anchor that stands there is not met.
-/
def isNullable (pool : Pool) (e : Expr) : Except Error Bool :=
  match _h : pool.node e with
  | .empty => .ok false
  | .range _ => .ok false
  | .epsilon => .ok true
  | .startAnchor => .error (.anchorReached .nullability)
  | .endAnchor => .error (.anchorReached .nullability)
  | .binary .union left right => do
    let a ← isNullable pool left
    let b ← isNullable pool right
    return a || b
  | .binary .intersect left right => do
    if ← isNullable pool left then isNullable pool right else return false
  | .binary .concat left right => do
    if ← isNullable pool left then isNullable pool right else return false
  | .unary .star _ => .ok true
  | .unary .negate sub => do
    let a ← isNullable pool sub
    return !a
termination_by e.id
decreasing_by
  all_goals exact pool.operand_lt (by simp [_h, Node.operands])

/-- Nullability as an expression: the empty word if the expression matches it, nothing otherwise. -/
def nullable (pool : Pool) (e : Expr) : Except Error Expr := Expr.ofBool <$> pool.isNullable e

end RegexAlgebra.Pool
