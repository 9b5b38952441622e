import RegexAlgebra.Expr.Nullable
import RegexAlgebra.Partition

/-!
# Character classes

The derivative of an expression takes few values. Its character classes are a partition of the alphabet on each cell of
which the derivative is one expression, so that a derivative per cell stands for a derivative per symbol.
-/

namespace RegexAlgebra.Pool

/--
The partition of the alphabet on whose cells the derivative of an expression does not change.

The right operand of a concatenation takes part only if the left one is nullable.
-/
def classes (pool : Pool) (e : Expr) : Except Error (List Interval) :=
  match _h : pool.node e with
  | .empty => .ok Partition.trivial
  | .epsilon => .ok Partition.trivial
  | .range interval => .ok interval.cells
  | .startAnchor => .error (.anchorReached .classes)
  | .endAnchor => .error (.anchorReached .classes)
  | .unary _ sub => classes pool sub
  | .binary .concat left right => do
    if ← pool.isNullable left then
      let ls ← classes pool left
      let rs ← classes pool right
      return Partition.refine ls rs
    else
      classes pool left
  | .binary _ left right => do
    let ls ← classes pool left
    let rs ← classes pool right
    return Partition.refine ls rs
termination_by e.id
decreasing_by
  all_goals exact pool.operand_lt (by simp [_h, Node.operands])

end RegexAlgebra.Pool
