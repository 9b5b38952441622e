import RegexAlgebra.Pool
import RegexAlgebra.Semantics.Pieces

/-!
# What an expression matches

The pieces of an input that an expression matches, read off the nodes of a pool. An anchor matches the empty piece at
one end of the input, and a negation every piece that its operand does not match; so what a part of an expression
matches depends on where in the input it stands.
-/

namespace RegexAlgebra.Pool

/-- The expression `e` matches the piece of the input from `i` to `j`. -/
def Matches (pool : Pool) (input : List Char) (e : Expr) : Pieces :=
  match _h : pool.node e with
  | .empty => fun _ _ => False
  | .epsilon => fun i j => i = j
  | .startAnchor => fun i j => i = 0 ∧ j = 0
  | .endAnchor => fun i j => i = input.length ∧ j = input.length
  | .range interval => Pieces.Symbol input (· ∈ interval)
  | .binary .union left right => fun i j => Matches pool input left i j ∨ Matches pool input right i j
  | .binary .intersect left right => fun i j => Matches pool input left i j ∧ Matches pool input right i j
  | .binary .concat left right => Pieces.Concat (Matches pool input left) (Matches pool input right)
  | .unary .star sub => Pieces.Star (Matches pool input sub)
  | .unary .negate sub => fun i j => ¬ Matches pool input sub i j
termination_by e.id
decreasing_by
  all_goals exact pool.operand_lt (by simp [_h, Node.operands])

/-- The expression `e` matches some piece of the input. -/
def Occurs (pool : Pool) (input : List Char) (e : Expr) : Prop :=
  ∃ i j, Pieces.Within input i j ∧ pool.Matches input e i j

end RegexAlgebra.Pool
