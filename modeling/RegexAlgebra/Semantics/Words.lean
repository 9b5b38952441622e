import Mathlib.Computability.Language
import RegexAlgebra.Pool

/-!
# The language of an expression

The words of an expression without anchors, by the operations on languages. Anchors have no words of their own; an
expression that holds one is given the words that it has where the anchor never matches.
-/

namespace RegexAlgebra.Pool

/-- The words of an expression. -/
noncomputable def language (pool : Pool) (e : Expr) : Language Char :=
  match _h : pool.node e with
  | .empty => 0
  | .epsilon => 1
  | .startAnchor => 0
  | .endAnchor => 0
  | .range interval => {word | ∃ c, c ∈ interval ∧ word = [c]}
  | .binary .union left right => language pool left + language pool right
  | .binary .intersect left right => {word | word ∈ language pool left ∧ word ∈ language pool right}
  | .binary .concat left right => language pool left * language pool right
  | .unary .star sub => KStar.kstar (language pool sub)
  | .unary .negate sub => {word | word ∉ language pool sub}
termination_by e.id
decreasing_by
  all_goals exact pool.operand_lt (by simp [_h, Node.operands])

end RegexAlgebra.Pool
