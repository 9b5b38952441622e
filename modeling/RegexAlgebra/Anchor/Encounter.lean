import RegexAlgebra.Expr.Classes

/-!
# Anchors that are met

Nullability, the derivative and the character classes have no meaning for anchors, but they do not look at all of an
expression. An anchor is an error only where the operation comes to it. What the derivative comes to does not depend on
the symbol that it is taken by.
-/

namespace RegexAlgebra

namespace Pool

/-- The operands of an operator that is done with its left operand where that is not nullable. -/
def inTurn (pool : Pool) (left right : Expr) : List Expr :=
  match pool.isNullable left with
  | .ok true => [left, right]
  | _ => [left]

/--
The operands of a node that an operation looks at.

All operations leave out the right operand of a concatenation whose left one is not nullable. Nullability does so for an
intersection as well, and leaves out the operand of a star.
-/
def visited (pool : Pool) (visitor : Visitor) : Node → List Expr
  | .binary .union left right => [left, right]
  | .binary .intersect left right => if visitor = .nullability then pool.inTurn left right else [left, right]
  | .binary .concat left right => pool.inTurn left right
  | .unary .star sub => if visitor = .nullability then [] else [sub]
  | .unary .negate sub => [sub]
  | _ => []

/-- An operation on the expression comes to an anchor. -/
inductive Meets (pool : Pool) (visitor : Visitor) : Expr → Prop
  | anchor {e : Expr} : (pool.node e).isAnchor = true → Meets pool visitor e
  | operand {e o : Expr} : o ∈ pool.visited visitor (pool.node e) → Meets pool visitor o → Meets pool visitor e

end Pool

/-- The operation that matching takes next, by the symbols that are left: the derivative by the first of them, or
nullability at the end. -/
def Visitor.next : (rest : List Char) → Visitor
  | [] => .nullability
  | _ :: _ => .derivative

end RegexAlgebra
