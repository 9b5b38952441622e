import RegexAlgebra.Pool

/-!
# Chains

Unions are kept as chains: the left operand of a union is no union, the right one is the rest of the chain or its last
element. The same holds of intersections. The elements of an expression under an operator are those of its chain, or the
expression alone if its node is of another kind.
-/

namespace RegexAlgebra.Pool

/-- The elements of the chain of an operator, from left to right. -/
def elements (pool : Pool) (op : BinaryOp) (e : Expr) : List Expr :=
  match _h : (pool.node e).asBinary? op with
  | some (left, right) => elements pool op left ++ elements pool op right
  | none => [e]
termination_by e.id
decreasing_by
  · exact pool.left_lt (Node.asBinary?_eq_some_iff.1 _h)
  · exact pool.right_lt (Node.asBinary?_eq_some_iff.1 _h)

/-- The first element of a chain that is nested to the right. -/
def head (pool : Pool) (op : BinaryOp) (e : Expr) : Expr :=
  match (pool.node e).asBinary? op with
  | some (left, _) => left
  | none => e

def intervals (pool : Pool) (xs : List Expr) : List Interval := xs.filterMap fun x => (pool.node x).asRange?

def others (pool : Pool) (xs : List Expr) : List Expr := xs.filter fun x => (pool.node x).asRange?.isNone

end RegexAlgebra.Pool
