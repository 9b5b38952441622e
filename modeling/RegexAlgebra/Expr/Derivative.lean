import RegexAlgebra.Expr.Nullable

/-!
# Derivatives

The derivative of an expression by a symbol matches what is left of the words of the expression that start with that
symbol, once the symbol is read. It is built by the constructors of the pool, so it is simplified and shared like any
other expression. A word is matched by taking derivatives symbol by symbol and asking whether the last one is nullable.
-/

namespace RegexAlgebra.Expr

/--
The derivative of `e` by the symbol `c`.

For a concatenation the derivative of the right operand joins in only if the left operand is nullable.
-/
def derivative (e : Expr) (c : Char) : Session Expr := do
  let pool ← get
  match _h : pool.node e with
  | .empty => return .empty
  | .epsilon => return .empty
  | .range interval => return .ofBool (interval.contains c)
  | .startAnchor => throw (.anchorReached .derivative)
  | .endAnchor => throw (.anchorReached .derivative)
  | .binary .union left right =>
    let a ← derivative left c
    let b ← derivative right c
    Session.build (·.union a b)
  | .binary .intersect left right =>
    let a ← derivative left c
    let b ← derivative right c
    Session.build (·.intersect a b)
  | .binary .concat left right =>
    let a ← derivative left c
    let first ← Session.build (·.concat a right)
    if ← Session.ask (·.isNullable left) then
      let b ← derivative right c
      Session.build (·.union first b)
    else
      return first
  | .unary .star sub =>
    let a ← derivative sub c
    Session.build (·.concat a e)
  | .unary .negate sub =>
    let a ← derivative sub c
    Session.build (·.negate a)
termination_by e.id
decreasing_by
  all_goals exact pool.operand_lt (by simp [_h, Node.operands])

/-- What is left of `e` once the symbols of a word are read one after another. -/
def residual (e : Expr) : List Char → Session Expr
  | [] => return e
  | c :: word => do
    let d ← e.derivative c
    d.residual word

def isMatch (e : Expr) (word : List Char) : Session Bool := do
  let d ← e.residual word
  Session.ask (·.isNullable d)

end RegexAlgebra.Expr
