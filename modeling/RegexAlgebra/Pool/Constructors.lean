import RegexAlgebra.Error
import RegexAlgebra.Pool.Rules

/-!
# Constructors of expressions

Every constructor answers a request for a node. A request that was made before has the answer that it had then. On any
other the rules are asked first; if none applies the node is stored. Either way the answer is remembered under the
request itself, so one request has one answer for good.

A constructor may ask for other nodes on its way, and stores those. It always gives an expression; only a repetition
with inverted bounds is refused (`Pool.repeat?`).
-/

namespace RegexAlgebra.Pool

/-- One symbol from `low` to `high`. Inverted bounds give nothing. -/
def range (pool : Pool) (low high : Char) : Built :=
  match pool.answer? (.range ⟨low, high⟩) with
  | some answer => ⟨answer, pool⟩
  | none =>
    if (Interval.mk low high).isEmpty then pool.record (.range ⟨low, high⟩) .empty
    else pool.store (.range ⟨low, high⟩)

def char (pool : Pool) (c : Char) : Built := pool.range c c

def dot (pool : Pool) : Built := pool.range Symbol.first Symbol.last

/-- The answer to a request for a binary node. -/
def binary (pool : Pool) (op : BinaryOp) (e f : Expr) : Built :=
  match pool.answer? (.binary op e f) with
  | some answer => ⟨answer, pool⟩
  | none =>
    match _h : pool.rule op e f with
    | .done answer => pool.record (.binary op e f) answer
    | .range interval =>
      let range := pool.range interval.low interval.high
      range.pool.record (.binary op e f) range.expr
    | .swap =>
      let swapped := binary pool op f e
      swapped.pool.record (.binary op e f) swapped.expr
    | .regroup first second third =>
      let rest := binary pool op second third
      let whole := binary rest.pool op first rest.expr
      whole.pool.record (.binary op e f) whole.expr
    | .keep => pool.store (.binary op e f)
termination_by (e.id, f.id)
decreasing_by
  · exact Prod.Lex.left _ _ (swap_lt _h)
  · rcases (regroup_lt _h).2 with hlt | ⟨rfl, hlt⟩
    · exact Prod.Lex.left _ _ hlt
    · exact Prod.Lex.right _ hlt
  · exact Prod.Lex.left _ _ (regroup_lt _h).1

def union (pool : Pool) (e f : Expr) : Built := pool.binary .union e f

def intersect (pool : Pool) (e f : Expr) : Built := pool.binary .intersect e f

def concat (pool : Pool) (e f : Expr) : Built := pool.binary .concat e f

/-- What the operand does not match. Two negations cancel. -/
def negate (pool : Pool) (e : Expr) : Built :=
  match pool.answer? (.unary .negate e) with
  | some answer => ⟨answer, pool⟩
  | none =>
    match (pool.node e).asUnary? .negate with
    | some sub => pool.record (.unary .negate e) sub
    | none => pool.store (.unary .negate e)

/-- Every piece, as `not nothing`. -/
def all (pool : Pool) : Built := pool.negate .empty

/--
Any number of matches of the operand, one after another. The star of a star is that star, and any number of any
symbols is everything.
-/
def star (pool : Pool) (e : Expr) : Built :=
  match pool.answer? (.unary .star e) with
  | some answer => ⟨answer, pool⟩
  | none =>
    if e = .epsilon ∨ e = .empty then pool.record (.unary .star e) .epsilon
    else
      match pool.node e with
      | .unary .star _ => pool.record (.unary .star e) e
      | .range interval =>
        if interval.isFull then
          let all := pool.all
          all.pool.record (.unary .star e) all.expr
        else pool.store (.unary .star e)
      | _ => pool.store (.unary .star e)

def unary (pool : Pool) (op : UnaryOp) (e : Expr) : Built :=
  match op with
  | .star => pool.star e
  | .negate => pool.negate e

def opt (pool : Pool) (e : Expr) : Built := pool.union .epsilon e

/-- `count` times `e`, in front of `tail`. -/
def prepend (pool : Pool) (e : Expr) : (count : Nat) → (tail : Expr) → Built
  | 0, tail => ⟨tail, pool⟩
  | count + 1, tail =>
    let longer := pool.concat e tail
    prepend longer.pool e count longer.expr

def repeatExactly (pool : Pool) (e : Expr) (count : Nat) : Built :=
  pool.prepend e count .epsilon

/--
At least `min` and at most `max` times `e`: so many copies of `e`, followed by as many optional ones as lie between the
bounds. Inverted bounds are refused, and leave the pool as it is.
-/
def repeat? (pool : Pool) (e : Expr) (min max : Nat) : Except Error Built :=
  if max < min then .error (.invalidRepeat min max)
  else
    let optional := pool.opt e
    let tail := optional.pool.prepend optional.expr (max - min) .epsilon
    .ok (tail.pool.prepend e min tail.expr)

def ofNode (pool : Pool) : Node → Built
  | .empty => ⟨.empty, pool⟩
  | .epsilon => ⟨.epsilon, pool⟩
  | .startAnchor => ⟨.startAnchor, pool⟩
  | .endAnchor => ⟨.endAnchor, pool⟩
  | .range interval => pool.range interval.low interval.high
  | .binary op e f => pool.binary op e f
  | .unary op e => pool.unary op e

end RegexAlgebra.Pool
