import RegexAlgebra.Automaton.Exploration
import RegexAlgebra.Pattern.Expression
import RegexAlgebra.Pool.Growth

/-!
# Histories of pools

All that can be asked of a pool, as one type of calls, and the pools that a history of calls leads to. A call only names
handles that the pool gave out. One that fails leaves a pool as well, which further calls can be made on.
-/

namespace RegexAlgebra

inductive Call
  | range (low high : Char)
  | binary (op : BinaryOp) (e f : Expr)
  | unary (op : UnaryOp) (e : Expr)
  | dot
  | all
  | opt (e : Expr)
  | repetition (e : Expr) (min max : Nat)
  | exactly (e : Expr) (count : Nat)
  | nullable (e : Expr)
  | derivative (e : Expr) (c : Char)
  | classes (e : Expr)
  | isMatch (e : Expr) (word : List Char)
  | removeAnchors (e : Expr)
  | ofPattern (pattern : Pattern)
  | automaton (e : Expr) (settings : Settings)

inductive Answer
  | expr (e : Expr)
  | truth (b : Bool)
  | cells (cells : List Interval)
  | automaton (a : Automaton)

namespace Call

def handles : Call → List Expr
  | range _ _ => []
  | binary _ e f => [e, f]
  | unary _ e => [e]
  | dot => []
  | all => []
  | opt e => [e]
  | repetition e _ _ => [e]
  | exactly e _ => [e]
  | nullable e => [e]
  | derivative e _ => [e]
  | classes e => [e]
  | isMatch e _ => [e]
  | removeAnchors e => [e]
  | ofPattern _ => []
  | automaton e _ => [e]

def perform : Call → Session Answer
  | range low high => .expr <$> Session.build (·.range low high)
  | binary op e f => .expr <$> Session.build (·.binary op e f)
  | unary op e => .expr <$> Session.build (·.unary op e)
  | dot => .expr <$> Session.build (·.dot)
  | all => .expr <$> Session.build (·.all)
  | opt e => .expr <$> Session.build (·.opt e)
  | repetition e min max => .expr <$> Session.build? (·.repeat? e min max)
  | exactly e count => .expr <$> Session.build (·.repeatExactly e count)
  | nullable e => .expr <$> Session.ask (·.nullable e)
  | derivative e c => .expr <$> e.derivative c
  | classes e => .cells <$> Session.ask (·.classes e)
  | isMatch e word => .truth <$> e.isMatch word
  | removeAnchors e => .expr <$> e.removeAnchors
  | ofPattern pattern => .expr <$> pattern.toExpr
  | automaton e settings => .automaton <$> e.automaton settings

/-- The answer to a call, or its error, and the pool behind it. -/
def run (call : Call) (pool : Pool) : Except Error Answer × Pool := call.perform.outcome pool

end Call

/-- The pools that a history of calls leads to from a new one. -/
inductive Pool.Reachable : Pool → Prop
  | new : Reachable Pool.new
  | call {pool : Pool} (call : Call) : Reachable pool → (∀ e ∈ call.handles, pool.Has e) →
      Reachable (call.run pool).2

/-- The pools that a further history of calls leads to. -/
inductive Pool.Later (pool : Pool) : Pool → Prop
  | refl : Later pool pool
  | call {later : Pool} (call : Call) : Later pool later → (∀ e ∈ call.handles, later.Has e) →
      Later pool (call.run later).2

end RegexAlgebra
