import RegexAlgebra.Pool.Constructors

/-!
# Sessions on a pool

Operations that build expressions and can fail run in a *session*: they take a pool, and give a value or an error
together with the pool as it stands then. A failure does not undo anything. The nodes that were stored and the answers
that were recorded before it remain, as they are right whether the operation was finished or not.
-/

namespace RegexAlgebra

/-- A computation on a pool that can fail, and keeps the pool it has reached when it does. -/
abbrev Session := EStateM Error Pool

namespace Session

def outcome {α : Type} (session : Session α) (pool : Pool) : Except Error α × Pool :=
  match session.run pool with
  | .ok value pool => (.ok value, pool)
  | .error error pool => (.error error, pool)

/-- A constructor as a session. It does not fail. -/
def build (constructor : Pool → Built) : Session Expr := fun pool =>
  let built := constructor pool
  .ok built.expr built.pool

/-- A question about a pool as a session. It leaves the pool as it is. -/
def ask {α : Type} (question : Pool → Except Error α) : Session α := fun pool =>
  match question pool with
  | .ok value => .ok value pool
  | .error error => .error error pool

/-- A constructor that refuses some requests as a session. What it refuses leaves the pool as it is. -/
def build? (constructor : Pool → Except Error Built) : Session Expr := fun pool =>
  match constructor pool with
  | .ok built => .ok built.expr built.pool
  | .error error => .error error pool

end Session

end RegexAlgebra
