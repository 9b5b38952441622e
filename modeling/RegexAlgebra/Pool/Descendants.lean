import RegexAlgebra.Pool
import RegexAlgebra.SortedSet

/-!
# Descendants of an expression

The expressions that an expression is made of: itself, its operands, the operands of those, and so on. Operands are
older than what they stand in, so one pass over the identifiers from the youngest to the oldest finds them all.
-/

namespace RegexAlgebra.Pool

/-- One step down from `e`. -/
def IsOperand (pool : Pool) (o e : Expr) : Prop := o ∈ (pool.node e).operands

/-- `d` is reached from `e` through operands. -/
inductive IsDescendant (pool : Pool) (e : Expr) : Expr → Prop
  | self : IsDescendant pool e e
  | operand {d o : Expr} : IsDescendant pool e d → pool.IsOperand o d → IsDescendant pool e o

/-- Adds the operands of the marked expressions among those with identifiers below `bound`, youngest first. -/
def markBelow (pool : Pool) : (bound : Nat) → (marked : SortedSet Expr) → SortedSet Expr
  | 0, marked => marked
  | bound + 1, marked =>
    let marked := if ⟨bound⟩ ∈ marked then marked.union (.ofList (pool.node ⟨bound⟩).operands) else marked
    markBelow pool bound marked

def descendants (pool : Pool) (e : Expr) : SortedSet Expr :=
  pool.markBelow (e.id + 1) (.ofList [e])

end RegexAlgebra.Pool
