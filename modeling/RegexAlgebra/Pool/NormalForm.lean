import RegexAlgebra.Pool.Chains
import RegexAlgebra.Pool.Constructors

/-!
# Normal form of pools

What holds of the nodes of every pool that was built by its constructors: no two handles have one node, and no node is
one that a rule would have answered in another way.
-/

namespace RegexAlgebra.Pool

/-- Neither nothing nor everything, which a chain has no use for. -/
def IsProper (pool : Pool) (e : Expr) : Prop := e ≠ .empty ∧ pool.isAll e = false

/-- The left operand is an element that comes before the chain on the right. -/
def IsChain (pool : Pool) (op : BinaryOp) (left right : Expr) : Prop :=
  (pool.node left).asBinary? op = none ∧ left.id < (pool.head op right).id

/-- A node that no rule answers in another way. -/
def IsNormal (pool : Pool) : Node → Prop
  | .range interval => interval.isEmpty = false
  | .binary .union left right =>
    pool.IsProper left ∧ pool.IsProper right ∧ pool.IsChain .union left right ∧
      ∀ i j, pool.node left = .range i → pool.node right = .range j →
        i.containsInterval j = false ∧ j.containsInterval i = false
  | .binary .intersect left right =>
    pool.IsProper left ∧ pool.IsProper right ∧ pool.IsChain .intersect left right ∧
      ∀ i j, pool.node left = .range i → pool.node right ≠ .range j
  | .binary .concat left right =>
    left ≠ .empty ∧ right ≠ .empty ∧ left ≠ .epsilon ∧ right ≠ .epsilon ∧
      (pool.node left).asBinary? .concat = none ∧
      (∀ i, pool.node left = .endAnchor → pool.node right ≠ .range i) ∧
      ∀ i, pool.node left = .range i → pool.node right ≠ .startAnchor
  | .unary .star sub =>
    sub ≠ .empty ∧ sub ≠ .epsilon ∧ (pool.node sub).asUnary? .star = none ∧
      ∀ i, pool.node sub = .range i → i.isFull = false
  | .unary .negate sub => (pool.node sub).asUnary? .negate = none
  | _ => True

/-- The normal form of a pool. -/
structure InNormalForm (pool : Pool) : Prop where
  leaves : pool.node .empty = .empty ∧ pool.node .epsilon = .epsilon ∧
    pool.node .startAnchor = .startAnchor ∧ pool.node .endAnchor = .endAnchor
  leaves_le : 4 ≤ pool.size
  injective : ∀ e f : Expr, e.id < pool.size → f.id < pool.size → pool.node e = pool.node f → e = f
  normal : ∀ e : Expr, e.id < pool.size → pool.IsNormal (pool.node e)

private theorem new_node_injective :
    ∀ i < 4, ∀ j < 4, new.node ⟨i⟩ = new.node ⟨j⟩ → i = j := by decide

theorem inNormalForm_new : InNormalForm new where
  leaves := ⟨rfl, rfl, rfl, rfl⟩
  leaves_le := Nat.le_refl 4
  injective := fun e f he hf h => Expr.ext_id (new_node_injective e.id he f.id hf h)
  normal := by
    rintro ⟨i⟩ hi
    have hi : i < 4 := hi
    have hcases : i = 0 ∨ i = 1 ∨ i = 2 ∨ i = 3 := by omega
    rcases hcases with rfl | rfl | rfl | rfl <;> trivial

end RegexAlgebra.Pool
