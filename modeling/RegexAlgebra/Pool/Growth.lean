import RegexAlgebra.Pool.Session

/-!
# Growth of pools

A pool only grows: whatever is asked of it, the nodes that were there keep their handles. This module says so for each
constructor (`Pool.Extends`), and that what a constructor gives is a handle of the grown pool.
-/

namespace RegexAlgebra.Pool

/-- `after` holds all nodes of `before`, under the same handles. -/
structure Extends (before after : Pool) : Prop where
  size_le : before.size ≤ after.size
  node_eq : ∀ e : Expr, e.id < before.size → after.node e = before.node e

def Has (pool : Pool) (e : Expr) : Prop := e.id < pool.size

namespace Extends

theorem refl (pool : Pool) : Extends pool pool := ⟨Nat.le_refl _, fun _ _ => rfl⟩

theorem trans {a b c : Pool} (hab : Extends a b) (hbc : Extends b c) : Extends a c :=
  ⟨Nat.le_trans hab.size_le hbc.size_le, fun e he =>
    (hbc.node_eq e (Nat.lt_of_lt_of_le he hab.size_le)).trans (hab.node_eq e he)⟩

theorem has {a b : Pool} (h : Extends a b) {e : Expr} (he : a.Has e) : b.Has e :=
  Nat.lt_of_lt_of_le he h.size_le

end Extends

theorem extends_record (pool : Pool) (request : Node) (answer : Expr) :
    Extends pool (pool.record request answer).pool :=
  ⟨Nat.le_refl _, fun _ _ => rfl⟩

theorem extends_store (pool : Pool) (request : Node) : Extends pool (pool.store request).pool :=
  ⟨pool.size_le_size_store request, fun _ he => pool.node_store_of_lt request he⟩

theorem extends_range (pool : Pool) (low high : Char) : Extends pool (pool.range low high).pool := by
  unfold range
  split
  · exact .refl pool
  · split
    · exact pool.extends_record _ _
    · exact pool.extends_store _

theorem extends_binary (pool : Pool) (op : BinaryOp) (e f : Expr) : Extends pool (pool.binary op e f).pool := by
  fun_induction binary pool op e f with
  | case1 => exact .refl _
  | case2 pool => exact pool.extends_record _ _
  | case3 pool _ _ _ interval => exact (pool.extends_range interval.low interval.high).trans (extends_record _ _ _)
  | case4 _ _ _ _ _ _ ih => exact ih.trans (extends_record _ _ _)
  | case5 _ _ _ _ _ _ _ _ _ _ ih ih' => exact (ih.trans ih').trans (extends_record _ _ _)
  | case6 pool => exact pool.extends_store _

theorem extends_negate (pool : Pool) (e : Expr) : Extends pool (pool.negate e).pool := by
  unfold negate
  split
  · exact .refl pool
  · split
    · exact pool.extends_record _ _
    · exact pool.extends_store _

theorem extends_star (pool : Pool) (e : Expr) : Extends pool (pool.star e).pool := by
  unfold star
  split
  · exact .refl pool
  · split
    · exact pool.extends_record _ _
    · split
      · exact pool.extends_record _ _
      · split
        · exact (pool.extends_negate .empty).trans (extends_record _ _ _)
        · exact pool.extends_store _
      · exact pool.extends_store _

end RegexAlgebra.Pool
