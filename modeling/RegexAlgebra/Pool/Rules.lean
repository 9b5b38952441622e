import RegexAlgebra.Pool

/-!
# Reduction rules

Before a pool stores a node it looks for a rule that answers the request in another way. The rules keep the meaning of
the request, and lead towards a normal form:

* chains of unions and of intersections are nested to the right, ascending and free of duplicates;
* concatenations are nested to the right;
* nothing, the empty word and `not nothing` stand in no node in which they are neutral or absorbing;
* a union holds no interval next to one that contains it, and two intervals are never intersected in a node.

The rules are a heuristic: two handles can still stand for one language.

A rule looks at the two operands only, and does not change the pool. What it says is a `Reduction`, which refers to
operands of the requested node or of its operands. `Pool.regroup_lt` and `Pool.swap_lt` state that a rule asks for
smaller requests only, in the lexicographic order of the identifiers of the operands; this is why applying rules ends.
-/

namespace RegexAlgebra

/-- What a rule makes of a request for a binary node. -/
inductive Reduction
  | done (answer : Expr)
  | range (interval : Interval)
  | swap
  /-- The operator is asked for on `second` and `third`, then on `first` and the answer to that. -/
  | regroup (first second third : Expr)
  | keep
deriving DecidableEq

namespace Pool

/-- Whether an expression is `not nothing`, which matches everything. -/
def isAll (pool : Pool) (e : Expr) : Bool := (pool.node e).asUnary? .negate == some Expr.empty

/--
The order of chains. A chain on the left is taken apart; an element on the left is inserted into the chain on the
right, before the first element that is younger; two elements are put in ascending order.
-/
def chainRule (pool : Pool) (op : BinaryOp) (e f : Expr) : Reduction :=
  match (pool.node e).asBinary? op with
  | some (head, tail) => .regroup head tail f
  | none =>
    match (pool.node f).asBinary? op with
    | some (head, tail) =>
      if head = e then .done f
      else if e.id < head.id then .keep
      else .regroup head e tail
    | none => if f.id < e.id then .swap else .keep

/--
Union is idempotent, has nothing as its neutral element, and is absorbed by `not nothing`. Of two intervals one of
which contains the other, the larger remains.
-/
def unionRule (pool : Pool) (e f : Expr) : Reduction :=
  if e = f then .done e
  else if e = .empty then .done f
  else if f = .empty then .done e
  else if pool.isAll e then .done e
  else if pool.isAll f then .done f
  else
    match (pool.node e).asRange?, (pool.node f).asRange? with
    | some i, some j =>
      if i.containsInterval j then .done e
      else if j.containsInterval i then .done f
      else pool.chainRule .union e f
    | _, _ => pool.chainRule .union e f

/--
Intersection is idempotent, has `not nothing` as its neutral element, and is absorbed by nothing. Two intervals have
an interval in common.
-/
def intersectRule (pool : Pool) (e f : Expr) : Reduction :=
  if e = f then .done e
  else if e = .empty ∨ f = .empty then .done .empty
  else if pool.isAll e then .done f
  else if pool.isAll f then .done e
  else
    match (pool.node e).asRange?, (pool.node f).asRange? with
    | some i, some j => .range (i ∩ j)
    | _, _ => pool.chainRule .intersect e f

/--
Concatenation has the empty word as its neutral element, is absorbed by nothing, and is nested to the right. No symbol
follows the end of the input or precedes its start.
-/
def concatRule (pool : Pool) (e f : Expr) : Reduction :=
  if e = .empty ∨ f = .empty then .done .empty
  else if e = .epsilon then .done f
  else if f = .epsilon then .done e
  else if pool.node e = .endAnchor ∧ (pool.node f).asRange?.isSome then .done .empty
  else if pool.node f = .startAnchor ∧ (pool.node e).asRange?.isSome then .done .empty
  else
    match (pool.node e).asBinary? .concat with
    | some (head, tail) => .regroup head tail f
    | none => .keep

def rule (pool : Pool) (op : BinaryOp) (e f : Expr) : Reduction :=
  match op with
  | .union => pool.unionRule e f
  | .intersect => pool.intersectRule e f
  | .concat => pool.concatRule e f

/-! ## Rules ask for less -/

private theorem regroup_lt_of_chainRule {pool : Pool} {op : BinaryOp} {e f a b c : Expr}
    (h : pool.chainRule op e f = .regroup a b c) :
    a.id < e.id ∧ (b.id < e.id ∨ b = e ∧ c.id < f.id) := by
  unfold chainRule at h
  split at h
  · rename_i head tail hn
    cases h
    rw [Node.asBinary?_eq_some_iff] at hn
    exact ⟨pool.left_lt hn, Or.inl (pool.right_lt hn)⟩
  · split at h
    · rename_i head tail hn
      split at h
      · cases h
      · rename_i hne
        split at h
        · cases h
        · cases h
          rw [Node.asBinary?_eq_some_iff] at hn
          have hid : a.id ≠ e.id := fun heq => hne (Expr.ext_id heq)
          exact ⟨by omega, Or.inr ⟨rfl, pool.right_lt hn⟩⟩
    · split at h <;> cases h

private theorem swap_lt_of_chainRule {pool : Pool} {op : BinaryOp} {e f : Expr}
    (h : pool.chainRule op e f = .swap) : f.id < e.id := by
  unfold chainRule at h
  split at h
  · cases h
  · split at h
    · split at h
      · cases h
      · split at h <;> cases h
    · split at h
      · assumption
      · cases h

private theorem unionRule_eq (pool : Pool) (e f : Expr) :
    (∃ a, pool.unionRule e f = .done a) ∨ pool.unionRule e f = pool.chainRule .union e f := by
  unfold unionRule
  repeat' split
  all_goals simp only [Reduction.done.injEq, exists_eq', true_or, or_true]

private theorem intersectRule_eq (pool : Pool) (e f : Expr) :
    (∃ a, pool.intersectRule e f = .done a) ∨ (∃ i, pool.intersectRule e f = .range i) ∨
      pool.intersectRule e f = pool.chainRule .intersect e f := by
  unfold intersectRule
  repeat' split
  all_goals simp only [Reduction.done.injEq, Reduction.range.injEq, exists_eq', true_or, or_true]

private theorem concatRule_eq (pool : Pool) (e f : Expr) :
    (∃ a, pool.concatRule e f = .done a) ∨ pool.concatRule e f = .keep ∨
      ∃ a b, pool.node e = .binary .concat a b ∧ pool.concatRule e f = .regroup a b f := by
  unfold concatRule
  repeat' split
  all_goals simp_all only [Reduction.done.injEq, Node.asBinary?_eq_some_iff, exists_eq', true_or, or_true]
  exact Or.inr (Or.inr ⟨_, _, rfl, rfl⟩)

/-- A regrouped request has an older left operand, inside and outside, or the same one and an older right operand. -/
theorem regroup_lt {pool : Pool} {op : BinaryOp} {e f a b c : Expr}
    (h : pool.rule op e f = .regroup a b c) :
    a.id < e.id ∧ (b.id < e.id ∨ b = e ∧ c.id < f.id) := by
  cases op with
  | union =>
    rcases pool.unionRule_eq e f with ⟨_, heq⟩ | heq
    · cases heq.symm.trans h
    · exact regroup_lt_of_chainRule (heq.symm.trans h)
  | intersect =>
    rcases pool.intersectRule_eq e f with ⟨_, heq⟩ | ⟨_, heq⟩ | heq
    · cases heq.symm.trans h
    · cases heq.symm.trans h
    · exact regroup_lt_of_chainRule (heq.symm.trans h)
  | concat =>
    rcases pool.concatRule_eq e f with ⟨_, heq⟩ | heq | ⟨_, _, hn, heq⟩
    · cases heq.symm.trans h
    · cases heq.symm.trans h
    · cases heq.symm.trans h
      exact ⟨pool.left_lt hn, Or.inl (pool.right_lt hn)⟩

/-- Operands are exchanged only if the left one is younger. -/
theorem swap_lt {pool : Pool} {op : BinaryOp} {e f : Expr} (h : pool.rule op e f = .swap) :
    f.id < e.id := by
  cases op with
  | union =>
    rcases pool.unionRule_eq e f with ⟨_, heq⟩ | heq
    · cases heq.symm.trans h
    · exact swap_lt_of_chainRule (heq.symm.trans h)
  | intersect =>
    rcases pool.intersectRule_eq e f with ⟨_, heq⟩ | ⟨_, heq⟩ | heq
    · cases heq.symm.trans h
    · cases heq.symm.trans h
    · exact swap_lt_of_chainRule (heq.symm.trans h)
  | concat =>
    rcases pool.concatRule_eq e f with ⟨_, heq⟩ | heq | ⟨_, _, _, heq⟩ <;> cases heq.symm.trans h

end Pool

end RegexAlgebra
