import Std.Data.HashMap
import RegexAlgebra.Expr

/-!
# Pools of expressions

A pool stores the nodes of expressions, each under the identifier that says how many nodes were stored before it, and
remembers for every node that was ever *asked for* which expression answers it. Storing and remembering are the only
changes that a pool goes through, so a handle keeps its node for good. A pool takes any number of nodes: the bound on
the number of handles stands at the one loop that could ask for more without end, see `handleBound`.

The one invariant that the type carries is that operands are older than the node that refers to them
(`Pool.operand_lt`): every recursion over an expression ends for that reason. What the answers mean is a matter of the
rules, see `RegexAlgebra.Pool.Rules`.
-/

namespace RegexAlgebra

/-- Stored nodes together with the answers to all requests made so far. -/
structure Pool where
  nodes : Array Node
  answers : Std.HashMap Node Expr
  operands_lt : ∀ (i : Nat) (h : i < nodes.size), ∀ o ∈ nodes[i].operands, o.id < i

structure Built where
  expr : Expr
  pool : Pool

namespace Pool

/-- The pool that holds the four leaves without symbols, and has not been asked for anything. -/
def new : Pool where
  nodes := #[.empty, .epsilon, .startAnchor, .endAnchor]
  answers := ∅
  operands_lt := by
    intro i h o ho
    match i, h with
    | 0, _ => cases ho
    | 1, _ => cases ho
    | 2, _ => cases ho
    | 3, _ => cases ho

instance : Inhabited Pool := ⟨new⟩

def size (pool : Pool) : Nat := pool.nodes.size

/-- The node of a handle. A handle that the pool did not give out has the node of nothing. -/
def node (pool : Pool) (e : Expr) : Node := pool.nodes[e.id]?.getD .empty

/-- The expression that answers a request, if the request was made before. -/
def answer? (pool : Pool) (request : Node) : Option Expr := pool.answers[request]?

/-- Remembers `answer` as the answer to `request`, and gives it. -/
def record (pool : Pool) (request : Node) (answer : Expr) : Built :=
  ⟨answer, { pool with answers := pool.answers.insert request answer }⟩

/--
Stores a node as the answer to the request for it.

A node with an operand that the pool did not give out is not stored, and is answered by nothing. No expression of the
pool can lead to such a request.
-/
def store (pool : Pool) (request : Node) : Built :=
  if h : ∀ o ∈ request.operands, o.id < pool.nodes.size then
    ⟨⟨pool.nodes.size⟩,
      { nodes := pool.nodes.push request
        answers := pool.answers.insert request ⟨pool.nodes.size⟩
        operands_lt := by
          intro i hi o ho
          rw [Array.getElem_push] at ho
          split at ho
          · exact pool.operands_lt i _ o ho
          · rw [Array.size_push] at hi
            have hsize := h o ho
            omega }⟩
  else ⟨.empty, pool⟩

/-! ## Operands -/

/-- An operand is older than the expression it stands in. -/
theorem operand_lt (pool : Pool) {e o : Expr} (h : o ∈ (pool.node e).operands) : o.id < e.id := by
  unfold node at h
  by_cases hi : e.id < pool.nodes.size
  · rw [Array.getElem?_eq_getElem hi, Option.getD_some] at h
    exact pool.operands_lt e.id hi o h
  · rw [Array.getElem?_eq_none (Nat.le_of_not_lt hi), Option.getD_none] at h
    cases h

theorem left_lt (pool : Pool) {e l r : Expr} {op : BinaryOp} (h : pool.node e = .binary op l r) :
    l.id < e.id :=
  pool.operand_lt (by rw [h]; exact List.mem_cons_self)

theorem right_lt (pool : Pool) {e l r : Expr} {op : BinaryOp} (h : pool.node e = .binary op l r) :
    r.id < e.id :=
  pool.operand_lt (by rw [h]; exact List.mem_cons_of_mem _ List.mem_cons_self)

/-! ## What a change leaves alone -/

@[simp] theorem expr_record (pool : Pool) (request : Node) (answer : Expr) :
    (pool.record request answer).expr = answer := rfl

@[simp] theorem size_record (pool : Pool) (request : Node) (answer : Expr) :
    (pool.record request answer).pool.size = pool.size := rfl

@[simp] theorem node_record (pool : Pool) (request : Node) (answer e : Expr) :
    (pool.record request answer).pool.node e = pool.node e := rfl

theorem answer?_record (pool : Pool) (request : Node) (answer : Expr) (n : Node) :
    (pool.record request answer).pool.answer? n = if request = n then some answer else pool.answer? n := by
  simp [record, answer?, Std.HashMap.getElem?_insert]

theorem size_le_size_store (pool : Pool) (request : Node) : pool.size ≤ (pool.store request).pool.size := by
  unfold store
  split
  · simp [size]
  · exact Nat.le_refl _

/-- A stored node is the node of the handle given out for it. -/
theorem node_store (pool : Pool) {request : Node} (h : ∀ o ∈ request.operands, o.id < pool.size) :
    (pool.store request).pool.node (pool.store request).expr = request := by
  unfold size at h
  unfold store
  rw [dif_pos h]
  simp [node]

/-- A stored node changes no node that was there before. -/
theorem node_store_of_lt (pool : Pool) (request : Node) {e : Expr} (he : e.id < pool.size) :
    (pool.store request).pool.node e = pool.node e := by
  unfold store
  split
  · simp only [node]
    rw [Array.getElem?_push_lt he, Array.getElem?_eq_getElem he]
  · rfl

end Pool

end RegexAlgebra
