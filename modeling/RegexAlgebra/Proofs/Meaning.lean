import RegexAlgebra.Proofs.Anchors
import RegexAlgebra.Proofs.Pieces
import RegexAlgebra.Semantics.Matching

/-! # The meaning of a pool

The meaning of a request is told by the pieces that its operands match. An expression answers a request if it matches
the same pieces and brings in no anchor. A pool is sound if all its answers are right in this sense; this is the one
invariant that carries every statement about what an expression matches, since the rules, the table of answers and the
stored nodes all speak of answers.
-/

namespace RegexAlgebra.Pool

variable {pool later : Pool} {e f o : Expr} {request : Node} {input : List Char}

/-! ## Pieces that a node matches -/

/-- The pieces that a node matches, by those that its operands match. -/
def NodeMatches (pool : Pool) (input : List Char) : Node → Pieces
  | .empty => fun _ _ => False
  | .epsilon => fun i j => i = j
  | .startAnchor => fun i j => i = 0 ∧ j = 0
  | .endAnchor => fun i j => i = input.length ∧ j = input.length
  | .range interval => Pieces.Symbol input (· ∈ interval)
  | .binary op left right => op.pieces (pool.Matches input left) (pool.Matches input right)
  | .unary op sub => op.pieces (pool.Matches input sub)

theorem matches_eq (pool : Pool) (input : List Char) (e : Expr) :
    pool.Matches input e = pool.NodeMatches input (pool.node e) := by
  rw [Matches]
  split <;> rename_i hn <;> rw [hn] <;> rfl

theorem matches_of_node {n : Node} (h : pool.node e = n) : pool.Matches input e = pool.NodeMatches input n := by
  rw [matches_eq, h]

/-- What a node matches depends on the meaning of its operands alone. -/
theorem nodeMatches_congr (h : ∀ o ∈ request.operands, later.Matches input o = pool.Matches input o) :
    later.NodeMatches input request = pool.NodeMatches input request := by
  cases request with
  | binary op l r =>
      simp only [NodeMatches]
      rw [h l (by simp [Node.operands]), h r (by simp [Node.operands])]
  | unary op s =>
      simp only [NodeMatches]
      rw [h s (by simp [Node.operands])]
  | _ => rfl

theorem Extends.matches_eq (hext : Extends pool later) (he : pool.Has e) :
    later.Matches input e = pool.Matches input e := by
  induction e using operandInduction pool with
  | step e ih =>
      rw [Pool.matches_eq, Pool.matches_eq, hext.node_eq e he]
      exact nodeMatches_congr fun o ho => ih o ho (he.operand ho)

theorem Extends.nodeMatches_eq (hext : Extends pool later) (ho : ∀ o ∈ request.operands, pool.Has o) :
    later.NodeMatches input request = pool.NodeMatches input request :=
  nodeMatches_congr fun o h => hext.matches_eq (ho o h)

/-! ## Right answers -/

/-- The expression matches what the request asks for, and holds no anchor that the request does not hold. -/
structure Answers (pool : Pool) (request : Node) (e : Expr) : Prop where
  operands_has : ∀ o ∈ request.operands, pool.Has o
  has : pool.Has e
  agree : ∀ input, Pieces.Agree input (pool.Matches input e) (pool.NodeMatches input request)
  anchorFree : request.isAnchor = false → (∀ o ∈ request.operands, pool.AnchorFree o) → pool.AnchorFree e

theorem Answers.mono (h : pool.Answers request e) (hext : Extends pool later) : later.Answers request e where
  operands_has := fun o ho => hext.has (h.operands_has o ho)
  has := hext.has h.has
  agree := fun input => by
    rw [hext.matches_eq h.has, hext.nodeMatches_eq h.operands_has]
    exact h.agree input
  anchorFree := fun hleaf hops => by
    rw [hext.anchorFree_iff h.has]
    exact h.anchorFree hleaf fun o ho => (hext.anchorFree_iff (h.operands_has o ho)).1 (hops o ho)

/-- An expression answers the request for its own node. -/
theorem answers_node (he : pool.Has e) : pool.Answers (pool.node e) e where
  operands_has := fun o ho => he.operand ho
  has := he
  agree := fun input => by
    rw [matches_eq]
    exact .refl input _
  anchorFree := fun hleaf hops => anchorFree_iff.2 ⟨hleaf, hops⟩

/-! ## Sound pools -/

/-- The leaves stand in their places, every stored range has symbols, and every answer is right. -/
structure Sound (pool : Pool) : Prop where
  leaves : pool.node .empty = .empty ∧ pool.node .epsilon = .epsilon ∧
    pool.node .startAnchor = .startAnchor ∧ pool.node .endAnchor = .endAnchor
  leaves_le : 4 ≤ pool.size
  ranges : ∀ {e interval}, pool.Has e → pool.node e = .range interval → interval.isEmpty = false
  answers : ∀ {request e}, pool.answer? request = some e → pool.Answers request e

theorem sound_new : Sound new where
  leaves := ⟨rfl, rfl, rfl, rfl⟩
  leaves_le := Nat.le_refl 4
  ranges := fun {e interval} he hn => by
    have hid : e.id < 4 := he
    obtain ⟨_ | _ | _ | _ | n⟩ := e
    · cases hn
    · cases hn
    · cases hn
    · cases hn
    · simp only at hid
      omega
  answers := fun h => by simp [answer?, new] at h

namespace Sound

theorem has_empty (h : pool.Sound) : pool.Has .empty := Nat.lt_of_lt_of_le (by decide) h.leaves_le

theorem has_epsilon (h : pool.Sound) : pool.Has .epsilon := Nat.lt_of_lt_of_le (by decide) h.leaves_le

theorem has_startAnchor (h : pool.Sound) : pool.Has .startAnchor := Nat.lt_of_lt_of_le (by decide) h.leaves_le

theorem has_endAnchor (h : pool.Sound) : pool.Has .endAnchor := Nat.lt_of_lt_of_le (by decide) h.leaves_le

theorem matches_empty (h : pool.Sound) : pool.Matches input .empty = fun _ _ => False :=
  matches_of_node h.leaves.1

theorem matches_epsilon (h : pool.Sound) : pool.Matches input .epsilon = fun i j => i = j :=
  matches_of_node h.leaves.2.1

theorem anchorFree_empty (h : pool.Sound) : pool.AnchorFree .empty :=
  anchorFree_iff.2 (by simp [h.leaves.1, Node.isAnchor, Node.operands])

theorem anchorFree_epsilon (h : pool.Sound) : pool.AnchorFree .epsilon :=
  anchorFree_iff.2 (by simp [h.leaves.2.1, Node.isAnchor, Node.operands])

theorem anchorFree_ofBool (h : pool.Sound) (b : Bool) : pool.AnchorFree (.ofBool b) := by
  cases b
  · exact h.anchorFree_empty
  · exact h.anchorFree_epsilon

theorem has_ofBool (h : pool.Sound) (b : Bool) : pool.Has (.ofBool b) := by
  cases b
  · exact h.has_empty
  · exact h.has_epsilon

private theorem leaves_of_extends (h : pool.Sound) (hext : Extends pool later) :
    later.node .empty = .empty ∧ later.node .epsilon = .epsilon ∧
      later.node .startAnchor = .startAnchor ∧ later.node .endAnchor = .endAnchor := by
  rw [hext.node_eq _ h.has_empty, hext.node_eq _ h.has_epsilon, hext.node_eq _ h.has_startAnchor,
    hext.node_eq _ h.has_endAnchor]
  exact h.leaves

theorem record (h : pool.Sound) (hanswer : pool.Answers request e) : (pool.record request e).pool.Sound where
  leaves := h.leaves
  leaves_le := h.leaves_le
  ranges := h.ranges
  answers := fun {n d} hn => by
    rw [answer?_record] at hn
    split at hn
    · rename_i heq
      cases hn
      exact heq ▸ hanswer.mono (pool.extends_record request _)
    · exact (h.answers hn).mono (pool.extends_record request _)

end Sound

/-! ## Stored nodes -/

theorem has_store (ho : ∀ o ∈ request.operands, pool.Has o) :
    (pool.store request).pool.Has (pool.store request).expr := by
  unfold Has size at ho
  unfold store
  rw [dif_pos ho]
  simp [Has, size]

theorem answer?_store (ho : ∀ o ∈ request.operands, pool.Has o) (n : Node) :
    (pool.store request).pool.answer? n =
      if request = n then some (pool.store request).expr else pool.answer? n := by
  unfold Has size at ho
  unfold store
  rw [dif_pos ho]
  simp [answer?, Std.HashMap.getElem?_insert]

theorem answers_store (ho : ∀ o ∈ request.operands, pool.Has o) :
    (pool.store request).pool.Answers request (pool.store request).expr := by
  have hanswer := answers_node (has_store ho)
  rwa [pool.node_store ho] at hanswer

/-- An expression of a pool with one more node is that node or was there before. -/
theorem eq_of_has_store (he : (pool.store request).pool.Has e) (hnew : ¬ pool.Has e) :
    e = (pool.store request).expr := by
  unfold Has size store at he
  unfold Has size at hnew
  unfold store
  split at he
  · rename_i ho
    rw [dif_pos ho]
    rw [Array.size_push] at he
    exact Expr.ext_id (Nat.le_antisymm (Nat.le_of_lt_succ he) (Nat.le_of_not_lt hnew))
  · exact absurd he hnew

theorem Sound.store (h : pool.Sound) (ho : ∀ o ∈ request.operands, pool.Has o)
    (hrange : ∀ interval, request = .range interval → interval.isEmpty = false) :
    (pool.store request).pool.Sound where
  leaves := h.leaves_of_extends (pool.extends_store request)
  leaves_le := Nat.le_trans h.leaves_le (pool.size_le_size_store request)
  ranges := fun {e interval} he hn => by
    by_cases hold : pool.Has e
    · rw [pool.node_store_of_lt request hold] at hn
      exact h.ranges hold hn
    · rw [eq_of_has_store he hold, pool.node_store ho] at hn
      exact hrange interval hn
  answers := fun {n d} hn => by
    rw [answer?_store ho] at hn
    split at hn
    · rename_i heq
      cases hn
      exact heq ▸ answers_store ho
    · exact (h.answers hn).mono (pool.extends_store request)

end RegexAlgebra.Pool
