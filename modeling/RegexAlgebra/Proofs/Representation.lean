import RegexAlgebra.Proofs.Termination

/-! # How a pool represents expressions

Every pool with a history is in normal form, whether its calls succeeded or failed. So handles can stand for nodes: each
node has one handle, its operands are older, and to ask for a node that is stored gives its own handle and leaves the
pool as it is. Chains are nested to the right and ascend, hence hold no element twice.
-/

namespace RegexAlgebra

namespace Pool

variable {pool : Pool} {op : BinaryOp} {e l r : Expr}

/-! ## Chains -/

namespace InNormalForm

theorem left_isElement (h : pool.InNormalForm) (he : pool.Has e) (hn : pool.node e = .binary op l r) :
    (pool.node l).asBinary? op = none := by
  by_cases hop : op = .concat
  · subst hop
    have hnormal := h.normal e he
    rw [hn] at hnormal
    exact hnormal.2.2.2.2.1
  · exact (h.isChain hop he hn).1

/-- A chain is its head in front of the rest of the chain. -/
theorem elements_cons (h : pool.InNormalForm) (he : pool.Has e) (hn : pool.node e = .binary op l r) :
    pool.elements op e = l :: pool.elements op r := by
  rw [elements_of_chain hn, elements_of_element (h.left_isElement he hn), List.singleton_append]

theorem nodup_elements (h : pool.InNormalForm) (hop : op ≠ .concat) (he : pool.Has e) :
    (pool.elements op e).Nodup := by
  refine (h.ascending_elements hop he).1.imp fun hlt heq => ?_
  subst heq
  exact Nat.lt_irrefl _ hlt

end InNormalForm

/-! ## Stored nodes -/

namespace Canonical

/-- A node with operands or symbols is known to answer the request for itself. -/
theorem answer?_node (h : pool.Canonical) (he : pool.Has e) (hleaf : (pool.node e).isLeaf = false) :
    pool.answer? (pool.node e) = some e := by
  refine h.answered he (Nat.le_of_not_lt fun hlt => ?_)
  rw [h.isLeaf_node hlt] at hleaf
  cases hleaf

/-- To ask for a stored node gives its own handle, and leaves the pool as it is. -/
theorem ofNode_node (h : pool.Canonical) (he : pool.Has e) : pool.ofNode (pool.node e) = ⟨e, pool⟩ := by
  have hanswer := h.answer?_node he
  have hleaf : ∀ leaf : Expr, leaf.id < 4 → pool.node e = pool.node leaf → (⟨leaf, pool⟩ : Built) = ⟨e, pool⟩ :=
    fun leaf hlt hnode => by rw [h.eq_of_node he (h.has_of_leaf hlt) hnode]
  obtain ⟨h₀, h₁, h₂, h₃⟩ := h.leaves
  cases hn : pool.node e with
  | empty => exact hleaf .empty (by decide) (hn.trans h₀.symm)
  | epsilon => exact hleaf .epsilon (by decide) (hn.trans h₁.symm)
  | startAnchor => exact hleaf .startAnchor (by decide) (hn.trans h₂.symm)
  | endAnchor => exact hleaf .endAnchor (by decide) (hn.trans h₃.symm)
  | range interval =>
      rw [hn] at hanswer
      rw [ofNode, Pool.range, hanswer rfl]
  | binary op l r =>
      rw [hn] at hanswer
      rw [ofNode, Pool.binary, hanswer rfl]
  | unary op s =>
      rw [hn] at hanswer
      cases op with
      | star => rw [ofNode, unary, Pool.star, hanswer rfl]
      | negate => rw [ofNode, unary, Pool.negate, hanswer rfl]

end Canonical

/-! ## Pools with a history -/

/-- On every pool with a history, whatever its calls came to: the leaves stand in their places, no two handles have one
node, and no rule answers a stored node in another way. Operands are older than the node they stand in. A chain is its
head in front of the rest of the chain; the chains of unions and intersections ascend and hold no element twice. To ask
for a stored node gives its own handle and leaves the pool as it is, and no later call changes a node or takes one
away. -/
theorem representation_invariant (h : pool.Reachable) :
    pool.InNormalForm ∧
    (∀ e o, o ∈ (pool.node e).operands → o.id < e.id) ∧
    (∀ op e l r, pool.Has e → pool.node e = .binary op l r → pool.elements op e = l :: pool.elements op r) ∧
    (∀ op e, op ≠ .concat → pool.Has e →
      (pool.elements op e).Pairwise (·.id < ·.id) ∧ (pool.elements op e).Nodup) ∧
    (∀ e, pool.Has e → pool.ofNode (pool.node e) = ⟨e, pool⟩) ∧
    ∀ later, pool.Later later → pool.size ≤ later.size ∧ ∀ e, pool.Has e → later.node e = pool.node e := by
  have hcanonical := h.canonical
  have hform := hcanonical.toInNormalForm
  refine ⟨hform, fun e o => pool.operand_lt, fun op e l r he hn => hform.elements_cons he hn, fun op e hop he => ?_,
    fun e he => hcanonical.ofNode_node he, fun later hlater => ?_⟩
  · exact ⟨(hform.ascending_elements hop he).1, hform.nodup_elements hop he⟩
  · have hext := (hlater.remembers h.sound).toExtends
    exact ⟨hext.size_le, hext.node_eq⟩

/-- A pool with one lower case letter on which a repetition was refused and an anchor was met. -/
def refused : Pool :=
  ((Call.derivative .startAnchor 'a').run ((Call.repetition lowercase.expr 2 1).run lowercase.pool).2).2

/-- The letter is still found under its handle. -/
theorem representation_after_refusals :
    refused.Reachable ∧ refused.InNormalForm ∧ refused.range 'a' 'z' = ⟨lowercase.expr, refused⟩ := by
  -- The two calls that fail.
  have hrepetition :=
    Reachable.call (.repetition lowercase.expr 2 1) reachable_lowercase (List.forall_mem_singleton.2 has_lowercase)
  have hrefused : refused.Reachable :=
    .call (.derivative .startAnchor 'a') hrepetition (List.forall_mem_singleton.2 hrepetition.sound.has_startAnchor)
  have hlater : lowercase.pool.Later refused :=
    .call _ (.call (.repetition lowercase.expr 2 1) .refl (List.forall_mem_singleton.2 has_lowercase))
      (List.forall_mem_singleton.2 hrepetition.sound.has_startAnchor)
  have hext := (hlater.remembers reachable_lowercase.sound).toExtends
  have hnode : refused.node lowercase.expr = .range ⟨'a', 'z'⟩ := by
    rw [hext.node_eq _ has_lowercase]
    exact node_lowercase
  obtain ⟨hform, _, _, _, hself, _⟩ := representation_invariant hrefused
  have hstored := hself lowercase.expr (hext.has has_lowercase)
  rw [hnode] at hstored
  exact ⟨hrefused, hform, hstored⟩

end Pool

end RegexAlgebra
