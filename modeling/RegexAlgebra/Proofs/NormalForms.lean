import Mathlib.Data.List.Nodup
import RegexAlgebra.Pool.NormalForm
import RegexAlgebra.Proofs.Rules
import RegexAlgebra.Proofs.Trees

/-! # Trees of a pool in normal form

In a pool in normal form handles are determined by their trees, the elements of a chain ascend, and the trees of
expressions without anchors are normal.
-/

namespace RegexAlgebra

/-- One of the nodes without operands or symbols, which every pool starts with. -/
def Node.isLeaf : Node → Bool
  | range _ => false
  | binary _ _ _ => false
  | unary _ _ => false
  | _ => true

namespace Pool

variable {pool later : Pool} {op : BinaryOp} {e f l r : Expr} {request : Node}

/-! ## Trees -/

/-- The tree of an expression. -/
def tree (pool : Pool) (e : Expr) : Tree :=
  match _h : pool.node e with
  | .empty => .empty
  | .epsilon => .epsilon
  | .startAnchor => .startAnchor
  | .endAnchor => .endAnchor
  | .range interval => .range interval
  | .binary op left right => .binary op (tree pool left) (tree pool right)
  | .unary op sub => .unary op (tree pool sub)
termination_by e.id
decreasing_by
  all_goals exact pool.operand_lt (by simp [_h, Node.operands])

/-- The tree of a node, by those of its operands. -/
def nodeTree (pool : Pool) : Node → Tree
  | .empty => .empty
  | .epsilon => .epsilon
  | .startAnchor => .startAnchor
  | .endAnchor => .endAnchor
  | .range interval => .range interval
  | .binary op left right => .binary op (pool.tree left) (pool.tree right)
  | .unary op sub => .unary op (pool.tree sub)

theorem tree_eq (pool : Pool) (e : Expr) : pool.tree e = pool.nodeTree (pool.node e) := by
  rw [tree]
  split <;> rename_i hn <;> rw [hn] <;> rfl

theorem tree_of_node {n : Node} (h : pool.node e = n) : pool.tree e = pool.nodeTree n := by
  rw [tree_eq, h]

theorem Extends.tree_eq (hext : Extends pool later) (he : pool.Has e) : later.tree e = pool.tree e := by
  induction e using operandInduction pool with
  | step e ih =>
      rw [Pool.tree_eq, Pool.tree_eq, hext.node_eq e he]
      cases hn : pool.node e with
      | binary op l r =>
          have hl : l ∈ (pool.node e).operands := by simp [hn, Node.operands]
          have hr : r ∈ (pool.node e).operands := by simp [hn, Node.operands]
          simp only [nodeTree, ih l hl (he.operand hl), ih r hr (he.operand hr)]
      | unary op s =>
          have hs : s ∈ (pool.node e).operands := by simp [hn, Node.operands]
          simp only [nodeTree, ih s hs (he.operand hs)]
      | _ => rfl

theorem isElement_tree (h : (pool.node e).asBinary? op = none) : (pool.tree e).IsElement op := by
  intro l r heq
  rw [Pool.tree_eq] at heq
  cases hn : pool.node e <;> simp [hn, nodeTree] at heq
  simp [hn, Node.asBinary?, heq.1] at h

/-! ## Chains -/

theorem elements_of_element (h : (pool.node e).asBinary? op = none) : pool.elements op e = [e] := by
  rw [elements]
  split
  · rename_i hn
    rw [hn] at h
    cases h
  · rfl

theorem elements_of_chain (hn : pool.node e = .binary op l r) :
    pool.elements op e = pool.elements op l ++ pool.elements op r := by
  rw [elements]
  split
  · rename_i hn'
    rw [Node.asBinary?_eq_some_iff, hn] at hn'
    cases hn'
    rfl
  · rename_i hn'
    rw [Node.asBinary?_eq_some_iff.2 hn] at hn'
    cases hn'

theorem head_of_chain (hn : pool.node e = .binary op l r) : pool.head op e = l := by
  simp [head, Node.asBinary?_eq_some_iff.2 hn]

theorem head_of_element (h : (pool.node e).asBinary? op = none) : pool.head op e = e := by
  simp [head, h]

theorem chain_or (pool : Pool) (op : BinaryOp) (e : Expr) :
    (pool.node e).asBinary? op = none ∨ ∃ l r, pool.node e = .binary op l r := by
  cases h : (pool.node e).asBinary? op with
  | none => exact Or.inl rfl
  | some operands => exact Or.inr ⟨operands.1, operands.2, Node.asBinary?_eq_some_iff.1 h⟩

/-- Induction along the chains of an operator. -/
@[elab_as_elim]
theorem chainInduction (pool : Pool) (op : BinaryOp) {motive : Expr → Prop}
    (element : ∀ e, (pool.node e).asBinary? op = none → motive e)
    (chain : ∀ e l r, pool.node e = .binary op l r → motive l → motive r → motive e) (e : Expr) : motive e := by
  induction e using operandInduction pool with
  | step e ih =>
      rcases pool.chain_or op e with helement | ⟨l, r, hn⟩
      · exact element e helement
      · rw [hn] at ih
        obtain ⟨ihl, ihr⟩ := Node.forall_operands_binary.1 ih
        exact chain e l r hn ihl ihr

/-- The elements of a chain have the elements of its tree for their trees. -/
theorem elements_tree (pool : Pool) (op : BinaryOp) (e : Expr) :
    (pool.tree e).elements op = (pool.elements op e).map pool.tree := by
  induction e using chainInduction pool op with
  | element e helement =>
      rw [elements_of_element helement, Tree.elements_of_isElement (isElement_tree helement)]
      rfl
  | chain e l r hn ihl ihr =>
      rw [elements_of_chain hn, List.map_append, ← ihl, ← ihr, tree_of_node hn]
      exact Tree.elements_binary

/-! ## Pools in normal form -/

namespace InNormalForm

theorem has_of_leaf (h : pool.InNormalForm) (hlt : e.id < 4) : pool.Has e := Nat.lt_of_lt_of_le hlt h.leaves_le

theorem isLeaf_node (h : pool.InNormalForm) (hlt : e.id < 4) : (pool.node e).isLeaf = true := by
  obtain ⟨h₀, h₁, h₂, h₃⟩ := h.leaves
  obtain ⟨_ | _ | _ | _ | n⟩ := e
  · exact congrArg Node.isLeaf h₀
  · exact congrArg Node.isLeaf h₁
  · exact congrArg Node.isLeaf h₂
  · exact congrArg Node.isLeaf h₃
  · simp only at hlt
    omega

theorem eq_of_node (h : pool.InNormalForm) (he : pool.Has e) (hf : pool.Has f) (hnode : pool.node e = pool.node f) :
    e = f := h.injective e f he hf hnode

theorem tree_empty (h : pool.InNormalForm) : pool.tree .empty = .empty := tree_of_node h.leaves.1

theorem tree_epsilon (h : pool.InNormalForm) : pool.tree .epsilon = .epsilon := tree_of_node h.leaves.2.1

/-- Handles are determined by their trees. -/
theorem tree_injective (h : pool.InNormalForm) (he : pool.Has e) (hf : pool.Has f)
    (htree : pool.tree e = pool.tree f) : e = f := by
  induction e using operandInduction pool generalizing f with
  | step e ih =>
      refine h.eq_of_node he hf ?_
      rw [Pool.tree_eq, Pool.tree_eq] at htree
      cases hn : pool.node e <;> cases hn' : pool.node f <;> simp [hn, hn', nodeTree] at htree
      case binary.binary op l r op' l' r' =>
        rw [hn] at ih
        obtain ⟨ihl, ihr⟩ := Node.forall_operands_binary.1 ih
        obtain ⟨hl, hr⟩ := has_of_binary hn he
        obtain ⟨hl', hr'⟩ := has_of_binary hn' hf
        rw [htree.1, ihl hl hl' htree.2.1, ihr hr hr' htree.2.2]
      case unary.unary op s op' s' =>
        have hs : pool.Has s := he.operand (by simp [hn, Node.operands])
        have hs' : pool.Has s' := hf.operand (by simp [hn', Node.operands])
        rw [htree.1, ih s (by simp [hn, Node.operands]) hs hs' htree.2]
      all_goals simp_all

theorem tree_ne_empty (h : pool.InNormalForm) (he : pool.Has e) (hne : e ≠ .empty) : pool.tree e ≠ .empty := by
  rw [← h.tree_empty]
  exact fun htree => hne (h.tree_injective he (h.has_of_leaf (by decide)) htree)

theorem tree_ne_epsilon (h : pool.InNormalForm) (he : pool.Has e) (hne : e ≠ .epsilon) :
    pool.tree e ≠ .epsilon := by
  rw [← h.tree_epsilon]
  exact fun htree => hne (h.tree_injective he (h.has_of_leaf (by decide)) htree)

theorem isChain (h : pool.InNormalForm) (hop : op ≠ .concat) (he : pool.Has e) (hn : pool.node e = .binary op l r) :
    pool.IsChain op l r := by
  have hnormal := h.normal e he
  rw [hn] at hnormal
  cases op with
  | union => exact hnormal.2.2.1
  | intersect => exact hnormal.2.2.1
  | concat => exact absurd rfl hop

/-- The elements of a chain come in ascending order, the head first. -/
theorem ascending_elements (h : pool.InNormalForm) (hop : op ≠ .concat) (he : pool.Has e) :
    (pool.elements op e).Pairwise (·.id < ·.id) ∧ ∀ x ∈ pool.elements op e, (pool.head op e).id ≤ x.id := by
  induction e using chainInduction pool op with
  | element e helement => simp [elements_of_element helement, head_of_element helement]
  | chain e l r hn _ ihr =>
      obtain ⟨hl, hlt⟩ := h.isChain hop he hn
      obtain ⟨hpairwise, hle⟩ := ihr (has_of_binary hn he).2
      rw [elements_of_chain hn, head_of_chain hn, elements_of_element hl, List.singleton_append]
      have hlt' : ∀ x ∈ pool.elements op r, l.id < x.id := fun x hx => Nat.lt_of_lt_of_le hlt (hle x hx)
      refine ⟨List.pairwise_cons.2 ⟨hlt', hpairwise⟩, fun x hx => ?_⟩
      rcases List.mem_cons.1 hx with rfl | hx
      · exact Nat.le_refl _
      · exact Nat.le_of_lt (hlt' x hx)

theorem has_elements (he : pool.Has e) : ∀ x ∈ pool.elements op e, pool.Has x := by
  induction e using chainInduction pool op with
  | element e helement => simpa [elements_of_element helement] using he
  | chain e l r hn ihl ihr =>
      obtain ⟨hl, hr⟩ := has_of_binary hn he
      rw [elements_of_chain hn]
      intro x hx
      rcases List.mem_append.1 hx with hx | hx
      · exact ihl hl x hx
      · exact ihr hr x hx

private theorem nodup_elements_tree (h : pool.InNormalForm) (hop : op ≠ .concat) (he : pool.Has e) :
    ((pool.tree e).elements op).Nodup := by
  rw [elements_tree]
  refine List.Nodup.map_on ?_ ((h.ascending_elements hop he).1.imp fun hlt heq => ?_)
  · exact fun x hx y hy htree => h.tree_injective (has_elements he x hx) (has_elements he y hy) htree
  · exact Nat.lt_irrefl _ (heq ▸ hlt)

/-- Without anchors, the tree of an expression is normal. -/
theorem normal_tree (h : pool.InNormalForm) (he : pool.Has e) (hfree : pool.AnchorFree e) :
    (pool.tree e).Normal := by
  induction e using operandInduction pool with
  | step e ih =>
      have hnormal := h.normal e he
      have hleaf := (anchorFree_iff.1 hfree).1
      have hnodup : ∀ op, op ≠ .concat → ((pool.tree e).elements op).Nodup := fun _ hop =>
        h.nodup_elements_tree hop he
      rw [Pool.tree_eq] at hnodup ⊢
      cases hn : pool.node e with
      | empty => exact .empty
      | epsilon => exact .epsilon
      | startAnchor => simp [hn, Node.isAnchor] at hleaf
      | endAnchor => simp [hn, Node.isAnchor] at hleaf
      | range interval => exact .range interval
      | binary op l r =>
          rw [hn] at ih hnormal hnodup
          obtain ⟨ihl, ihr⟩ := Node.forall_operands_binary.1 ih
          obtain ⟨hl, hr⟩ := has_of_binary hn he
          obtain ⟨hfl, hfr⟩ := (anchorFree_of_binary hn).1 hfree
          have ihl := ihl hl hfl
          have ihr := ihr hr hfr
          by_cases hop : op = .concat
          · subst hop
            obtain ⟨hl₀, hr₀, hl₁, hr₁, hchain, _⟩ := hnormal
            exact .concat ihl ihr (isElement_tree hchain) (h.tree_ne_empty hl hl₀) (h.tree_ne_epsilon hl hl₁)
              (h.tree_ne_empty hr hr₀) (h.tree_ne_epsilon hr hr₁)
          · have hchain := isElement_tree (h.isChain hop he hn).1
            have hnodup := hnodup op hop
            rw [nodeTree, Tree.elements_binary, Tree.elements_of_isElement hchain] at hnodup
            exact .chain hop ihl ihr hchain hnodup
      | unary op s =>
          rw [hn] at ih hnormal
          have hs := Node.forall_operands_unary.1 ih (he.operand (by simp [hn, Node.operands]))
            ((anchorFree_of_unary hn).1 hfree)
          cases op with
          | star => exact .star hs
          | negate =>
              refine .negate hs fun t htree => ?_
              rw [Pool.tree_eq] at htree
              cases hn' : pool.node s <;> simp [hn', nodeTree] at htree
              simp [hn', htree.1, Node.asUnary?, IsNormal] at hnormal

end InNormalForm

theorem IsNormal.mono (h : pool.IsNormal request) (ho : ∀ o ∈ request.operands, pool.Has o)
    (hext : Extends pool later) : later.IsNormal request := by
  cases request with
  | binary op l r =>
      obtain ⟨hl, hr⟩ := Node.forall_operands_binary.1 ho
      cases op <;> simpa only [IsNormal, IsProper, IsChain, isAll, head, hext.node_eq l hl, hext.node_eq r hr] using h
  | unary op s =>
      have hs := Node.forall_operands_unary.1 ho
      cases op <;> simpa only [IsNormal, hext.node_eq s hs] using h
  | _ => exact h

end Pool

end RegexAlgebra
