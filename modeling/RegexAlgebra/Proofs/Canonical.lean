import RegexAlgebra.Proofs.NormalForms
import RegexAlgebra.Proofs.Sessions

/-! # Canonical pools

The constructors keep a pool in normal form: no two handles have one node, and no rule would have answered a stored node
in another way. That is carried by one invariant (`Canonical`), which says besides of every answer what its tree has to
do with the trees of the operands (`Formed`).
-/

namespace RegexAlgebra

namespace Pool

variable {pool later : Pool} {op : BinaryOp} {e f l r head tail : Expr} {request : Node}

/-! ## Answers in form -/

/-- What the tree of the answer to a request has to do with the trees of the operands. -/
def Formed (pool : Pool) (e : Expr) : Node → Prop
  | .range interval => pool.tree e = if interval.isEmpty then .empty else .range interval
  | .binary .concat l r => pool.AnchorFree l → pool.AnchorFree r → pool.tree e = (pool.tree l).cat (pool.tree r)
  | .binary .union l r => Tree.Joins .union (pool.tree l) (pool.tree r) (pool.tree e)
  | .binary .intersect l r => Tree.Joins .intersect (pool.tree l) (pool.tree r) (pool.tree e)
  | .unary .negate s => pool.tree e = (pool.tree s).neg
  | _ => True

theorem formed_chain (hop : op ≠ .concat) :
    pool.Formed e (.binary op l r) ↔ Tree.Joins op (pool.tree l) (pool.tree r) (pool.tree e) := by
  cases op with
  | union => rfl
  | intersect => rfl
  | concat => exact absurd rfl hop

theorem Formed.mono (h : pool.Formed e request) (hanswers : pool.Answers request e) (hext : Extends pool later) :
    later.Formed e request := by
  have he := hext.tree_eq hanswers.has
  cases request with
  | range interval => exact he.trans h
  | binary op l r =>
      have hl := hanswers.has_left
      have hr := hanswers.has_right
      by_cases hop : op = .concat
      · subst hop
        intro hfl hfr
        rw [he, hext.tree_eq hl, hext.tree_eq hr]
        exact h ((hext.anchorFree_iff hl).1 hfl) ((hext.anchorFree_iff hr).1 hfr)
      · rw [formed_chain hop] at h ⊢
        rwa [he, hext.tree_eq hl, hext.tree_eq hr]
  | unary op s =>
      cases op with
      | star => trivial
      | negate =>
          have hs := Node.forall_operands_unary.1 hanswers.operands_has
          exact he.trans (Eq.trans h (by rw [hext.tree_eq hs]))
  | _ => trivial

/-- An expression is in form for the request for its own node. -/
theorem InNormalForm.formed_node (h : pool.InNormalForm) (he : pool.Has e) : pool.Formed e (pool.node e) := by
  have hnormal := h.normal e he
  have htree := pool.tree_eq e
  cases hn : pool.node e with
  | range interval =>
      rw [hn] at hnormal htree
      have hempty : interval.isEmpty = false := hnormal
      simp [Formed, htree, nodeTree, hempty]
  | binary op l r =>
      rw [hn] at hnormal htree
      by_cases hop : op = .concat
      · subst hop
        intro _ _
        obtain ⟨hl, hr⟩ := has_of_binary hn he
        obtain ⟨hl₀, hr₀, hl₁, hr₁, hchain, _⟩ := hnormal
        rw [Tree.cat_of_isElement (isElement_tree hchain) (h.tree_ne_empty hl hl₀) (h.tree_ne_epsilon hl hl₁),
          if_neg (h.tree_ne_empty hr hr₀), if_neg (h.tree_ne_epsilon hr hr₁)]
        exact htree
      · rw [formed_chain hop, htree]
        exact Tree.joins_binary op _ _
  | unary op s =>
      cases op with
      | star => trivial
      | negate =>
          rw [hn] at hnormal htree
          refine htree.trans (Tree.neg_of_ne fun t hs => ?_).symm
          rw [Pool.tree_eq] at hs
          cases hn' : pool.node s <;> simp [hn', nodeTree] at hs
          simp [hn', hs.1, Node.asUnary?, IsNormal] at hnormal
  | _ => trivial

/-! ## What the rules say -/

theorem chainRule_cases (op : BinaryOp) (hne : e ≠ f) :
    (∃ head tail, pool.node e = .binary op head tail ∧ pool.chainRule op e f = .regroup head tail f) ∨
      (∃ tail, pool.node f = .binary op e tail ∧ pool.chainRule op e f = .done f) ∨
      (∃ head tail, pool.node f = .binary op head tail ∧ pool.chainRule op e f = .regroup head e tail) ∨
      pool.chainRule op e f = .swap ∨
      pool.IsChain op e f ∧ pool.chainRule op e f = .keep := by
  unfold chainRule
  rcases pool.chain_or op e with he | ⟨head, tail, hn⟩
  · simp only [he]
    rcases pool.chain_or op f with hf | ⟨head, tail, hn⟩
    · simp only [hf]
      by_cases hlt : f.id < e.id
      · simp [hlt]
      · have hid : e.id ≠ f.id := fun heq => hne (Expr.ext_id heq)
        simp only [if_neg hlt]
        simp [IsChain, he, head_of_element hf]
        omega
    · simp only [Node.asBinary?_eq_some_iff.2 hn]
      by_cases heq : head = e
      · exact Or.inr (Or.inl ⟨tail, heq ▸ hn, by simp [heq]⟩)
      · by_cases hlt : e.id < head.id
        · simp [heq, hlt, IsChain, he, head_of_chain hn]
        · simp [heq, hlt, hn]
  · exact Or.inl ⟨head, tail, hn, by rw [Node.asBinary?_eq_some_iff.2 hn]⟩

theorem unionRule_cases (pool : Pool) (e f : Expr) :
    pool.unionRule e f = .done e ∨ pool.unionRule e f = .done f ∨
      e ≠ f ∧ pool.IsProper e ∧ pool.IsProper f ∧
        (∀ i j, pool.node e = .range i → pool.node f = .range j →
          i.containsInterval j = false ∧ j.containsInterval i = false) ∧
        pool.unionRule e f = pool.chainRule .union e f := by
  unfold unionRule IsProper
  by_cases heq : e = f
  · simp [heq]
  by_cases he : e = .empty
  · simp [he]
  by_cases hf : f = .empty
  · simp [hf, he]
  cases hall : pool.isAll e with
  | true => simp [heq, he, hf]
  | false =>
      cases hall' : pool.isAll f with
      | true => simp [heq, he, hf]
      | false =>
          simp only [heq, he, hf, if_false, not_false_eq_true, and_self, true_and, ne_eq, Bool.false_eq_true]
          split
          · rename_i i j hi hj
            rw [Node.asRange?_eq_some_iff] at hi hj
            cases hcontains : i.containsInterval j <;> cases hcontains' : j.containsInterval i <;>
              simp [hi, hj, hcontains, hcontains']
          · rename_i hranges
            refine Or.inr (Or.inr ⟨fun i j hi hj => ?_, rfl⟩)
            exact (hranges i j (Node.asRange?_eq_some_iff.2 hi) (Node.asRange?_eq_some_iff.2 hj)).elim

theorem intersectRule_cases (pool : Pool) (e f : Expr) :
    pool.intersectRule e f = .done e ∨ pool.intersectRule e f = .done f ∨
      (∃ i j, pool.node e = .range i ∧ pool.node f = .range j ∧ pool.intersectRule e f = .range (i ∩ j)) ∨
      e ≠ f ∧ pool.IsProper e ∧ pool.IsProper f ∧
        (∀ i j, pool.node e = .range i → pool.node f ≠ .range j) ∧
        pool.intersectRule e f = pool.chainRule .intersect e f := by
  unfold intersectRule IsProper
  by_cases heq : e = f
  · simp [heq]
  by_cases he : e = .empty
  · simp [he]
  by_cases hf : f = .empty
  · simp [hf]
  cases hall : pool.isAll e with
  | true => simp [heq, he, hf]
  | false =>
      cases hall' : pool.isAll f with
      | true => simp [heq, he, hf]
      | false =>
          simp only [heq, he, hf, or_self, if_false, not_false_eq_true, and_self, true_and, ne_eq, Bool.false_eq_true]
          split
          · rename_i i j hi hj
            rw [Node.asRange?_eq_some_iff] at hi hj
            simp [hi, hj]
          · rename_i hranges
            refine Or.inr (Or.inr (Or.inr ⟨fun i j hi hj => ?_, rfl⟩))
            exact hranges i j (Node.asRange?_eq_some_iff.2 hi) (Node.asRange?_eq_some_iff.2 hj)

theorem concatRule_cases (pool : Pool) (e f : Expr) :
    (e = .empty ∨ f = .empty) ∧ pool.concatRule e f = .done .empty ∨
      e = .epsilon ∧ pool.concatRule e f = .done f ∨
      f = .epsilon ∧ pool.concatRule e f = .done e ∨
      (pool.node e = .endAnchor ∨ pool.node f = .startAnchor) ∧ pool.concatRule e f = .done .empty ∨
      (∃ head tail, pool.node e = .binary .concat head tail ∧ pool.concatRule e f = .regroup head tail f) ∨
      pool.IsNormal (.binary .concat e f) ∧ pool.concatRule e f = .keep := by
  unfold concatRule
  by_cases hempty : e = .empty ∨ f = .empty
  · simp [hempty]
  rw [if_neg hempty]
  by_cases he : e = .epsilon
  · simp [he]
  rw [if_neg he]
  by_cases hf : f = .epsilon
  · simp [hf]
  rw [if_neg hf]
  split
  · rename_i hend
    simp [hend.1]
  · rename_i hend
    split
    · rename_i hstart
      simp [hstart.1]
    · rename_i hstart
      rcases pool.chain_or .concat e with helement | ⟨head, tail, hn⟩
      · have hfar : ∀ i, pool.node e = .endAnchor → pool.node f ≠ .range i := fun i hn hi =>
          hend ⟨hn, by simp [hi, Node.asRange?]⟩
        have hfar' : ∀ i, pool.node e = .range i → pool.node f ≠ .startAnchor := fun i hi hn =>
          hstart ⟨hn, by simp [hi, Node.asRange?]⟩
        have hnormal : pool.IsNormal (.binary .concat e f) :=
          ⟨fun heq => hempty (Or.inl heq), fun heq => hempty (Or.inr heq), he, hf, helement, hfar, hfar'⟩
        simp [helement, hnormal]
      · simp only [Node.asBinary?_eq_some_iff.2 hn]
        exact Or.inr (Or.inr (Or.inr (Or.inr (Or.inl ⟨head, tail, hn, rfl⟩))))

/-! ## The rules keep the form -/

end Pool

/-- The reduction answers the request in form, provided that the requests it leads to are. -/
def Reduction.Forms (pool : Pool) (op : BinaryOp) (e f : Expr) : Reduction → Prop
  | .done answer => pool.Formed answer (.binary op e f)
  | .range interval => ∀ later answer, Pool.Extends pool later →
      later.Formed answer (.range interval) → later.Formed answer (.binary op e f)
  | .swap => ∀ (later : Pool) answer, later.Formed answer (.binary op f e) → later.Formed answer (.binary op e f)
  | .regroup first second third => ∀ later rest answer, Pool.Extends pool later →
      later.Answers (.binary op second third) rest → later.Formed rest (.binary op second third) →
        later.Formed answer (.binary op first rest) → later.Formed answer (.binary op e f)
  | .keep => pool.IsNormal (.binary op e f)

namespace Pool

variable {pool later : Pool} {op : BinaryOp} {e f a head tail : Expr} {request : Node}

private theorem forms_regroup_left (hn : pool.node e = .binary op head tail) (he : pool.Has e) :
    (Reduction.regroup head tail f).Forms pool op e f := by
  intro later rest answer hext hrest hformed hanswer
  have htree : later.tree e = .binary op (later.tree head) (later.tree tail) :=
    tree_of_node ((hext.node_eq e he).trans hn)
  by_cases hop : op = .concat
  · subst hop
    intro hfe hff
    obtain ⟨hfh, hft⟩ := (anchorFree_of_binary ((hext.node_eq e he).trans hn)).1 hfe
    rw [htree, Tree.cat_binary_concat, ← hformed hft hff]
    exact hanswer hfh (hrest.anchorFree_binary hft hff)
  · rw [formed_chain hop] at hformed hanswer ⊢
    rw [htree]
    exact .regroup_left hformed hanswer

private theorem forms_regroup_right (hop : op ≠ .concat) (hn : pool.node f = .binary op head tail) (hf : pool.Has f) :
    (Reduction.regroup head e tail).Forms pool op e f := by
  intro later rest answer hext hrest hformed hanswer
  have htree : later.tree f = .binary op (later.tree head) (later.tree tail) :=
    tree_of_node ((hext.node_eq f hf).trans hn)
  rw [formed_chain hop] at hformed hanswer ⊢
  rw [htree]
  exact .regroup_right hformed hanswer

theorem chainRule_forms (hop : op ≠ .concat) (he : pool.Has e) (hf : pool.Has f) (hne : e ≠ f)
    (hnormal : pool.IsChain op e f → pool.IsNormal (.binary op e f)) :
    (pool.chainRule op e f).Forms pool op e f := by
  rcases chainRule_cases op hne with ⟨head, tail, hn, heq⟩ | ⟨_, _, heq⟩ | ⟨head, tail, hn, heq⟩ | heq | ⟨hchain, heq⟩
    <;> rw [heq]
  · exact forms_regroup_left hn he
  · exact (formed_chain hop).2 (Tree.joins_right op _ _)
  · exact forms_regroup_right hop hn hf
  · exact fun later answer h => (formed_chain hop).2 ((formed_chain hop).1 h).symm
  · exact hnormal hchain

theorem unionRule_forms (he : pool.Has e) (hf : pool.Has f) : (pool.unionRule e f).Forms pool .union e f := by
  rcases pool.unionRule_cases e f with heq | heq | ⟨hne, hpe, hpf, hranges, heq⟩ <;> rw [heq]
  · exact Tree.joins_left _ _ _
  · exact Tree.joins_right _ _ _
  · exact chainRule_forms (by simp) he hf hne fun hchain => ⟨hpe, hpf, hchain, hranges⟩

theorem intersectRule_forms (he : pool.Has e) (hf : pool.Has f) :
    (pool.intersectRule e f).Forms pool .intersect e f := by
  rcases pool.intersectRule_cases e f with heq | heq | ⟨i, j, hi, hj, heq⟩ | ⟨hne, hpe, hpf, hranges, heq⟩ <;> rw [heq]
  · exact Tree.joins_left _ _ _
  · exact Tree.joins_right _ _ _
  · intro later answer hext hformed
    have hi' : later.tree e = .range i := tree_of_node ((hext.node_eq e he).trans hi)
    have hj' : later.tree f = .range j := tree_of_node ((hext.node_eq f hf).trans hj)
    show Tree.Joins .intersect (later.tree e) (later.tree f) (later.tree answer)
    rw [hi', hj', show later.tree answer = _ from hformed]
    exact Tree.joins_common i j
  · exact chainRule_forms (by simp) he hf hne fun hchain => ⟨hpe, hpf, hchain, hranges⟩

theorem concatRule_forms (h : pool.InNormalForm) (he : pool.Has e) (hf : pool.Has f) :
    (pool.concatRule e f).Forms pool .concat e f := by
  rcases pool.concatRule_cases e f with ⟨hempty, heq⟩ | ⟨hepsilon, heq⟩ | ⟨hepsilon, heq⟩ | ⟨hanchor, heq⟩ |
    ⟨head, tail, hn, heq⟩ | ⟨hnormal, heq⟩ <;> rw [heq]
  · intro _ _
    rcases hempty with rfl | rfl <;> simp [h.tree_empty]
  · intro _ _
    simp [hepsilon, h.tree_epsilon]
  · intro hfe _
    simp [hepsilon, h.tree_epsilon, (h.normal_tree he hfe).cat_epsilon]
  · intro hfe hff
    have hfe := (anchorFree_iff.1 hfe).1
    have hff := (anchorFree_iff.1 hff).1
    rcases hanchor with hn | hn <;> simp [hn, Node.isAnchor] at hfe hff
  · exact forms_regroup_left hn he
  · exact hnormal

theorem rule_forms (h : pool.InNormalForm) (op : BinaryOp) (he : pool.Has e) (hf : pool.Has f) :
    (pool.rule op e f).Forms pool op e f := by
  cases op with
  | union => exact unionRule_forms he hf
  | intersect => exact intersectRule_forms he hf
  | concat => exact concatRule_forms h he hf

theorem has_regroup {x y z : Expr} (h : pool.Sound) (he : pool.Has e) (hf : pool.Has f)
    (hrule : pool.rule op e f = .regroup x y z) : pool.Has x ∧ pool.Has y ∧ pool.Has z := by
  have hkeeps := rule_keeps h op he hf
  rw [hrule] at hkeeps
  exact ⟨hkeeps.1, hkeeps.2.1, hkeeps.2.2.1⟩

/-- To store a normal node keeps the form, if the node is none of those that are stored. -/
theorem InNormalForm.store (h : pool.InNormalForm) (ho : ∀ o ∈ request.operands, pool.Has o)
    (hnew : ∀ {e}, pool.Has e → pool.node e ≠ request) (hnormal : pool.IsNormal request) :
    (pool.store request).pool.InNormalForm := by
  have hext := pool.extends_store request
  have hnode : ∀ {e}, pool.Has e → (pool.store request).pool.node e = pool.node e := fun he => hext.node_eq _ he
  refine ⟨?_, Nat.le_trans h.leaves_le hext.size_le, fun e f he hf heq => ?_, fun e he => ?_⟩
  · simp only [hnode (h.has_of_leaf (show Expr.empty.id < 4 by decide)),
      hnode (h.has_of_leaf (show Expr.epsilon.id < 4 by decide)),
      hnode (h.has_of_leaf (show Expr.startAnchor.id < 4 by decide)),
      hnode (h.has_of_leaf (show Expr.endAnchor.id < 4 by decide))]
    exact h.leaves
  · by_cases hold : pool.Has e <;> by_cases hold' : pool.Has f
    · rw [hnode hold, hnode hold'] at heq
      exact h.eq_of_node hold hold' heq
    · rw [hnode hold, eq_of_has_store hf hold', pool.node_store ho] at heq
      exact absurd heq (hnew hold)
    · rw [hnode hold', eq_of_has_store he hold, pool.node_store ho] at heq
      exact absurd heq.symm (hnew hold')
    · rw [eq_of_has_store he hold, eq_of_has_store hf hold']
  · by_cases hold : pool.Has e
    · rw [hnode hold]
      exact (h.normal e hold).mono (fun o ho => hold.operand ho) hext
    · rw [eq_of_has_store he hold, pool.node_store ho]
      exact hnormal.mono ho hext

/-! ## Canonical pools -/

/-- A pool in normal form whose answers are in form. A stored node answers the request for itself. -/
structure Canonical (pool : Pool) : Prop extends InNormalForm pool where
  answered : ∀ {e}, pool.Has e → 4 ≤ e.id → pool.answer? (pool.node e) = some e
  formed : ∀ {request e}, pool.answer? request = some e → pool.Formed e request

theorem canonical_new : Canonical new where
  toInNormalForm := inNormalForm_new
  answered := fun {e} he hle => by
    have hlt : e.id < 4 := he
    omega
  formed := fun h => by simp [answer?, new] at h

namespace Canonical

theorem record (h : pool.Canonical) (hsound : pool.Sound) (hopen : pool.answer? request = none)
    (hformed : pool.Formed a request) (hanswers : (pool.record request a).pool.Answers request a) :
    (pool.record request a).pool.Canonical where
  leaves := h.leaves
  leaves_le := h.leaves_le
  injective := h.injective
  normal := fun e he => (h.normal e he).mono (fun o ho => Has.operand he ho) (pool.extends_record request a)
  answered := fun {e} he hle => by
    have hanswer := h.answered he hle
    rw [answer?_record, node_record, if_neg, hanswer]
    intro heq
    rw [heq, hanswer] at hopen
    cases hopen
  formed := fun {n d} hn => by
    have hext := pool.extends_record request a
    rw [answer?_record] at hn
    split at hn
    · rename_i heq
      cases hn
      exact heq ▸ hformed.mono (hanswers.mono ⟨Nat.le_refl _, fun _ _ => rfl⟩) hext
    · exact (h.formed hn).mono (hsound.answers hn) hext

/-- A node that was not asked for is none of those that are stored. -/
theorem node_ne (h : pool.Canonical) (hopen : pool.answer? request = none) (hleaf : request.isLeaf = false)
    (he : pool.Has e) : pool.node e ≠ request := by
  intro heq
  by_cases hlt : e.id < 4
  · rw [← heq, h.isLeaf_node hlt] at hleaf
    cases hleaf
  · rw [← heq, h.answered he (by omega)] at hopen
    cases hopen

/-- A normal node that was not asked for is stored in form. -/
theorem store (h : pool.Canonical) (hsound : pool.Sound) (hopen : pool.answer? request = none)
    (ho : ∀ o ∈ request.operands, pool.Has o) (hleaf : request.isLeaf = false)
    (hnormal : pool.IsNormal request) : (pool.store request).pool.Canonical := by
  have hext := pool.extends_store request
  have hnew : ∀ {e}, pool.Has e → pool.node e ≠ request := h.node_ne hopen hleaf
  have hform := h.toInNormalForm.store ho hnew hnormal
  refine ⟨hform, fun {e} he hle => ?_, fun {n d} hn => ?_⟩
  · rw [answer?_store ho]
    by_cases hold : pool.Has e
    · rw [hext.node_eq e hold, if_neg (hnew hold).symm]
      exact h.answered hold hle
    · rw [eq_of_has_store he hold, pool.node_store ho, if_pos rfl]
  · rw [answer?_store ho] at hn
    split at hn
    · rename_i heq
      cases hn
      subst heq
      have hformed := hform.formed_node (has_store ho)
      rwa [pool.node_store ho] at hformed
    · exact (h.formed hn).mono (hsound.answers hn) hext

/-! ## Constructors -/

theorem range (h : pool.Canonical) (hsound : pool.Sound) (low high : Char) :
    (pool.range low high).pool.Canonical := by
  have hsettles := range_settles hsound low high
  revert hsettles
  unfold Pool.range
  split
  · exact fun _ => h
  · rename_i hopen
    split
    · rename_i hempty
      exact fun hsettles => h.record hsound hopen (by simp [Formed, hempty, h.tree_empty]) hsettles.answers
    · rename_i hempty
      exact fun _ => h.store hsound hopen (by simp [Node.operands]) rfl (by simpa [IsNormal] using hempty)

theorem binary (h : pool.Canonical) (hsound : pool.Sound) (op : BinaryOp) (he : pool.Has e) (hf : pool.Has f) :
    (pool.binary op e f).pool.Canonical := by
  have hforms := rule_forms h.toInNormalForm op he hf
  have hsettles := binary_settles hsound op he hf
  revert hsettles
  fun_induction Pool.binary pool op e f with
  | case1 => exact fun _ => h
  | case2 pool e f hopen answer hrule =>
      rw [hrule] at hforms
      exact fun hsettles => h.record hsound hopen hforms hsettles.answers
  | case3 pool e f hopen interval hrule range =>
      rw [hrule] at hforms
      have hrange := range_settles hsound interval.low interval.high
      have hcanonical := h.range hsound interval.low interval.high
      refine fun hsettles => hcanonical.record hrange.sound ?_ ?_ hsettles.answers
      · rw [answer?_range_of_ne (by simp)]
        exact hopen
      · exact hforms _ _ hrange.remembers.toExtends (hcanonical.formed hrange.answer?_eq)
  | case4 pool e f hopen hrule swapped ih =>
      rw [hrule] at hforms
      have hswapped := binary_settles hsound op hf he
      have hcanonical := ih h hsound hf he (rule_forms h.toInNormalForm op hf he) hswapped
      refine fun hsettles => hcanonical.record hswapped.sound ?_ ?_ hsettles.answers
      · rw [answer?_binary_of_lt (Or.inl (swap_lt hrule))]
        exact hopen
      · exact hforms _ _ (hcanonical.formed hswapped.answer?_eq)
  | case5 pool e f hopen x y z hrule rest whole ihrest ihwhole =>
      obtain ⟨hx, hy, hz⟩ := has_regroup hsound he hf hrule
      rw [hrule] at hforms
      have hrest := binary_settles hsound op hy hz
      have hcanonical := ihrest h hsound hy hz (rule_forms h.toInNormalForm op hy hz) hrest
      have hx' := hrest.remembers.has hx
      have hr := hrest.answers.has
      have hwhole := binary_settles hrest.sound op hx' hr
      have hcanonical' := ihwhole hcanonical hrest.sound hx' hr (rule_forms hcanonical.toInNormalForm op hx' hr) hwhole
      have hext := hwhole.remembers.toExtends
      refine fun hsettles => hcanonical'.record hwhole.sound ?_ ?_ hsettles.answers
      · rw [answer?_regroup hrule]
        exact hopen
      · refine hforms _ _ _ (hrest.remembers.toExtends.trans hext) (hrest.answers.mono hext) ?_ ?_
        · exact (hcanonical.formed hrest.answer?_eq).mono hrest.answers hext
        · exact hcanonical'.formed hwhole.answer?_eq
  | case6 pool e f hopen hrule =>
      rw [hrule] at hforms
      exact fun hsettles => h.store hsound hopen hsettles.operands_has rfl hforms

theorem negate (h : pool.Canonical) (hsound : pool.Sound) (he : pool.Has e) :
    (pool.negate e).pool.Canonical := by
  have hsettles := negate_settles hsound he
  revert hsettles
  unfold Pool.negate
  split
  · exact fun _ => h
  · rename_i hopen
    split
    · rename_i sub hn
      rw [Node.asUnary?_eq_some_iff] at hn
      exact fun hsettles =>
        h.record hsound hopen (by simp [Formed, tree_of_node hn, nodeTree, Tree.neg]) hsettles.answers
    · rename_i hn
      exact fun hsettles => h.store hsound hopen hsettles.operands_has rfl hn

theorem star (h : pool.Canonical) (hsound : pool.Sound) (he : pool.Has e) : (pool.star e).pool.Canonical := by
  have hsettles := star_settles hsound he
  revert hsettles
  unfold Pool.star
  split
  · exact fun _ => h
  · rename_i hopen
    split
    · exact fun hsettles => h.record hsound hopen trivial hsettles.answers
    · rename_i hproper
      have hproper : e ≠ .empty ∧ e ≠ .epsilon := by tauto
      split
      · exact fun hsettles => h.record hsound hopen trivial hsettles.answers
      · rename_i interval hn
        split
        · have hall := negate_settles hsound hsound.has_empty
          refine fun hsettles => (h.negate hsound hsound.has_empty).record hall.sound ?_ trivial hsettles.answers
          rw [answer?_negate_of_ne (by simp)]
          exact hopen
        · rename_i hfull
          refine fun hsettles => h.store hsound hopen hsettles.operands_has rfl ⟨hproper.1, hproper.2, ?_, ?_⟩
          · simp [hn, Node.asUnary?]
          · simp only [hn, Node.range.injEq]
            rintro i rfl
            simpa using hfull
      · rename_i hstar hrange
        refine fun hsettles => h.store hsound hopen hsettles.operands_has rfl ⟨hproper.1, hproper.2, ?_, ?_⟩
        · cases hn : (pool.node e).asUnary? .star with
          | none => rfl
          | some sub => exact absurd (Node.asUnary?_eq_some_iff.1 hn) (hstar sub)
        · exact fun i hn => absurd hn (hrange i)

end Canonical

theorem Grows.canonical (hgrows : pool.Grows later) (hsound : pool.Sound) (h : pool.Canonical) : later.Canonical := by
  induction hgrows with
  | refl => exact h
  | range low high hgrows ih => exact ih.range (hgrows.sound hsound) low high
  | binary op hgrows he hf ih => exact ih.binary (hgrows.sound hsound) op he hf
  | unary op hgrows he ih =>
      cases op with
      | star => exact ih.star (hgrows.sound hsound) he
      | negate => exact ih.negate (hgrows.sound hsound) he

/-! ## Trees of answers -/

namespace Settles

variable {built : Built}

theorem joins (h : pool.Settles (.binary op e f) built) (hcanonical : built.pool.Canonical) (hop : op ≠ .concat) :
    Tree.Joins op (pool.tree e) (pool.tree f) (built.pool.tree built.expr) := by
  have hformed := (formed_chain hop).1 (hcanonical.formed h.answer?_eq)
  obtain ⟨he, hf⟩ := Node.forall_operands_binary.1 h.operands_has
  rwa [h.remembers.tree_eq he, h.remembers.tree_eq hf] at hformed

theorem tree_concat (h : pool.Settles (.binary .concat e f) built) (hcanonical : built.pool.Canonical)
    (hfe : pool.AnchorFree e) (hff : pool.AnchorFree f) :
    built.pool.tree built.expr = (pool.tree e).cat (pool.tree f) := by
  have hformed := hcanonical.formed h.answer?_eq
  obtain ⟨he, hf⟩ := Node.forall_operands_binary.1 h.operands_has
  rw [← h.remembers.tree_eq he, ← h.remembers.tree_eq hf]
  exact hformed ((h.remembers.anchorFree_iff he).2 hfe) ((h.remembers.anchorFree_iff hf).2 hff)

theorem tree_negate (h : pool.Settles (.unary .negate e) built) (hcanonical : built.pool.Canonical) :
    built.pool.tree built.expr = (pool.tree e).neg := by
  have hformed := hcanonical.formed h.answer?_eq
  rw [← h.remembers.tree_eq (Node.forall_operands_unary.1 h.operands_has)]
  exact hformed

end Settles

end Pool

end RegexAlgebra
