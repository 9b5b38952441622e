import RegexAlgebra.Proofs.Plans
import RegexAlgebra.Proofs.Positions

/-! # Stars of stars and negations of negations

What a second star or a second negation is answered by depends on what the rules made of the first one. An expression
and its negation are the negation of each other: one of the two has a node for it, whichever was there first. A star is
a star node or the empty word, which are stars of themselves. Only the star of any symbol is neither; it is everything,
and a star of that is stored.
-/

namespace RegexAlgebra

theorem Interval.isFull_iff {i : Interval} : i.isFull = true ↔ i = .full := by
  constructor
  · intro h
    simp only [isFull, Bool.and_eq_true, beq_iff_eq] at h
    obtain ⟨low, high⟩ := i
    obtain ⟨rfl, rfl⟩ := h
    rfl
  · rintro rfl
    decide

namespace Pool

variable {pool : Pool} {op : UnaryOp} {e a s : Expr}

/-! ## Negations -/

/-- Either the expression is the negation of the answer, or the answer is that of the expression. -/
theorem FollowsPlans.node_negate (h : pool.FollowsPlans) (hanswer : pool.answer? (.unary .negate e) = some a) :
    pool.node e = .unary .negate a ∨ pool.node a = .unary .negate e := by
  have hgives := h _ _ hanswer
  rw [plan] at hgives
  split at hgives
  · rename_i sub hn
    rw [Node.asUnary?_eq_some_iff] at hn
    have hsub : a = sub := hgives
    exact Or.inl (hsub ▸ hn)
  · exact Or.inr hgives

theorem FollowsPlans.negate_answer (h : pool.FollowsPlans) (hcanonical : pool.Canonical) (he : pool.Has e)
    (hanswer : pool.answer? (.unary .negate e) = some a) : (pool.negate a).expr = e := by
  rcases h.node_negate hanswer with hn | hn
  · have hself := hcanonical.ofNode_node he
    rw [hn] at hself
    exact congrArg Built.expr hself
  · have hplan : pool.plan (.unary .negate a) = .done e := by
      rw [plan, hn]
      rfl
    exact (h.ofNode_of_done rfl hplan).1

/-! ## Stars -/

theorem InNormalForm.plan_star_of_unary (hform : pool.InNormalForm) (hn : pool.node a = .unary op s) :
    pool.plan (.unary .star a) = if op = .star then .done a else .keep := by
  have hleaf : ¬ (a = .epsilon ∨ a = .empty) := by
    rintro (rfl | rfl)
    · simp [hform.leaves.2.1] at hn
    · simp [hform.leaves.1] at hn
  rw [plan, if_neg hleaf, hn]
  cases op <;> rfl

/-- The star of any symbol is everything, and every other star is its own star. -/
theorem FollowsPlans.star_cases (h : pool.FollowsPlans) (hform : pool.InNormalForm)
    (hanswer : pool.answer? (.unary .star e) = some a) :
    pool.node e = .range .full ∧ pool.node a = .unary .negate .empty ∨
      pool.node e ≠ .range .full ∧ pool.plan (.unary .star a) = .done a := by
  have hgives := h _ _ hanswer
  by_cases hleaf : e = .epsilon ∨ e = .empty
  · have hplan : pool.plan (.unary .star e) = .done .epsilon := if_pos hleaf
    rw [hplan] at hgives
    have ha : a = .epsilon := hgives
    refine Or.inr ⟨?_, by rw [ha, plan, if_pos (Or.inl rfl)]⟩
    rcases hleaf with rfl | rfl
    · simp [hform.leaves.2.1]
    · simp [hform.leaves.1]
  · rw [plan, if_neg hleaf] at hgives
    cases hn : pool.node e with
    | range interval =>
        rw [hn] at hgives
        cases hfull : interval.isFull with
        | true =>
            simp only [hfull, if_true] at hgives
            have hall := h _ _ hgives
            rw [plan, hform.leaves.1] at hall
            exact Or.inl ⟨by rw [Interval.isFull_iff.1 hfull], hall⟩
        | false =>
            simp only [hfull] at hgives
            refine Or.inr ⟨fun heq => ?_, hform.plan_star_of_unary hgives⟩
            cases heq
            cases hfull
    | unary op s =>
        rw [hn] at hgives
        cases op with
        | star =>
            have ha : a = e := hgives
            subst ha
            exact Or.inr ⟨by simp, hform.plan_star_of_unary hn⟩
        | negate => exact Or.inr ⟨by simp, hform.plan_star_of_unary hgives⟩
    | _ =>
        rw [hn] at hgives
        exact Or.inr ⟨by simp, hform.plan_star_of_unary hgives⟩

theorem FollowsPlans.star_answer_iff (h : pool.FollowsPlans) (hsound : pool.Sound) (hform : pool.InNormalForm)
    (hanswer : pool.answer? (.unary .star e) = some a) :
    (pool.star a).expr = a ↔ pool.node e ≠ .range .full := by
  rcases h.star_cases hform hanswer with ⟨hfull, hn⟩ | ⟨hother, hplan⟩
  · refine iff_of_false (fun heq => ?_) (not_not_intro hfull)
    have ha : pool.Has a := (hsound.answers hanswer).has
    have hops : ∀ o ∈ (Node.unary .star a).operands, pool.Has o := Node.forall_operands_unary.2 ha
    have hnode := h.node_ofNode_of_keep rfl hops (hform.plan_star_of_unary hn)
    have hext : Extends pool (pool.star a).pool := pool.extends_star a
    have hstar : (pool.star a).pool.node (pool.star a).expr = .unary .star a := hnode
    rw [heq, hext.node_eq a ha, hn] at hstar
    cases hstar
  · exact iff_of_true (h.ofNode_of_done rfl hplan).1 hother

/-! ## Pools with a history -/

/-- On every pool with a history, to negate an expression twice leads back to its handle, whatever the first negation
was and whatever is asked in between. The star of the star of an expression is that star, unless the expression is the
range of all symbols. -/
theorem unary_laws (h : pool.Reachable) (he : pool.Has e) :
    (∀ later, (pool.negate e).pool.Later later → (later.negate (pool.negate e).expr).expr = e) ∧
    ∀ later, (pool.star e).pool.Later later →
      ((later.star (pool.star e).expr).expr = (pool.star e).expr ↔ pool.node e ≠ .range .full) := by
  have hgrown : ∀ op later, (pool.unary op e).pool.Later later → pool.Grows later ∧
      later.answer? (.unary op e) = some (pool.unary op e).expr := by
    intro op later hlater
    have hsettles := unary_settles h.sound op he
    have hgrows : pool.Grows (pool.unary op e).pool := .unary op .refl he
    exact ⟨hgrows.trans (hlater.grows hsettles.sound), (hlater.remembers hsettles.sound).answer?_eq hsettles.answer?_eq⟩
  constructor
  · intro later hlater
    obtain ⟨hgrows, hanswer⟩ := hgrown .negate later hlater
    have hfollows := hgrows.followsPlans h.sound h.followsPlans
    exact hfollows.negate_answer (hgrows.canonical h.sound h.canonical) (hgrows.has h.sound he) hanswer
  · intro later hlater
    obtain ⟨hgrows, hanswer⟩ := hgrown .star later hlater
    have hfollows := hgrows.followsPlans h.sound h.followsPlans
    have hcanonical := hgrows.canonical h.sound h.canonical
    rw [← (hgrows.extends_pool h.sound).node_eq e he]
    exact hfollows.star_answer_iff (hgrows.sound h.sound) hcanonical.toInNormalForm hanswer

/-- A lower case letter is the negation of its negation, and the star of its star is that star. -/
theorem unary_laws_of_lowercase :
    ((lowercase.pool.negate lowercase.expr).pool.negate (lowercase.pool.negate lowercase.expr).expr).expr =
        lowercase.expr ∧
      ((lowercase.pool.star lowercase.expr).pool.star (lowercase.pool.star lowercase.expr).expr).expr =
        (lowercase.pool.star lowercase.expr).expr := by
  have hletter : lowercase.pool.node lowercase.expr ≠ .range .full := by
    rw [node_lowercase]
    decide
  obtain ⟨hnegate, hstar⟩ := unary_laws reachable_lowercase has_lowercase
  exact ⟨hnegate _ .refl, (hstar _ .refl).2 hletter⟩

/-- The star of any symbol has a star of its own. -/
theorem star_of_everything :
    new.dot.pool.Reachable ∧ new.dot.pool.Has new.dot.expr ∧
      ((new.dot.pool.star new.dot.expr).pool.star (new.dot.pool.star new.dot.expr).expr).expr ≠
        (new.dot.pool.star new.dot.expr).expr := by
  have hreachable := reachable_dot
  have hhas := has_dot
  refine ⟨hreachable, hhas, ?_⟩
  have hsettles := star_settles hreachable.sound hhas
  have hgrows : new.dot.pool.Grows (new.dot.pool.star new.dot.expr).pool := .unary .star .refl hhas
  have hfollows := hgrows.followsPlans hreachable.sound hreachable.followsPlans
  have hcanonical := hgrows.canonical hreachable.sound hreachable.canonical
  intro heq
  refine (hfollows.star_answer_iff hsettles.sound hcanonical.toInNormalForm hsettles.answer?_eq).1 heq ?_
  rw [hsettles.remembers.node_eq _ hhas, dot_new]
  exact new.node_store (by simp [Node.operands])

end Pool

end RegexAlgebra
