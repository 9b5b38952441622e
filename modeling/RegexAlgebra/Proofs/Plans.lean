import RegexAlgebra.Proofs.Representation
import RegexAlgebra.Proofs.Requests

/-! # Answers follow the plans

What is planned for a request depends on the nodes of its operands alone, so it is the same on every later pool. The
answer that a pool has recorded is therefore still the one that the plan for the request gives, by the answers that the
pool has recorded for the requests on the way: the table of answers can be read off the rules, whatever was asked before
and in whatever order.

Where the plan is an expression that is there already, a constructor thus gives this very expression on every pool with
a history, and stores nothing.
-/

namespace RegexAlgebra

open Pool

/-- The answer is what the plan gives, by what the pool has recorded for the requests that the plan makes. -/
def Plan.Gives (pool : Pool) (request : Node) (answer : Expr) : Plan → Prop
  | .done known => answer = known
  | .ask inner => pool.answer? inner = some answer
  | .regroup op first second third => ∃ rest, pool.answer? (.binary op second third) = some rest ∧
      pool.answer? (.binary op first rest) = some answer
  | .keep => pool.node answer = request

/-- The requests of a plan are about handles of the pool. -/
def Plan.Within (pool : Pool) : Plan → Prop
  | .ask inner => ∀ o ∈ inner.operands, pool.Has o
  | .regroup _ first second third => pool.Has first ∧ pool.Has second ∧ pool.Has third
  | _ => True

theorem Plan.Gives.mono {pool later : Pool} {request : Node} {answer : Expr} {plan : Plan}
    (h : plan.Gives pool request answer) (hremembers : Remembers pool later) (ha : pool.Has answer) :
    plan.Gives later request answer := by
  cases plan with
  | done known => exact h
  | ask inner => exact hremembers.answer?_eq h
  | regroup op first second third =>
      obtain ⟨rest, hrest, hwhole⟩ := h
      exact ⟨rest, hremembers.answer?_eq hrest, hremembers.answer?_eq hwhole⟩
  | keep => exact (hremembers.node_eq answer ha).trans h

namespace Pool

variable {pool later : Pool} {pending : List Node} {request inner : Node} {op : BinaryOp} {e f answer : Expr}
  {built : Built}

/-- Each recorded answer is what the plan for the request gives. -/
def FollowsPlans (pool : Pool) : Prop :=
  ∀ request answer, pool.answer? request = some answer → (pool.plan request).Gives pool request answer

/-! ## Plans on later pools -/

theorem Extends.rule_eq (hext : Extends pool later) (op : BinaryOp) (he : pool.Has e) (hf : pool.Has f) :
    later.rule op e f = pool.rule op e f := by
  cases op <;>
    simp only [rule, unionRule, intersectRule, concatRule, chainRule, isAll, hext.node_eq e he, hext.node_eq f hf] <;>
    rfl

theorem Extends.plan_eq (hext : Extends pool later) (ho : ∀ o ∈ request.operands, pool.Has o) :
    later.plan request = pool.plan request := by
  cases request with
  | binary op e f =>
      obtain ⟨he, hf⟩ := Node.forall_operands_binary.1 ho
      rw [plan, plan, hext.rule_eq op he hf]
  | unary op e =>
      have he := hext.node_eq e (Node.forall_operands_unary.1 ho)
      cases op with
      | star => rw [plan, plan, he]
      | negate => rw [plan, plan, he]
  | _ => rfl

namespace FollowsPlans

/-- It is enough to look at the answers that are new. -/
theorem extend (h : pool.FollowsPlans) (hsound : pool.Sound) (hremembers : Remembers pool later)
    (hnew : ∀ {n a}, later.answer? n = some a → pool.answer? n = some a ∨ (later.plan n).Gives later n a) :
    later.FollowsPlans := by
  intro n a hanswer
  rcases hnew hanswer with hold | hnew
  · have hanswers := hsound.answers hold
    rw [hremembers.plan_eq hanswers.operands_has]
    exact (h n a hold).mono hremembers hanswers.has
  · exact hnew

theorem record (h : pool.FollowsPlans) (hsound : pool.Sound) (hopen : pool.answer? request = none)
    (ho : ∀ o ∈ request.operands, pool.Has o) (ha : pool.Has answer)
    (hgives : (pool.plan request).Gives pool request answer) : (pool.record request answer).pool.FollowsPlans := by
  have hremembers := remembers_record hopen answer
  refine h.extend hsound hremembers fun {n a} hrecorded => ?_
  rw [answer?_record] at hrecorded
  split at hrecorded
  · rename_i heq
    subst heq
    cases hrecorded
    rw [hremembers.plan_eq ho]
    exact Or.inr (hgives.mono hremembers ha)
  · exact Or.inl hrecorded

theorem store (h : pool.FollowsPlans) (hsound : pool.Sound) (hopen : pool.answer? request = none)
    (ho : ∀ o ∈ request.operands, pool.Has o) (hplan : pool.plan request = .keep) :
    (pool.store request).pool.FollowsPlans := by
  have hremembers := remembers_store hopen
  refine h.extend hsound hremembers fun {n a} hrecorded => ?_
  rw [answer?_store ho] at hrecorded
  split at hrecorded
  · rename_i heq
    subst heq
    cases hrecorded
    rw [hremembers.plan_eq ho, hplan]
    exact Or.inr (pool.node_store ho)
  · exact Or.inl hrecorded

end FollowsPlans

/-! ## Runs -/

/-- A run leaves the requests that are pending as they are. -/
theorem Carries.answer?_of_pending (h : Carries pending pool request built) {waiting : Node}
    (hmem : waiting ∈ pending) : built.pool.answer? waiting = pool.answer? waiting := by
  have hne : ∀ {request : Node} {pending : List Node}, request ∉ pending → waiting ∈ pending → request ≠ waiting :=
    fun hnew hmem heq => hnew (heq ▸ hmem)
  induction h with
  | known => rfl
  | done hnew => rw [answer?_record, if_neg (hne hnew hmem)]
  | ask hnew _ _ _ ih => rw [answer?_record, if_neg (hne hnew hmem), ih (List.mem_cons_of_mem _ hmem)]
  | regroup hnew _ _ _ _ ihrest ihwhole =>
      rw [answer?_record, if_neg (hne hnew hmem), ihwhole (List.mem_cons_of_mem _ hmem),
        ihrest (List.mem_cons_of_mem _ hmem)]
  | keep hnew => exact answer?_store_of_ne (hne hnew hmem)

theorem ofNode_settles (h : pool.Sound) (hleaf : request.isLeaf = false) (ho : ∀ o ∈ request.operands, pool.Has o) :
    pool.Settles request (pool.ofNode request) := by
  cases request with
  | range interval => exact range_settles h interval.low interval.high
  | binary op e f =>
      obtain ⟨he, hf⟩ := Node.forall_operands_binary.1 ho
      exact binary_settles h op he hf
  | unary op e => exact unary_settles h op (Node.forall_operands_unary.1 ho)
  | _ => cases hleaf

theorem Carries.settles (h : Carries pending pool request built) (hsound : pool.Sound)
    (hleaf : request.isLeaf = false) (ho : ∀ o ∈ request.operands, pool.Has o) : pool.Settles request built :=
  h.eq_ofNode hleaf ▸ ofNode_settles hsound hleaf ho

theorem plan_within (hsound : pool.Sound) (ho : ∀ o ∈ request.operands, pool.Has o) :
    (pool.plan request).Within pool := by
  cases request with
  | range interval =>
      rw [plan]
      split <;> trivial
  | binary op e f =>
      obtain ⟨he, hf⟩ := Node.forall_operands_binary.1 ho
      rw [plan]
      cases hrule : pool.rule op e f with
      | range interval => exact List.forall_mem_nil _
      | swap => exact Node.forall_operands_binary.2 ⟨hf, he⟩
      | regroup first second third => exact has_regroup hsound he hf hrule
      | _ => trivial
  | unary op e =>
      have hall : (Plan.ask (.unary .negate .empty)).Within pool := Node.forall_operands_unary.2 hsound.has_empty
      cases op with
      | star =>
          rw [plan]
          repeat' split
          all_goals first | exact hall | trivial
      | negate =>
          rw [plan]
          split <;> trivial
  | _ => trivial

theorem Carries.followsPlans (h : Carries pending pool request built) (hsound : pool.Sound)
    (hleaf : request.isLeaf = false) (ho : ∀ o ∈ request.operands, pool.Has o) (hfollows : pool.FollowsPlans) :
    built.pool.FollowsPlans := by
  have hwithin := plan_within hsound ho
  have hsettles := h.settles hsound hleaf ho
  induction h with
  | known => exact hfollows
  | @done _ pool request answer _ hopen hplan =>
      exact hfollows.record hsound hopen ho hsettles.answers.has (by rw [hplan]; rfl)
  | @ask _ pool request inner built _ hopen hplan hinner ih =>
      have hdescends := pool.plan_descends request
      rw [hplan] at hdescends hwithin
      have hbuilt := hinner.settles hsound hdescends.1 hwithin
      have hext := hbuilt.remembers.toExtends
      refine (ih hsound hdescends.1 hwithin hfollows (plan_within hsound hwithin) hbuilt).record hbuilt.sound ?_
        (fun o h => hext.has (ho o h)) hbuilt.answers.has ?_
      · rw [hinner.answer?_of_pending List.mem_cons_self, hopen]
      · rw [hext.plan_eq ho, hplan]
        exact hbuilt.answer?_eq
  | @regroup _ pool request op first second third rest whole _ hopen hplan hrest hwhole ihrest ihwhole =>
      rw [hplan] at hwithin
      obtain ⟨hx, hy, hz⟩ := hwithin
      have hops : ∀ o ∈ (Node.binary op second third).operands, pool.Has o := Node.forall_operands_binary.2 ⟨hy, hz⟩
      have hinner := hrest.settles hsound rfl hops
      have hops' : ∀ o ∈ (Node.binary op first rest.expr).operands, rest.pool.Has o :=
        Node.forall_operands_binary.2 ⟨hinner.remembers.has hx, hinner.answers.has⟩
      have houter := hwhole.settles hinner.sound rfl hops'
      have hremembers := hinner.remembers.trans houter.remembers
      have hmiddle := ihrest hsound rfl hops hfollows (plan_within hsound hops) hinner
      refine (ihwhole hinner.sound rfl hops' hmiddle (plan_within hinner.sound hops') houter).record houter.sound ?_
        (fun o h => hremembers.has (ho o h)) houter.answers.has ?_
      · rw [hwhole.answer?_of_pending List.mem_cons_self, hrest.answer?_of_pending List.mem_cons_self, hopen]
      · rw [hremembers.plan_eq ho, hplan]
        exact ⟨rest.expr, houter.remembers.answer?_eq hinner.answer?_eq, houter.answer?_eq⟩
  | keep _ hopen hplan => exact hfollows.store hsound hopen ho hplan

/-! ## Pools with a history -/

theorem FollowsPlans.ofNode (h : pool.FollowsPlans) (hsound : pool.Sound) (hleaf : request.isLeaf = false)
    (ho : ∀ o ∈ request.operands, pool.Has o) : (pool.ofNode request).pool.FollowsPlans :=
  (carries_ofNode hleaf (List.forall_mem_nil _)).followsPlans hsound hleaf ho h

theorem Grows.followsPlans (hgrows : pool.Grows later) (hsound : pool.Sound) (h : pool.FollowsPlans) :
    later.FollowsPlans := by
  induction hgrows with
  | refl => exact h
  | @range middle low high hgrows ih =>
      have hops : ∀ o ∈ (Node.range ⟨low, high⟩).operands, middle.Has o := List.forall_mem_nil _
      exact ih.ofNode (hgrows.sound hsound) rfl hops
  | binary op hgrows he hf ih =>
      exact ih.ofNode (hgrows.sound hsound) rfl (Node.forall_operands_binary.2 ⟨he, hf⟩)
  | unary op hgrows he ih => exact ih.ofNode (hgrows.sound hsound) rfl (Node.forall_operands_unary.2 he)

theorem Reachable.followsPlans (h : pool.Reachable) : pool.FollowsPlans := by
  induction h with
  | new =>
      intro request answer hanswer
      rw [answer?_new] at hanswer
      cases hanswer
  | call call hreachable he ih => exact (call.grows_run hreachable.sound he).followsPlans hreachable.sound ih

namespace FollowsPlans

/-- A request for what is there already is answered by it, and no node is stored. -/
theorem ofNode_of_done (h : pool.FollowsPlans) (hleaf : request.isLeaf = false)
    (hplan : pool.plan request = .done answer) :
    (pool.ofNode request).expr = answer ∧ (pool.ofNode request).pool.nodes = pool.nodes := by
  cases hanswer : pool.answer? request with
  | some known =>
      have hgives := h request known hanswer
      rw [hplan] at hgives
      rw [ofNode_of_known hleaf hanswer]
      exact ⟨hgives, rfl⟩
  | none =>
      rw [ofNode_of_open hleaf hanswer, hplan]
      exact ⟨rfl, rfl⟩

/-- A request for a node that no rule answers in another way is answered by that node. -/
theorem node_ofNode_of_keep (h : pool.FollowsPlans) (hleaf : request.isLeaf = false)
    (ho : ∀ o ∈ request.operands, pool.Has o) (hplan : pool.plan request = .keep) :
    (pool.ofNode request).pool.node (pool.ofNode request).expr = request := by
  cases hanswer : pool.answer? request with
  | some known =>
      have hgives := h request known hanswer
      rw [hplan] at hgives
      rw [ofNode_of_known hleaf hanswer]
      exact hgives
  | none =>
      rw [ofNode_of_open hleaf hanswer, hplan]
      exact pool.node_store ho

theorem binary_of_done (h : pool.FollowsPlans) (hrule : pool.rule op e f = .done answer) :
    (pool.binary op e f).expr = answer ∧ (pool.binary op e f).pool.nodes = pool.nodes := by
  have hplan : pool.plan (.binary op e f) = .done answer := by rw [plan, hrule]
  exact h.ofNode_of_done rfl hplan

end FollowsPlans

end Pool

end RegexAlgebra
