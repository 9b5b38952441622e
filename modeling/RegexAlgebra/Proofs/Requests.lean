import Mathlib.Data.Prod.Lex
import RegexAlgebra.Proofs.Construction
import RegexAlgebra.Proofs.NormalForms

/-! # How requests are carried out

A constructor that finds its request open may make further requests on its way, and those may make further ones. This
recursion is told here step by step: what is planned for an open request (`Pool.plan`), and which runs come of it while
others are pending (`Pool.Carries`). A run never makes a request that is still pending, since a request only leads to
lower ones, in an order that does not depend on the pool. The answer that an inner request gets may be any handle; it
only ever becomes the right operand of a request whose left operand is older. So every request is carried out, in one
way, and the constructors give what comes of it.
-/

namespace RegexAlgebra

/-- What is to be done about a request that is open. -/
inductive Plan
  | done (answer : Expr)
  | ask (request : Node)
  /-- The operator is asked for on `second` and `third`, then on `first` and the answer to that. -/
  | regroup (op : BinaryOp) (first second third : Expr)
  | keep

/-- A request for a binary node stands above those for other nodes, and above those with an older left operand, or with
the same one and an older right operand. -/
def Node.rank : Node → ℕ ×ₗ ℕ ×ₗ ℕ
  | .binary _ e f => toLex (2, toLex (e.id, f.id))
  | .unary .star _ => toLex (1, toLex (0, 0))
  | _ => toLex (0, toLex (0, 0))

theorem Node.rank_binary_lt {op op' : BinaryOp} {a b e f : Expr} :
    (binary op a b).rank < (binary op' e f).rank ↔ a.id < e.id ∨ a.id = e.id ∧ b.id < f.id := by
  simp [rank, Prod.Lex.toLex_lt_toLex]

/-- The requests that are planned come lower than the one they are planned for. -/
def Plan.Descends (request : Node) : Plan → Prop
  | .ask inner => inner.isLeaf = false ∧ inner.rank < request.rank
  | .regroup op first second third =>
    (Node.binary op second third).rank < request.rank ∧ ∀ answer, (Node.binary op first answer).rank < request.rank
  | _ => True

namespace Pool

variable {pool : Pool} {pending : List Node} {request inner : Node} {op : BinaryOp} {first second third answer : Expr}
  {built : Built}

/-- What is planned for an open request. The four leaves are not asked for. -/
def plan (pool : Pool) : Node → Plan
  | .range interval => if interval.isEmpty then .done .empty else .keep
  | .binary op e f =>
    match pool.rule op e f with
    | .done answer => .done answer
    | .range interval => .ask (.range interval)
    | .swap => .ask (.binary op f e)
    | .regroup first second third => .regroup op first second third
    | .keep => .keep
  | .unary .negate e =>
    match (pool.node e).asUnary? .negate with
    | some sub => .done sub
    | none => .keep
  | .unary .star e =>
    if e = .epsilon ∨ e = .empty then .done .epsilon
    else
      match pool.node e with
      | .unary .star _ => .done e
      | .range interval => if interval.isFull then .ask (.unary .negate .empty) else .keep
      | _ => .keep
  | _ => .keep

/-- A run carries out a request while others are pending. None of those is ever asked for again: neither by the run
itself, nor by the runs inside it, for which the request of the run is pending as well. -/
inductive Carries : List Node → Pool → Node → Built → Prop
  /-- The request was made before, and has its answer. -/
  | known {pending : List Node} {pool : Pool} {request : Node} {answer : Expr} (hnew : request ∉ pending)
      (hanswer : pool.answer? request = some answer) : Carries pending pool request ⟨answer, pool⟩
  | done {pending : List Node} {pool : Pool} {request : Node} {answer : Expr} (hnew : request ∉ pending)
      (hopen : pool.answer? request = none) (hplan : pool.plan request = .done answer) :
      Carries pending pool request (pool.record request answer)
  | ask {pending : List Node} {pool : Pool} {request inner : Node} {built : Built} (hnew : request ∉ pending)
      (hopen : pool.answer? request = none) (hplan : pool.plan request = .ask inner)
      (hinner : Carries (request :: pending) pool inner built) :
      Carries pending pool request (built.pool.record request built.expr)
  /-- Two requests are made, the second one for the answer to the first, and its answer recorded. -/
  | regroup {pending : List Node} {pool : Pool} {request : Node} {op : BinaryOp} {first second third : Expr}
      {rest whole : Built} (hnew : request ∉ pending) (hopen : pool.answer? request = none)
      (hplan : pool.plan request = .regroup op first second third)
      (hrest : Carries (request :: pending) pool (.binary op second third) rest)
      (hwhole : Carries (request :: pending) rest.pool (.binary op first rest.expr) whole) :
      Carries pending pool request (whole.pool.record request whole.expr)
  | keep {pending : List Node} {pool : Pool} {request : Node} (hnew : request ∉ pending)
      (hopen : pool.answer? request = none) (hplan : pool.plan request = .keep) :
      Carries pending pool request (pool.store request)

/-! ## Requests that lead to others -/

/-- On some pool the second request, if it is open, leads to the first one. -/
def Asks (inner request : Node) : Prop :=
  ∃ pool : Pool, pool.plan request = .ask inner ∨
    ∃ op first second third, pool.plan request = .regroup op first second third ∧
      (inner = .binary op second third ∨ ∃ answer, inner = .binary op first answer)

/-- A plan only makes requests for nodes of lower rank. For the second of two requests this is so whatever the answer
to the first one is, as its left operand is older. -/
theorem plan_descends (pool : Pool) (request : Node) : (pool.plan request).Descends request := by
  cases request with
  | range interval =>
      rw [plan]
      split <;> trivial
  | binary op e f =>
      rw [plan]
      cases hrule : pool.rule op e f with
      | range interval => exact ⟨rfl, Prod.Lex.toLex_lt_toLex.2 (Or.inl Nat.two_pos)⟩
      | swap => exact ⟨rfl, Node.rank_binary_lt.2 (Or.inl (swap_lt hrule))⟩
      | regroup first second third =>
          obtain ⟨hfirst, hrest⟩ := regroup_lt hrule
          refine ⟨Node.rank_binary_lt.2 ?_, fun answer => Node.rank_binary_lt.2 (Or.inl hfirst)⟩
          exact hrest.imp_right fun hsame => ⟨congrArg Expr.id hsame.1, hsame.2⟩
      | _ => trivial
  | unary op e =>
      cases op with
      | star =>
          have hall : (Plan.ask (.unary .negate .empty)).Descends (.unary .star e) :=
            ⟨rfl, Prod.Lex.toLex_lt_toLex.2 (Or.inl Nat.one_pos)⟩
          rw [plan]
          repeat' split
          all_goals first | exact hall | trivial
      | negate =>
          rw [plan]
          split <;> trivial
  | _ => trivial

theorem rank_lt_of_asks (h : Asks inner request) : inner.rank < request.rank := by
  obtain ⟨pool, hask | ⟨op, first, second, third, hplan, hinner⟩⟩ := h
  · have hdescends := pool.plan_descends request
    rw [hask] at hdescends
    exact hdescends.2
  · have hdescends := pool.plan_descends request
    rw [hplan] at hdescends
    obtain ⟨hrest, hwhole⟩ := hdescends
    rcases hinner with rfl | ⟨answer, rfl⟩
    · exact hrest
    · exact hwhole answer

/-- Requests that lead to one another, on whatever pools, come to an end. -/
theorem wellFounded_asks : WellFounded Asks :=
  Subrelation.wf rank_lt_of_asks (InvImage.wf Node.rank wellFounded_lt)

/-! ## Runs -/

theorem ofNode_of_known (hleaf : request.isLeaf = false) (hanswer : pool.answer? request = some answer) :
    pool.ofNode request = ⟨answer, pool⟩ := by
  cases request with
  | range interval => rw [ofNode, range, hanswer]
  | binary op e f => rw [ofNode, binary, hanswer]
  | unary op e =>
      cases op with
      | star => rw [ofNode, unary, star, hanswer]
      | negate => rw [ofNode, unary, negate, hanswer]
  | _ => cases hleaf

/-- What the constructors give for an open request, by what is planned for it. -/
def answerBy (pool : Pool) (request : Node) : Plan → Built
  | .done answer => pool.record request answer
  | .ask inner => (pool.ofNode inner).pool.record request (pool.ofNode inner).expr
  | .regroup op first second third =>
    let rest := pool.ofNode (.binary op second third)
    let whole := rest.pool.ofNode (.binary op first rest.expr)
    whole.pool.record request whole.expr
  | .keep => pool.store request

theorem ofNode_of_open (hleaf : request.isLeaf = false) (hopen : pool.answer? request = none) :
    pool.ofNode request = pool.answerBy request (pool.plan request) := by
  cases request with
  | range interval =>
      simp only [ofNode, range, hopen, plan]
      split <;> rfl
  | binary op e f =>
      rw [ofNode, binary_of_open hopen, plan]
      cases pool.rule op e f <;> rfl
  | unary op e =>
      cases op with
      | star =>
          simp only [ofNode, unary, star, hopen, plan]
          by_cases hleaf : e = .epsilon ∨ e = .empty
          · simp only [if_pos hleaf, answerBy]
          · simp only [if_neg hleaf]
            cases pool.node e with
            | range interval => cases hfull : interval.isFull <;> simp [answerBy, ofNode, unary, all, hfull]
            | unary op s => cases op <;> rfl
            | _ => rfl
      | negate =>
          simp only [ofNode, unary, negate, hopen, plan]
          cases (pool.node e).asUnary? .negate <;> rfl
  | _ => cases hleaf

/-- A run gives what the constructors give. -/
theorem Carries.eq_ofNode (h : Carries pending pool request built) (hleaf : request.isLeaf = false) :
    built = pool.ofNode request := by
  induction h with
  | known _ hanswer => exact (ofNode_of_known hleaf hanswer).symm
  | done _ hopen hplan => rw [ofNode_of_open hleaf hopen, hplan, answerBy]
  | @ask pending pool request inner built _ hopen hplan _ ih =>
      have hdescends := pool.plan_descends request
      rw [hplan] at hdescends
      rw [ofNode_of_open hleaf hopen, hplan, answerBy, ← ih hdescends.1]
  | regroup _ hopen hplan _ _ ihrest ihwhole =>
      rw [ofNode_of_open hleaf hopen, hplan, answerBy, ← ihrest rfl, ← ihwhole rfl]
  | keep _ hopen hplan => rw [ofNode_of_open hleaf hopen, hplan, answerBy]

/-- Below the requests that are pending, every request is carried out. -/
theorem carries_ofNode (hleaf : request.isLeaf = false) (hpending : ∀ waiting ∈ pending, request.rank < waiting.rank) :
    Carries pending pool request (pool.ofNode request) := by
  induction hrank : request.rank using WellFoundedLT.induction generalizing pending pool request with
  | ind rank ih =>
      subst hrank
      have hnew : request ∉ pending := fun hmem => lt_irrefl _ (hpending request hmem)
      have hinner : ∀ inner pool, inner.isLeaf = false → inner.rank < request.rank →
          Carries (request :: pending) pool inner (pool.ofNode inner) := by
        intro inner pool hleaf hlt
        refine ih inner.rank hlt hleaf ?_ rfl
        exact List.forall_mem_cons.2 ⟨hlt, fun waiting hmem => hlt.trans (hpending waiting hmem)⟩
      cases hanswer : pool.answer? request with
      | some answer =>
          rw [ofNode_of_known hleaf hanswer]
          exact .known hnew hanswer
      | none =>
          have hdescends := pool.plan_descends request
          rw [ofNode_of_open hleaf hanswer]
          cases hplan : pool.plan request with
          | done answer => exact .done hnew hanswer hplan
          | ask inner =>
              rw [hplan] at hdescends
              exact .ask hnew hanswer hplan (hinner inner pool hdescends.1 hdescends.2)
          | regroup op first second third =>
              rw [hplan] at hdescends
              exact .regroup hnew hanswer hplan (hinner _ pool rfl hdescends.1) (hinner _ _ rfl (hdescends.2 _))
          | keep => exact .keep hnew hanswer hplan

theorem carries_iff (hleaf : request.isLeaf = false) :
    Carries [] pool request built ↔ built = pool.ofNode request := by
  constructor
  · exact fun h => h.eq_ofNode hleaf
  · rintro rfl
    exact carries_ofNode hleaf (List.forall_mem_nil _)

/-- The recursion of the constructors is well-founded, whatever pools it goes through. On every pool and for all
operands each constructor therefore returns: there is a run for its request, and what comes of every run is what the
constructor gives. No request is asked for again while it is carried out. -/
theorem constructors_return :
    WellFounded Asks ∧
    ∀ pool : Pool,
      (∀ op e f built, Carries [] pool (.binary op e f) built ↔ built = pool.binary op e f) ∧
      (∀ op e built, Carries [] pool (.unary op e) built ↔ built = pool.unary op e) ∧
      ∀ low high built, Carries [] pool (.range ⟨low, high⟩) built ↔ built = pool.range low high :=
  ⟨wellFounded_asks, fun _ => ⟨fun _ _ _ _ => carries_iff rfl, fun _ _ _ => carries_iff rfl,
    fun _ _ _ => carries_iff rfl⟩⟩

end Pool

end RegexAlgebra
