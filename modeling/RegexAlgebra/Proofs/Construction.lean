import RegexAlgebra.Pool.Constructors
import RegexAlgebra.Proofs.Rules

/-! # What a constructor does

Every constructor settles its request: it leaves a sound pool that still has all nodes and answers of the old one, and
gives a right answer. From then on the request is answered at once by the same expression, in whatever pool the present
one grows into.
-/

namespace RegexAlgebra

theorem Interval.mem_of_isFull {i : Interval} (h : i.isFull = true) {c : Char} : c ∈ i := by
  simp only [isFull, Bool.and_eq_true, beq_iff_eq] at h
  exact ⟨h.1 ▸ Symbol.first_le c, h.2 ▸ Symbol.le_last c⟩

namespace Pool

variable {pool middle later : Pool} {op : BinaryOp} {e f a b : Expr} {request : Node} {input : List Char}

/-! ## Requests that are open -/

theorem answer?_new (request : Node) : new.answer? request = none := by simp [answer?, new]

theorem range_of_open {low high : Char} (hopen : pool.answer? (.range ⟨low, high⟩) = none)
    (hempty : (Interval.mk low high).isEmpty = false) : pool.range low high = pool.store (.range ⟨low, high⟩) := by
  rw [range, hopen, hempty]
  rfl

theorem negate_of_open (hopen : pool.answer? (.unary .negate e) = none)
    (hn : (pool.node e).asUnary? .negate = none) : pool.negate e = pool.store (.unary .negate e) := by
  rw [negate, hopen]
  simp only [hn]

theorem star_of_open {interval : Interval} (hopen : pool.answer? (.unary .star e) = none)
    (hn : pool.node e = .range interval) (hfull : interval.isFull = false) (hne : ¬ (e = .epsilon ∨ e = .empty)) :
    pool.star e = pool.store (.unary .star e) := by
  rw [star, hopen]
  simp only [if_neg hne, hn, hfull]
  rfl

theorem binary_of_open (hopen : pool.answer? (.binary op e f) = none) :
    pool.binary op e f =
      match pool.rule op e f with
      | .done answer => pool.record (.binary op e f) answer
      | .range interval =>
        (pool.range interval.low interval.high).pool.record (.binary op e f)
          (pool.range interval.low interval.high).expr
      | .swap => (pool.binary op f e).pool.record (.binary op e f) (pool.binary op f e).expr
      | .regroup first second third =>
        let rest := pool.binary op second third
        let whole := rest.pool.binary op first rest.expr
        whole.pool.record (.binary op e f) whole.expr
      | .keep => pool.store (.binary op e f) := by
  rw [binary]
  simp only [hopen]
  split <;> rename_i hrule <;> simp only [hrule]

/-! ## Pools that remember -/

/-- All nodes and all answers of one pool are those of a later one. -/
structure Remembers (before after : Pool) : Prop extends Extends before after where
  answer?_eq : ∀ {request e}, before.answer? request = some e → after.answer? request = some e

namespace Remembers

theorem refl (pool : Pool) : Remembers pool pool := ⟨.refl pool, id⟩

theorem trans (h : Remembers pool middle) (h' : Remembers middle later) : Remembers pool later :=
  ⟨h.toExtends.trans h'.toExtends, fun hanswer => h'.answer?_eq (h.answer?_eq hanswer)⟩

end Remembers

theorem remembers_record (h : pool.answer? request = none) (e : Expr) :
    Remembers pool (pool.record request e).pool := by
  refine ⟨pool.extends_record request e, fun {n d} hanswer => ?_⟩
  have hne : request ≠ n := by
    intro heq
    subst heq
    rw [h] at hanswer
    cases hanswer
  rw [answer?_record, if_neg hne]
  exact hanswer

theorem answer?_store_of_ne {n : Node} (hne : request ≠ n) :
    (pool.store request).pool.answer? n = pool.answer? n := by
  unfold store
  split
  · simp [answer?, Std.HashMap.getElem?_insert, hne]
  · rfl

theorem remembers_store (h : pool.answer? request = none) : Remembers pool (pool.store request).pool := by
  refine ⟨pool.extends_store request, fun {n d} hanswer => ?_⟩
  have hne : request ≠ n := by
    intro heq
    subst heq
    rw [h] at hanswer
    cases hanswer
  rw [answer?_store_of_ne hne]
  exact hanswer

/-! ## Settled requests -/

/-- The request has a right answer in a sound pool that remembers the one before, and is known there. -/
structure Settles (pool : Pool) (request : Node) (built : Built) : Prop where
  operands_has : ∀ o ∈ request.operands, pool.Has o
  remembers : Remembers pool built.pool
  sound : built.pool.Sound
  answers : built.pool.Answers request built.expr
  answer?_eq : built.pool.answer? request = some built.expr

theorem settles_answer (h : pool.Sound) (hanswer : pool.answer? request = some e) :
    pool.Settles request ⟨e, pool⟩ where
  operands_has := (h.answers hanswer).operands_has
  remembers := .refl pool
  sound := h
  answers := h.answers hanswer
  answer?_eq := hanswer

/-- To record the answer that other requests led to settles a request that they have left open. -/
theorem settles_record (ho : ∀ o ∈ request.operands, pool.Has o) (hremembers : Remembers pool middle)
    (h : middle.Sound) (hopen : middle.answer? request = none) (hanswers : middle.Answers request e) :
    pool.Settles request (middle.record request e) where
  operands_has := ho
  remembers := hremembers.trans (remembers_record hopen e)
  sound := h.record hanswers
  answers := hanswers.mono (middle.extends_record request e)
  answer?_eq := by rw [answer?_record, if_pos rfl]; rfl

theorem settles_store (h : pool.Sound) (hopen : pool.answer? request = none)
    (ho : ∀ o ∈ request.operands, pool.Has o)
    (hrange : ∀ interval, request = .range interval → interval.isEmpty = false) :
    pool.Settles request (pool.store request) where
  operands_has := ho
  remembers := remembers_store hopen
  sound := h.store ho hrange
  answers := answers_store ho
  answer?_eq := by rw [answer?_store ho, if_pos rfl]

/-! ## Ranges -/

private theorem answers_inverted_range {interval : Interval} (h : pool.Sound) (hempty : interval.isEmpty = true) :
    pool.Answers (.range interval) .empty where
  operands_has := by simp [Node.operands]
  has := h.has_empty
  agree := fun input i j _ => by
    rw [h.matches_empty]
    refine iff_of_false not_false ?_
    intro hparts
    obtain ⟨_, c, _, hlow, hhigh⟩ := hparts
    rw [Interval.isEmpty_iff, Symbol.lt_iff_position_lt] at hempty
    rw [Symbol.le_iff_position_le] at hlow hhigh
    omega
  anchorFree := fun _ _ => h.anchorFree_empty

theorem range_settles (h : pool.Sound) (low high : Char) :
    pool.Settles (.range ⟨low, high⟩) (pool.range low high) := by
  have hops : ∀ o ∈ (Node.range ⟨low, high⟩).operands, pool.Has o := by simp [Node.operands]
  unfold range
  split
  · rename_i hanswer
    exact settles_answer h hanswer
  · rename_i hopen
    split
    · rename_i hempty
      exact settles_record hops (.refl pool) h hopen (answers_inverted_range h hempty)
    · rename_i hnonempty
      refine settles_store h hopen hops fun interval heq => ?_
      cases heq
      simpa using hnonempty

theorem answer?_range_of_ne {low high : Char} (hne : request ≠ .range ⟨low, high⟩) :
    (pool.range low high).pool.answer? request = pool.answer? request := by
  unfold range
  split
  · rfl
  · split
    · rw [answer?_record, if_neg hne.symm]
    · exact answer?_store_of_ne hne.symm

/-! ## Binary operators -/

/-- A request leaves those of the same operator open that come after it in the order of the operands. -/
theorem answer?_binary_of_lt (h : e.id < a.id ∨ e.id = a.id ∧ f.id < b.id) :
    (pool.binary op e f).pool.answer? (.binary op a b) = pool.answer? (.binary op a b) := by
  have hne : ∀ {op e f}, e.id < a.id ∨ e.id = a.id ∧ f.id < b.id → Node.binary op e f ≠ .binary op a b := by
    intro op e f h heq
    cases heq
    omega
  fun_induction binary pool op e f with
  | case1 => rfl
  | case2 pool e f hopen answer hrule => rw [answer?_record, if_neg (hne h)]
  | case3 pool e f hopen interval hrule range =>
      rw [answer?_record, if_neg (hne h)]
      exact answer?_range_of_ne (by simp)
  | case4 pool e f hopen hrule swapped ih =>
      rw [answer?_record, if_neg (hne h)]
      have hlt := swap_lt hrule
      exact ih (by omega)
  | case5 pool e f hopen x y z hrule rest whole ihrest ihwhole =>
      rw [answer?_record, if_neg (hne h)]
      obtain ⟨hx, hy⟩ := regroup_lt hrule
      have hrest : y.id < a.id ∨ y.id = a.id ∧ z.id < b.id := by
        rcases hy with hy | ⟨rfl, hz⟩ <;> omega
      exact (ihwhole (by omega)).trans (ihrest hrest)
  | case6 pool e f hopen hrule => exact answer?_store_of_ne (hne h)

/-- What a regrouped request leads to leaves the request itself open. -/
theorem answer?_regroup {x y z r : Expr} (hrule : pool.rule op e f = .regroup x y z) :
    ((pool.binary op y z).pool.binary op x r).pool.answer? (.binary op e f) = pool.answer? (.binary op e f) := by
  obtain ⟨hlt, hlt'⟩ := regroup_lt hrule
  have hlt' : y.id < e.id ∨ y.id = e.id ∧ z.id < f.id := by
    rcases hlt' with hlt' | ⟨heq, hz⟩
    · exact Or.inl hlt'
    · exact Or.inr ⟨congrArg Expr.id heq, hz⟩
  rw [answer?_binary_of_lt (Or.inl hlt), answer?_binary_of_lt hlt']

theorem binary_settles (h : pool.Sound) (op : BinaryOp) (he : pool.Has e) (hf : pool.Has f) :
    pool.Settles (.binary op e f) (pool.binary op e f) := by
  have hkeeps := rule_keeps h op he hf
  have hops : ∀ o ∈ (Node.binary op e f).operands, pool.Has o := Node.forall_operands_binary.2 ⟨he, hf⟩
  fun_induction binary pool op e f with
  | case1 pool e f answer hanswer => exact settles_answer h hanswer
  | case2 pool e f hopen answer hrule =>
      rw [hrule] at hkeeps
      exact settles_record hops (.refl pool) h hopen hkeeps
  | case3 pool e f hopen interval hrule range =>
      rw [hrule] at hkeeps
      have hrange := range_settles h interval.low interval.high
      refine settles_record hops hrange.remembers hrange.sound ?_ (hkeeps _ _ hrange.remembers.toExtends hrange.answers)
      rw [answer?_range_of_ne (by simp)]
      exact hopen
  | case4 pool e f hopen hrule swapped ih =>
      rw [hrule] at hkeeps
      have hswapped := ih h hf he (rule_keeps h op hf he) (Node.forall_operands_binary.2 ⟨hf, he⟩)
      refine settles_record hops hswapped.remembers hswapped.sound ?_
        (hkeeps _ _ hswapped.remembers.toExtends hswapped.answers)
      rw [answer?_binary_of_lt (Or.inl (swap_lt hrule))]
      exact hopen
  | case5 pool e f hopen x y z hrule rest whole ihrest ihwhole =>
      rw [hrule] at hkeeps
      obtain ⟨hx, hy, hz, hkeeps⟩ := hkeeps
      have hrest := ihrest h hy hz (rule_keeps h op hy hz) (Node.forall_operands_binary.2 ⟨hy, hz⟩)
      have hx' := hrest.remembers.has hx
      have hr := hrest.answers.has
      have hwhole := ihwhole hrest.sound hx' hr (rule_keeps hrest.sound op hx' hr)
        (Node.forall_operands_binary.2 ⟨hx', hr⟩)
      have hremembers := hrest.remembers.trans hwhole.remembers
      refine settles_record hops hremembers hwhole.sound ?_
        (hkeeps _ _ _ hremembers.toExtends (hrest.answers.mono hwhole.remembers.toExtends) hwhole.answers)
      rw [answer?_regroup hrule]
      exact hopen
  | case6 pool e f hopen hrule => exact settles_store h hopen hops (by simp)

/-! ## Unary operators -/

theorem Answers.unary {op : UnaryOp} (he : pool.Has e) (ha : pool.Has a)
    (hagree : ∀ input, Pieces.Agree input (pool.Matches input a) (op.pieces (pool.Matches input e)))
    (hfree : pool.AnchorFree e → pool.AnchorFree a) : pool.Answers (.unary op e) a where
  operands_has := Node.forall_operands_unary.2 he
  has := ha
  agree := hagree
  anchorFree := fun _ hops => hfree (Node.forall_operands_unary.1 hops)

private theorem answers_double_negation (hn : pool.node e = .unary .negate a) (he : pool.Has e) :
    pool.Answers (.unary .negate e) a := by
  refine .unary he (he.operand (by simp [hn, Node.operands])) (fun input => ?_) (anchorFree_of_unary hn).1
  rw [matches_of_node hn]
  exact .of_iff fun i j => not_not.symm

theorem negate_settles (h : pool.Sound) (he : pool.Has e) : pool.Settles (.unary .negate e) (pool.negate e) := by
  have hops : ∀ o ∈ (Node.unary .negate e).operands, pool.Has o := Node.forall_operands_unary.2 he
  unfold negate
  split
  · rename_i hanswer
    exact settles_answer h hanswer
  · rename_i hopen
    split
    · rename_i sub hn
      rw [Node.asUnary?_eq_some_iff] at hn
      exact settles_record hops (.refl pool) h hopen (answers_double_negation hn he)
    · exact settles_store h hopen hops (by simp)

theorem answer?_negate_of_ne (hne : request ≠ .unary .negate e) :
    (pool.negate e).pool.answer? request = pool.answer? request := by
  unfold negate
  split
  · rfl
  · split
    · rw [answer?_record, if_neg hne.symm]
    · exact answer?_store_of_ne hne.symm

/-- Nothing and the empty word, any number of times, are the empty word. -/
private theorem answers_star_of_empty (h : pool.Sound) (heq : e = .epsilon ∨ e = .empty) :
    pool.Answers (.unary .star e) .epsilon := by
  have he : pool.Has e := by
    rcases heq with rfl | rfl
    · exact h.has_epsilon
    · exact h.has_empty
  refine .unary he h.has_epsilon (fun input => ?_) fun _ => h.anchorFree_epsilon
  rw [h.matches_epsilon]
  refine .of_iff fun i j => (Pieces.star_iff_eq fun p q hpq => ?_).symm
  rcases heq with rfl | rfl
  · rwa [h.matches_epsilon] at hpq
  · rw [h.matches_empty] at hpq
    exact hpq.elim

private theorem answers_star_of_star (hn : pool.node e = .unary .star a) (he : pool.Has e) :
    pool.Answers (.unary .star e) e := by
  refine .unary he he (fun input => ?_) id
  rw [matches_of_node hn]
  exact .of_iff fun i j => Pieces.star_star.symm

private theorem answers_star_of_full {interval : Interval} (h : pool.Sound) (hn : pool.node e = .range interval)
    (hfull : interval.isFull = true) (he : pool.Has e) (ha : pool.Answers (.unary .negate .empty) a) :
    pool.Answers (.unary .star e) a := by
  refine .unary he ha.has (fun input => (ha.agree input).trans ?_) fun _ => ha.anchorFree rfl ?_
  · have hevery : ∀ c, c ∈ interval := fun c => Interval.mem_of_isFull hfull
    rw [NodeMatches, matches_of_node hn]
    refine (Pieces.Agree.trans (Pieces.agree_star_full hevery) ?_).symm
    rw [h.matches_empty]
    exact .of_iff fun i j => iff_of_true trivial not_false
  · simpa [Node.operands] using h.anchorFree_empty

theorem star_settles (h : pool.Sound) (he : pool.Has e) : pool.Settles (.unary .star e) (pool.star e) := by
  have hops : ∀ o ∈ (Node.unary .star e).operands, pool.Has o := Node.forall_operands_unary.2 he
  unfold star
  split
  · rename_i hanswer
    exact settles_answer h hanswer
  · rename_i hopen
    split
    · rename_i heq
      exact settles_record hops (.refl pool) h hopen (answers_star_of_empty h heq)
    · split
      · rename_i hn
        exact settles_record hops (.refl pool) h hopen (answers_star_of_star hn he)
      · rename_i interval hn
        split
        · rename_i hfull
          have hall := negate_settles h h.has_empty
          have hext := hall.remembers.toExtends
          refine settles_record hops hall.remembers hall.sound ?_
            (answers_star_of_full hall.sound ((hext.node_eq e he).trans hn) hfull (hext.has he) hall.answers)
          rw [all, answer?_negate_of_ne (by simp)]
          exact hopen
        · exact settles_store h hopen hops (by simp)
      · exact settles_store h hopen hops (by simp)

theorem answer?_star_of_ne (hne : request ≠ .unary .star e) (hne' : request ≠ .unary .negate .empty) :
    (pool.star e).pool.answer? request = pool.answer? request := by
  unfold star
  split
  · rfl
  · split
    · rw [answer?_record, if_neg hne.symm]
    · split
      · rw [answer?_record, if_neg hne.symm]
      · split
        · rw [answer?_record, if_neg hne.symm]
          exact answer?_negate_of_ne hne'
        · exact answer?_store_of_ne hne.symm
      · exact answer?_store_of_ne hne.symm

theorem unary_settles (h : pool.Sound) (op : UnaryOp) (he : pool.Has e) :
    pool.Settles (.unary op e) (pool.unary op e) := by
  cases op with
  | star => exact star_settles h he
  | negate => exact negate_settles h he

/-! ## Settled for good -/

theorem Settles.range_again {low high : Char} {built : Built} (h : pool.Settles (.range ⟨low, high⟩) built)
    (hlater : Remembers built.pool later) : later.range low high = ⟨built.expr, later⟩ := by
  rw [range, hlater.answer?_eq h.answer?_eq]

theorem Settles.binary_again {built : Built} (h : pool.Settles (.binary op e f) built)
    (hlater : Remembers built.pool later) : later.binary op e f = ⟨built.expr, later⟩ := by
  rw [binary, hlater.answer?_eq h.answer?_eq]

theorem Settles.unary_again {op : UnaryOp} {built : Built} (h : pool.Settles (.unary op e) built)
    (hlater : Remembers built.pool later) : later.unary op e = ⟨built.expr, later⟩ := by
  have hanswer := hlater.answer?_eq h.answer?_eq
  cases op with
  | star => rw [unary, star, hanswer]
  | negate => rw [unary, negate, hanswer]

end Pool

end RegexAlgebra
