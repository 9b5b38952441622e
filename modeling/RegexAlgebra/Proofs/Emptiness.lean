import RegexAlgebra.Proofs.Composition
import RegexAlgebra.Proofs.Positions
import RegexAlgebra.Proofs.Termination

/-! # Emptiness

The search for a final state finds the states that words lead to from the initial one. It turns to each of them once,
so it ends and its turns suffice, and what it finds in the end is closed under all symbols. An automaton is therefore
empty just if it accepts no word at all. This decides inclusion: nothing is in one language and not in the other.
-/

namespace RegexAlgebra

open Pool

namespace Automaton

variable {a : Automaton} {s t : Expr} {found : List Expr} {done fuel : Nat} {edges : List Edge} {c : Char}

/-! ## Targets -/

theorem Leaves.targets_eq (h : a.Leaves s edges) : a.targets s = edges.map (·.target) := by
  have hedges := h.edges_eq
  unfold Automaton.edges at hedges
  unfold targets
  cases hrow : a.row? s with
  | none =>
      rw [hrow] at hedges
      cases hedges
  | some row =>
      rw [hrow] at hedges
      cases hedges
      rfl

/-- No edge is without symbols, so the targets are where the symbols lead. -/
theorem Leaves.mem_targets (h : a.Leaves s edges) : t ∈ a.targets s ↔ ∃ c, a.next s c = t := by
  rw [h.targets_eq, List.mem_map]
  constructor
  · intro hparts
    obtain ⟨edge, hedge, rfl⟩ := hparts
    exact ⟨edge.interval.low, (h.target_eq hedge ⟨Char.le_refl _, h.low_le_high hedge⟩).symm⟩
  · intro hparts
    obtain ⟨c, rfl⟩ := hparts
    obtain ⟨edge, hedge, _, htarget⟩ := h.exists_edge c
    exact ⟨edge, hedge, htarget⟩

theorem IsComplete.nextAll_mem (h : a.IsComplete) (hs : s ∈ a.states) (word : List Char) :
    a.nextAll s word ∈ a.states := by
  induction word generalizing s with
  | nil => exact hs
  | cons c word ih => exact ih (h.next_mem hs c)

/-! ## The search -/

/-- Words lead to states only. -/
theorem Found.mem_states (h : Found a.next a.initial found done) (ha : a.IsComplete) (hs : s ∈ found) :
    s ∈ a.states := by
  obtain ⟨word, rfl⟩ := h.exists_word s hs
  exact ha.nextAll_mem ha.initial_mem word

theorem Found.length_le (h : Found a.next a.initial found done) (ha : a.IsComplete) : found.length ≤ a.rows.length :=
  (h.nodup.subperm fun _ hs => h.mem_states ha hs).length_le.trans_eq (List.length_map _)

/-- The search for the states that can be reached, with no bound on its turns: `all` are found in the end. -/
inductive Reaches (a : Automaton) : (found : List Expr) → (done : Nat) → (all : List Expr) → Prop
  | ends {found : List Expr} {done : Nat} : found[done]? = none → Reaches a found done found
  | turn {found all : List Expr} {done : Nat} {s : Expr} {edges : List Edge} : found[done]? = some s →
      a.edges s = .ok edges → Reaches a (addNew found (edges.map (·.target))) (done + 1) all → Reaches a found done all

/-- There is a turn for each state, and one more to see that none is left. -/
theorem reaches_reachFrom (h : Found a.next a.initial found done) (ha : a.IsComplete)
    (hfuel : a.rows.length < fuel + done) : a.Reaches found done (a.reachFrom fuel found done) := by
  induction fuel generalizing found done with
  | zero =>
      have hlength := h.length_le ha
      have hdone := h.done_le
      omega
  | succ fuel ih =>
      rw [reachFrom]
      cases hs : found[done]? with
      | none => exact .ends hs
      | some s =>
          obtain ⟨edges, hleaves⟩ := ha.leaves s (h.mem_states ha (List.mem_of_getElem? hs))
          have hrest := ih (h.turn hs fun _ => hleaves.mem_targets) (by omega)
          show a.Reaches found done (a.reachFrom fuel (addNew found (a.targets s)) (done + 1))
          rw [hleaves.targets_eq] at hrest ⊢
          exact .turn hs hleaves.edges_eq hrest

theorem IsComplete.reaches (h : a.IsComplete) : a.Reaches [a.initial] 0 a.reachable :=
  reaches_reachFrom (found_start a.next a.initial) h (Nat.lt_succ_self _)

/-- Whenever the search ends, it has found what words lead to. -/
theorem Reaches.mem_iff {all : List Expr} (hreaches : a.Reaches found done all)
    (h : Found a.next a.initial found done) (ha : a.IsComplete) : s ∈ all ↔ ∃ word, a.nextAll a.initial word = s := by
  induction hreaches with
  | ends hs => exact h.mem_iff (List.getElem?_eq_none_iff.1 hs)
  | turn hs hedges _ ih =>
      obtain ⟨edges, hleaves⟩ := ha.leaves _ (h.mem_states ha (List.mem_of_getElem? hs))
      cases hleaves.edges_eq.symm.trans hedges
      exact ih (h.turn hs fun _ => hleaves.targets_eq ▸ hleaves.mem_targets)

theorem IsComplete.mem_reachable (h : a.IsComplete) : s ∈ a.reachable ↔ ∃ word, a.nextAll a.initial word = s :=
  h.reaches.mem_iff (found_start a.next a.initial) h

/-- The search asks for the edges of states only. -/
theorem IsComplete.mem_states_of_reachable (h : a.IsComplete) (hs : s ∈ a.reachable) : s ∈ a.states := by
  obtain ⟨word, rfl⟩ := h.mem_reachable.1 hs
  exact h.nextAll_mem h.initial_mem word

/-- The search finds no final state just if no word is accepted. -/
theorem IsComplete.isEmpty_iff (h : a.IsComplete) : a.isEmpty = true ↔ ∀ word, a.isMatch word = .ok false := by
  simp only [isEmpty, Bool.not_eq_true', List.any_eq_false, h.mem_reachable, h.isMatch_eq, Except.ok.injEq]
  constructor
  · exact fun hnone word => Bool.eq_false_iff.2 (hnone _ ⟨word, rfl⟩)
  · rintro hnone s ⟨word, rfl⟩
    exact Bool.eq_false_iff.1 (hnone word)

end Automaton

namespace Expr

variable {pool built : Pool} {e f : Expr} {L M : Language Char} {a : Automaton} {settings : Settings}

/-! ## Inclusion -/

theorem isEmpty_iff_language (h : pool.Reachable) (he : pool.Denotes L e)
    (hrun : (e.automaton settings).outcome pool = (.ok a, built)) : a.isEmpty = true ↔ ∀ word, word ∉ L := by
  have hbuilt : a.IsBuilt := ⟨pool, built, e, settings, h, he.has, hrun⟩
  rw [hbuilt.isComplete.isEmpty_iff]
  refine forall_congr' fun word => ?_
  obtain ⟨b, hmatch, hb⟩ := automaton_decides h.sound he.has he.anchorFree hrun word
  rw [← he.language_eq, ← hb, hmatch, Except.ok.injEq, Bool.not_eq_true]

/-- What is in one language and not in another. -/
theorem denotes_difference (h : pool.Reachable) (he : pool.Denotes L e) (hf : pool.Denotes M f) :
    let complement := pool.negate f
    let difference := complement.pool.intersect e complement.expr
    difference.pool.Reachable ∧ difference.pool.Denotes {word | word ∈ L ∧ ¬ word ∈ M} difference.expr := by
  intro complement difference
  have hcomplement : pool.Settles (.unary .negate f) complement := negate_settles h.sound hf.has
  have hleft := he.mono hcomplement.remembers.toExtends
  have hright := hcomplement.denotes_unary hf
  have hdifference : complement.pool.Settles (.binary .intersect e complement.expr) difference :=
    binary_settles hcomplement.sound .intersect hleft.has hright.has
  have hcalled : complement.pool.Reachable := h.unary .negate hf.has
  exact ⟨hcalled.binary .intersect hleft.has hright.has, hdifference.denotes_binary hleft hright⟩

/-- On every pool with a history, an automaton that was built for an expression without anchors is empty just if the
expression has no word, whatever its handle, and the search for a final state ends and only meets states. An automaton
that was built for what is in one expression and not in another is empty just if all words of the first are words of the
second; without a limit on its states, which are the residuals of the difference, it is built just if there are handles
for them. -/
theorem emptiness_decides_inclusion (h : pool.Reachable) :
    (∀ e settings a built, pool.Has e → pool.AnchorFree e → (e.automaton settings).outcome pool = (.ok a, built) →
      (a.isEmpty = true ↔ ∀ word, word ∉ pool.language e) ∧ a.Reaches [a.initial] 0 a.reachable ∧
        ∀ s ∈ a.reachable, s ∈ a.states) ∧
    ∀ e f, pool.Has e → pool.AnchorFree e → pool.Has f → pool.AnchorFree f →
      let complement := pool.negate f
      let difference := complement.pool.intersect e complement.expr
      (∀ settings a built, (difference.expr.automaton settings).outcome difference.pool = (.ok a, built) →
        (a.isEmpty = true ↔ ∀ word ∈ pool.language e, word ∈ pool.language f)) ∧
      ∃ rows built, difference.pool.Unfolds difference.expr rows built := by
  constructor
  · intro e settings a built he hfree hrun
    have hbuilt : a.IsBuilt := ⟨pool, built, e, settings, h, he, hrun⟩
    exact ⟨isEmpty_iff_language h ⟨he, hfree, rfl⟩ hrun, hbuilt.isComplete.reaches,
      fun s hs => hbuilt.isComplete.mem_states_of_reachable hs⟩
  · intro e f he hefree hf hffree complement difference
    obtain ⟨hreachable, hdifference⟩ := denotes_difference h ⟨he, hefree, rfl⟩ ⟨hf, hffree, rfl⟩
    constructor
    · intro settings a built hrun
      rw [isEmpty_iff_language hreachable hdifference hrun]
      exact forall_congr' fun word => not_and_not_right
    · exact exists_unfolds hreachable.sound hreachable.canonical hdifference.has hdifference.anchorFree

/-- What is not the empty word, on a pool that was asked for nothing else. -/
def notEpsilon : Built := new.negate .epsilon

/-- The empty word without itself. -/
def selfDifference : Built := notEpsilon.pool.intersect .epsilon notEpsilon.expr

theorem notEpsilon_eq : notEpsilon = new.store (.unary .negate .epsilon) := negate_of_open (answer?_new _) rfl

theorem selfDifference_eq : selfDifference = notEpsilon.pool.store (.binary .intersect .epsilon ⟨4⟩) := by
  have hexpr : notEpsilon.expr = ⟨4⟩ := by rw [notEpsilon_eq]; rfl
  have hopen : notEpsilon.pool.answer? (.binary .intersect .epsilon ⟨4⟩) = none := by
    rw [notEpsilon_eq, answer?_store_of_ne (by simp), answer?_new]
  have hrule : notEpsilon.pool.rule .intersect .epsilon ⟨4⟩ = .keep := by rw [notEpsilon_eq]; rfl
  rw [selfDifference, hexpr, intersect, binary_of_open hopen, hrule]

def pastDifference : Pool :=
  ((selfDifference.pool.store (.unary .negate .empty)).pool.record (.binary .intersect .empty ⟨6⟩) .empty).pool

/-- The node is kept by the rules. -/
theorem node_selfDifference :
    selfDifference.pool.node .empty = .empty ∧ selfDifference.pool.node .epsilon = .epsilon ∧
      selfDifference.pool.node ⟨4⟩ = .unary .negate .epsilon ∧
      selfDifference.pool.node ⟨5⟩ = .binary .intersect .epsilon ⟨4⟩ := by
  rw [selfDifference_eq, notEpsilon_eq]
  exact ⟨rfl, rfl, rfl, rfl⟩

theorem expr_selfDifference : selfDifference.expr = ⟨5⟩ := by
  rw [selfDifference_eq, notEpsilon_eq]
  rfl

theorem node_pastDifference (he : e.id < 6) : pastDifference.node e = selfDifference.pool.node e := by
  have hsize : selfDifference.pool.size = 6 := by
    rw [selfDifference_eq, notEpsilon_eq]
    rfl
  exact node_store_of_lt _ _ (he.trans_eq hsize.symm)

theorem derivative_selfDifference (c : Char) :
    selfDifference.expr.derivative c selfDifference.pool = .ok .empty pastDifference := by
  obtain ⟨hempty, hepsilon, hnot, hboth⟩ := node_selfDifference
  have hopen : ∀ request, request ≠ .unary .negate .epsilon → request ≠ .binary .intersect .epsilon ⟨4⟩ →
      selfDifference.pool.answer? request = none := by
    intro request hnot hboth
    rw [selfDifference_eq, notEpsilon_eq, answer?_store_of_ne hboth.symm, answer?_store_of_ne hnot.symm, answer?_new]
  have hall : selfDifference.pool.unary .negate .empty = selfDifference.pool.store (.unary .negate .empty) :=
    negate_of_open (hopen _ (by simp [Expr.empty, epsilon]) (by simp)) (by rw [hempty]; rfl)
  have hexpr : (selfDifference.pool.store (.unary .negate .empty)).expr = ⟨6⟩ := by
    rw [selfDifference_eq, notEpsilon_eq]
    rfl
  have hintersect : (selfDifference.pool.store (.unary .negate .empty)).pool.binary .intersect .empty ⟨6⟩ =
      (selfDifference.pool.store (.unary .negate .empty)).pool.record (.binary .intersect .empty ⟨6⟩) .empty := by
    refine binary_of_open ?_
    rw [answer?_store_of_ne (by simp), hopen _ (by simp) (by simp [Expr.empty, epsilon])]
  rw [derivative_run, expr_selfDifference, hboth]
  simp [derivativeOf, bind, EStateM.bind, derivative_run, hnot, hepsilon, Session.build, pure, EStateM.pure, hall,
    hexpr, hintersect, pastDifference]

theorem automaton_selfDifference : (selfDifference.expr.automaton {}).outcome selfDifference.pool =
    (.ok (deadEnd selfDifference.expr), pastDifference) := by
  obtain ⟨hempty, hepsilon, hnot, hboth⟩ := node_selfDifference
  have hclasses : selfDifference.pool.classes selfDifference.expr = .ok [.full] := by
    have hleft : selfDifference.pool.classes .epsilon = .ok [.full] := by rw [classes_eq, hepsilon]; rfl
    have hright : selfDifference.pool.classes ⟨4⟩ = .ok [.full] := by rw [classes_eq, hnot, nodeClasses, hleft]
    rw [classes_eq, expr_selfDifference, hboth, nodeClasses, bothClasses, hleft, hright]
    · decide +kernel
    · rintro ⟨⟩
  have hnullable : pastDifference.isNullable selfDifference.expr = .ok false := by
    rw [← node_pastDifference (by decide)] at hepsilon hnot hboth
    have hleft : pastDifference.isNullable .epsilon = .ok true := by rw [isNullable_eq, hepsilon]; rfl
    have hright : pastDifference.isNullable ⟨4⟩ = .ok false := by rw [isNullable_eq, hnot, nodeIsNullable, hleft]; rfl
    rw [isNullable_eq, expr_selfDifference, hboth, nodeIsNullable, hleft, hright]
    · rfl
    · rintro ⟨⟩
  have hempty' : pastDifference.node .empty = .empty := (node_pastDifference (by decide)).trans hempty
  exact automaton_deadEnd hclasses (derivative_selfDifference _) hnullable hempty' (by rw [expr_selfDifference]; decide)

/-- A letter is a word, so the automaton of the letters is not empty. The empty word is no word that it is not, so the
automaton of that is; yet its handle is not the one of nothing. -/
theorem emptiness_of_selfDifference :
    lowercaseAutomaton.isEmpty = false ∧ selfDifference.expr ≠ .empty ∧
      (deadEnd selfDifference.expr).isEmpty = true := by
  refine ⟨?_, ?_, ?_⟩
  · have hletter := settles_lowercase.denotes_range
    have hdecides := (emptiness_decides_inclusion reachable_lowercase).1 _ _ _ _ hletter.has hletter.anchorFree
      automaton_lowercase
    rw [← Bool.not_eq_true, hdecides.1]
    intro hnone
    exact hnone ['q'] (hletter.language_eq ▸ ⟨'q', by decide, rfl⟩)
  · rw [expr_selfDifference]
    decide
  · have hfree : new.AnchorFree .epsilon := sound_new.anchorFree_epsilon
    have hincluded := (emptiness_decides_inclusion .new).2 .epsilon .epsilon sound_new.has_epsilon hfree
      sound_new.has_epsilon hfree
    exact (hincluded.1 {} _ _ automaton_selfDifference).2 fun _ hword => hword

end Expr

end RegexAlgebra
