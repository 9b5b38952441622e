import Mathlib.Data.Finset.Powerset
import RegexAlgebra.Automaton.Composition
import RegexAlgebra.Proofs.Lockstep

/-! # Compositions

The search finds the pairs that words lead to from the pair in which it starts, each once, so there are no more than
pairs of a state and a set of states. Its queue is therefore empty before its turns run out, which would be an error.
What it gathers are the states tracked in a pair that a step leads to and whose single state is final: the last step
of a non-empty word.
-/

namespace RegexAlgebra

open Pool

namespace Automaton

variable {a b : Automaton} {p q start : Pair} {found : List Pair} {done : Nat} {gathered : StateSet} {c : Char}
  {word : List Char} {s : Expr}

/-! ## Lists that grow -/

variable {α : Type} [DecidableEq α] {xs more : List α} {x : α}

theorem addNew_cons : addNew xs (x :: more) = addNew (if x ∈ xs then xs else xs ++ [x]) more := rfl

theorem mem_addNew : x ∈ addNew xs more ↔ x ∈ xs ∨ x ∈ more := by
  induction more generalizing xs with
  | nil => simp [addNew]
  | cons y more ih =>
      rw [addNew_cons, ih, List.mem_cons]
      by_cases hy : y ∈ xs
      · rw [if_pos hy]
        constructor
        · exact Or.imp_right Or.inr
        · rintro (hx | rfl | hx)
          · exact Or.inl hx
          · exact Or.inl hy
          · exact Or.inr hx
      · rw [if_neg hy, List.mem_append, List.mem_singleton, or_assoc]

theorem nodup_addNew (h : xs.Nodup) (more : List α) : (addNew xs more).Nodup := by
  induction more generalizing xs with
  | nil => exact h
  | cons y more ih =>
      rw [addNew_cons]
      by_cases hy : y ∈ xs
      · rw [if_pos hy]
        exact ih h
      · rw [if_neg hy]
        refine ih (List.nodup_append.2 ⟨h, List.nodup_singleton y, fun z hz z' hz' heq => ?_⟩)
        exact hy (List.mem_singleton.1 hz' ▸ heq ▸ hz)

theorem prefix_addNew (xs more : List α) : xs <+: addNew xs more := by
  induction more generalizing xs with
  | nil => exact List.prefix_rfl
  | cons y more ih =>
      rw [addNew_cons]
      refine List.IsPrefix.trans ?_ (ih _)
      by_cases hy : y ∈ xs
      · rw [if_pos hy]
      · rw [if_neg hy]
        exact List.prefix_append xs [y]

theorem take_addNew (hx : xs[done]? = some x) :
    (addNew xs more).take (done + 1) = xs.take done ++ [x] := by
  obtain ⟨rest, hrest⟩ := prefix_addNew xs more
  rw [← hrest, List.take_append_of_le_length (List.getElem?_eq_some_iff.1 hx).1, List.take_add_one, hx]
  rfl

theorem mem_gather {pairs : List Pair} :
    s ∈ gather b gathered pairs ↔ s ∈ gathered ∨ ∃ p ∈ pairs, b.isFinal p.single = true ∧ s ∈ p.tracked := by
  induction pairs generalizing gathered with
  | nil => simp [gather]
  | cons p pairs ih =>
      have hgather : gather b gathered (p :: pairs) =
          gather b (if b.isFinal p.single then gathered.union p.tracked else gathered) pairs := rfl
      rw [hgather, ih]
      by_cases hfinal : b.isFinal p.single = true
      · simp [hfinal, or_assoc]
      · simp [hfinal]

/-! ## What a search finds -/

/-- What is found is what some words lead to, and from the first ones every step leads to one that is found. -/
structure Found (step : α → Char → α) (start : α) (xs : List α) (done : Nat) : Prop where
  start_mem : start ∈ xs
  nodup : xs.Nodup
  done_le : done ≤ xs.length
  exists_word : ∀ x ∈ xs, ∃ word : List Char, word.foldl step start = x
  step_mem : ∀ x ∈ xs.take done, ∀ c, step x c ∈ xs

omit [DecidableEq α] in
theorem found_start (step : α → Char → α) (first : α) : Found step first [first] 0 where
  start_mem := List.mem_singleton_self first
  nodup := List.nodup_singleton first
  done_le := Nat.zero_le _
  exists_word := fun _ hx => ⟨[], (List.mem_singleton.1 hx).symm⟩
  step_mem := by simp

namespace Found

variable {step : α → Char → α} {first : α}

/-- A turn of the search: what the next one leads to joins. -/
theorem turn (h : Found step first xs done) (hx : xs[done]? = some x) (hmore : ∀ y, y ∈ more ↔ ∃ c, step x c = y) :
    Found step first (addNew xs more) (done + 1) := by
  have hlt : done < xs.length := (List.getElem?_eq_some_iff.1 hx).1
  have hkept := prefix_addNew xs more
  refine ⟨hkept.subset h.start_mem, nodup_addNew h.nodup _, Nat.le_trans hlt hkept.length_le, ?_, ?_⟩
  · intro y hy
    rcases mem_addNew.1 hy with hy | hy
    · exact h.exists_word y hy
    · obtain ⟨c, rfl⟩ := (hmore y).1 hy
      obtain ⟨word, rfl⟩ := h.exists_word x (List.mem_of_getElem? hx)
      exact ⟨word ++ [c], by simp⟩
  · intro y hy c
    rw [take_addNew hx, List.mem_append, List.mem_singleton] at hy
    rcases hy with hy | rfl
    · exact hkept.subset (h.step_mem y hy c)
    · exact mem_addNew.2 (Or.inr ((hmore _).2 ⟨c, rfl⟩))

omit [DecidableEq α] in
/-- Once all have had their turn, what is found is all that words lead to. -/
theorem mem_iff (h : Found step first xs done) (hdone : xs.length ≤ done) :
    x ∈ xs ↔ ∃ word : List Char, word.foldl step first = x := by
  have hstep := h.step_mem
  rw [List.take_of_length_le hdone] at hstep
  constructor
  · exact h.exists_word x
  · rintro ⟨word, rfl⟩
    induction word using List.reverseRecOn with
    | nil => exact h.start_mem
    | append_singleton word c ih =>
        rw [List.foldl_append]
        exact hstep _ ih c

end Found

/-! ## Pairs that words lead to -/

/-- The pair that a symbol leads to from a pair. -/
def stepPair (a b : Automaton) (p : Pair) (c : Char) : Pair := nextPair a b p.single p.tracked.toList c

def runPair (a b : Automaton) (p : Pair) (word : List Char) : Pair := word.foldl (stepPair a b) p

/-- A state of `b` and states of `a`. -/
structure IsPair (a b : Automaton) (p : Pair) : Prop where
  single_mem : p.single ∈ b.states
  tracked_mem : ∀ t ∈ p.tracked, t ∈ a.states

theorem mem_stepPair : s ∈ (stepPair a b p c).tracked ↔ ∃ t ∈ p.tracked, a.next t c = s := by
  rw [stepPair, nextPair, SortedSet.mem_ofList, List.mem_map]
  rfl

theorem IsPair.step (h : IsPair a b p) (ha : a.IsComplete) (hb : b.IsComplete) (c : Char) :
    IsPair a b (stepPair a b p c) where
  single_mem := hb.next_mem h.single_mem c
  tracked_mem := fun s hs => by
    obtain ⟨t, ht, rfl⟩ := mem_stepPair.1 hs
    exact ha.next_mem (h.tracked_mem t ht) c

theorem IsPair.run (h : IsPair a b p) (ha : a.IsComplete) (hb : b.IsComplete) (word : List Char) :
    IsPair a b (runPair a b p word) := by
  induction word generalizing p with
  | nil => exact h
  | cons c word ih => exact ih (h.step ha hb c)

theorem single_runPair (p : Pair) (word : List Char) : (runPair a b p word).single = b.nextAll p.single word := by
  induction word generalizing p with
  | nil => rfl
  | cons c word ih => exact ih (stepPair a b p c)

theorem mem_runPair : s ∈ (runPair a b p word).tracked ↔ ∃ t ∈ p.tracked, a.nextAll t word = s := by
  induction word generalizing p with
  | nil => simp [runPair, nextAll]
  | cons c word ih =>
      rw [runPair, List.foldl_cons, ← runPair, ih]
      constructor
      · intro hparts
        obtain ⟨t, ht, hrun⟩ := hparts
        obtain ⟨u, hu, rfl⟩ := mem_stepPair.1 ht
        exact ⟨u, hu, hrun⟩
      · intro hparts
        obtain ⟨u, hu, hrun⟩ := hparts
        exact ⟨_, mem_stepPair.2 ⟨u, hu, rfl⟩, hrun⟩

theorem runPair_append (p : Pair) (word : List Char) (c : Char) :
    runPair a b p (word ++ [c]) = stepPair a b (runPair a b p word) c := by
  simp [runPair]

/-- There are at most as many pairs as states of `b` together with sets of states of `a`. -/
theorem length_lt_pairBound (hnodup : found.Nodup) (h : ∀ p ∈ found, IsPair a b p) :
    found.length < pairBound a b := by
  have hmaps : ∀ p ∈ found.toFinset, (p.single, p.tracked.toList.toFinset) ∈
      b.states.toFinset ×ˢ a.states.toFinset.powerset := by
    intro p hp
    obtain ⟨hsingle, htracked⟩ := h p (List.mem_toFinset.1 hp)
    rw [Finset.mem_product, Finset.mem_powerset]
    exact ⟨List.mem_toFinset.2 hsingle, fun t ht => List.mem_toFinset.2 (htracked t (List.mem_toFinset.1 ht))⟩
  have hinjective : Set.InjOn (fun p : Pair => (p.single, p.tracked.toList.toFinset)) found.toFinset := by
    intro p _ q _ heq
    obtain ⟨hsingle, htracked⟩ := Prod.mk.injEq _ _ _ _ ▸ heq
    have hset : p.tracked = q.tracked := SortedSet.ext fun t => by
      rw [SortedSet.mem_iff, SortedSet.mem_iff, ← List.mem_toFinset, htracked, List.mem_toFinset]
    cases p
    cases q
    simp_all
  have hcard := Finset.card_le_card_of_injOn _ hmaps hinjective
  have hlength : ∀ m : Automaton, m.states.toFinset.card ≤ m.rows.length := fun m =>
    (List.toFinset_card_le m.states).trans_eq (List.length_map _)
  rw [List.toFinset_card_of_nodup hnodup, Finset.card_product, Finset.card_powerset] at hcard
  have hbound := Nat.mul_le_mul (hlength b) (Nat.pow_le_pow_right Nat.zero_lt_two (hlength a))
  exact Nat.lt_succ_of_le (hcard.trans hbound)

/-! ## The search -/

/-- The pairs found are those of some words. The steps from the first ones lead to pairs that are found, and gather what
is tracked where the single state is final. -/
structure Searched (a b : Automaton) (start : Pair) (found : List Pair) (done : Nat) (gathered : StateSet) : Prop where
  start_mem : start ∈ found
  nodup : found.Nodup
  done_le : done ≤ found.length
  exists_word : ∀ p ∈ found, ∃ word, runPair a b start word = p
  step_mem : ∀ p ∈ found.take done, ∀ c, stepPair a b p c ∈ found
  mem_gathered : ∀ s, s ∈ gathered ↔ ∃ p ∈ found.take done, ∃ c,
    b.isFinal (stepPair a b p c).single = true ∧ s ∈ (stepPair a b p c).tracked

theorem searched_start (a b : Automaton) (start : Pair) : Searched a b start [start] 0 ∅ where
  start_mem := List.mem_singleton_self start
  nodup := List.nodup_singleton start
  done_le := Nat.zero_le _
  exists_word := fun p hp => ⟨[], (List.mem_singleton.1 hp).symm⟩
  step_mem := by simp
  mem_gathered := fun s => by
    rw [SortedSet.mem_iff]
    simp [EmptyCollection.emptyCollection]

namespace Searched

theorem isPair (h : Searched a b start found done gathered) (ha : a.IsComplete) (hb : b.IsComplete)
    (hstart : IsPair a b start) : ∀ p ∈ found, IsPair a b p := by
  intro p hp
  obtain ⟨word, rfl⟩ := h.exists_word p hp
  exact hstart.run ha hb word

theorem isFound (h : Searched a b start found done gathered) : Found (stepPair a b) start found done :=
  ⟨h.start_mem, h.nodup, h.done_le, h.exists_word, h.step_mem⟩

/-- A turn of the search: the pairs of the steps from the next pair join. -/
theorem turn (h : Searched a b start found done gathered) (hp : found[done]? = some p) {pairs : SortedSet Pair}
    (hpairs : ∀ q, q ∈ pairs ↔ ∃ c, stepPair a b p c = q) :
    Searched a b start (addNew found pairs.toList) (done + 1) (gather b gathered pairs.toList) := by
  have hfound := h.isFound.turn hp hpairs
  refine ⟨hfound.start_mem, hfound.nodup, hfound.done_le, hfound.exists_word, hfound.step_mem, fun s => ?_⟩
  have hnew : (∃ q ∈ pairs.toList, b.isFinal q.single = true ∧ s ∈ q.tracked) ↔
      ∃ c, b.isFinal (stepPair a b p c).single = true ∧ s ∈ (stepPair a b p c).tracked := by
    constructor
    · intro hparts
      obtain ⟨q, hq, hfinal⟩ := hparts
      obtain ⟨c, rfl⟩ := (hpairs q).1 hq
      exact ⟨c, hfinal⟩
    · intro hparts
      obtain ⟨c, hfinal⟩ := hparts
      exact ⟨_, (hpairs _).2 ⟨c, rfl⟩, hfinal⟩
  rw [mem_gather, h.mem_gathered, hnew, take_addNew hp]
  simp [or_and_right, exists_or]

theorem runPair_mem (h : Searched a b start found done gathered) (hdone : found.length ≤ done) (word : List Char) :
    runPair a b start word ∈ found :=
  (h.isFound.mem_iff hdone).2 ⟨word, rfl⟩

/-- Once all pairs have had their turn, what is gathered is what non-empty words lead to. -/
theorem mem_gathered_iff (h : Searched a b start found done gathered) (hdone : found.length ≤ done) (s : Expr) :
    s ∈ gathered ↔ ∃ word, word ≠ [] ∧ b.isFinal (runPair a b start word).single = true ∧
      s ∈ (runPair a b start word).tracked := by
  rw [h.mem_gathered, List.take_of_length_le hdone]
  constructor
  · intro hparts
    obtain ⟨p, hp, c, hfinal⟩ := hparts
    obtain ⟨word, rfl⟩ := h.exists_word p hp
    rw [← runPair_append] at hfinal
    exact ⟨word ++ [c], by simp, hfinal⟩
  · intro hparts
    obtain ⟨word, hne, hfinal⟩ := hparts
    obtain ⟨word, c, rfl⟩ := (List.eq_nil_or_concat word).resolve_left hne
    rw [List.concat_eq_append, runPair_append] at hfinal
    exact ⟨_, h.runPair_mem hdone word, c, hfinal⟩

end Searched

private theorem composeFrom_spec (ha : a.IsComplete) (hb : b.IsComplete) (hstart : IsPair a b start) {fuel : Nat}
    (h : Searched a b start found done gathered) (hfuel : pairBound a b ≤ done + fuel) :
    ∃ result, a.composeFrom b fuel found done gathered = .ok result ∧
      ∀ s, s ∈ result ↔ ∃ word, word ≠ [] ∧ b.isFinal (runPair a b start word).single = true ∧
        s ∈ (runPair a b start word).tracked := by
  induction fuel generalizing found done gathered with
  | zero =>
      -- There are not as many pairs as turns were given.
      have hlt := length_lt_pairBound h.nodup (h.isPair ha hb hstart)
      have hle := h.done_le
      omega
  | succ fuel ih =>
      rw [composeFrom]
      cases hp : found[done]? with
      | none => exact ⟨gathered, rfl, h.mem_gathered_iff (List.getElem?_eq_none_iff.1 hp)⟩
      | some p =>
          obtain ⟨hsingle, htracked⟩ := h.isPair ha hb hstart p (List.mem_of_getElem? hp)
          obtain ⟨pairs, hrun, hpairs⟩ := successors_spec ha hb hsingle htracked a.strategy
          obtain ⟨result, hresult, hmem⟩ := ih (h.turn hp hpairs) (by omega)
          refine ⟨result, ?_, hmem⟩
          simp only [hrun, bind, Except.bind]
          exact hresult

/-- The composition of automata that were built always comes to an end, whatever the strategy: no pair is left in its
queue after as many turns as there are pairs, and more turns change nothing. It gives the states that a non-empty word
leads to which the other automaton accepts. The empty word does not count, even if it is accepted; a non-empty word that
leads back to where the search starts does. -/
theorem compose_reaches (ha : a.IsBuilt) (hb : b.IsBuilt) (states : StateSet) (hstates : ∀ s ∈ states, s ∈ a.states) :
    ∃ result, a.compose states b = .ok result ∧
      (∀ fuel, pairBound a b ≤ fuel → a.composeFrom b fuel [⟨b.initial, states⟩] 0 ∅ = .ok result) ∧
      ∀ t, t ∈ result ↔ ∃ s ∈ states, ∃ word, word ≠ [] ∧ b.isMatch word = .ok true ∧ a.run s word = .ok t := by
  have ha := ha.isComplete
  have hb := hb.isComplete
  have hstart : IsPair a b ⟨b.initial, states⟩ := ⟨hb.initial_mem, hstates⟩
  have hends := fun fuel (hfuel : pairBound a b ≤ fuel) =>
    composeFrom_spec ha hb hstart (searched_start a b _) (hfuel.trans_eq (Nat.zero_add fuel).symm)
  obtain ⟨result, hrun, hresult⟩ := hends _ (Nat.le_refl _)
  refine ⟨result, hrun, fun fuel hfuel => ?_, fun t => ?_⟩
  · obtain ⟨result', hrun', hresult'⟩ := hends fuel hfuel
    rw [hrun', SortedSet.ext fun t => (hresult' t).trans (hresult t).symm]
  · simp only [hresult, hb.isMatch_eq, single_runPair, mem_runPair, Except.ok.injEq]
    constructor
    · intro hparts
      obtain ⟨word, hne, hfinal, s, hs, hlast⟩ := hparts
      exact ⟨s, hs, word, hne, hfinal, by rw [ha.run_eq (hstates s hs), hlast]⟩
    · intro hparts
      obtain ⟨s, hs, word, hne, hfinal, hword⟩ := hparts
      rw [ha.run_eq (hstates s hs), Except.ok.injEq] at hword
      exact ⟨word, hne, hfinal, s, hs, hword⟩

/-- From the state of one lower case letter, a word that its own automaton accepts leads to the empty word, and none
leads back to the state, although the search starts there. -/
theorem compose_lowercase : ∃ result,
    lowercaseAutomaton.compose (.ofList [lowercase.expr]) lowercaseAutomaton = .ok result ∧ .epsilon ∈ result ∧
      lowercase.expr ∉ result := by
  have hmem : ∀ s ∈ SortedSet.ofList [lowercase.expr], s ∈ lowercaseAutomaton.states := by
    simp [states, lowercaseAutomaton]
  obtain ⟨result, hrun, _, hresult⟩ := compose_reaches isBuilt_lowercase isBuilt_lowercase _ hmem
  have hmatch : ∀ word t, lowercaseAutomaton.run lowercase.expr word = .ok t →
      lowercaseAutomaton.isMatch word = .ok (lowercaseAutomaton.isFinal t) := by
    intro word t hword
    rw [isMatch, show lowercaseAutomaton.initial = lowercase.expr from rfl, hword]
    rfl
  refine ⟨result, hrun, (hresult _).2 ⟨lowercase.expr, by simp, ['m'], by simp, ?_⟩, fun hback => ?_⟩
  · have hword : lowercaseAutomaton.run lowercase.expr ['m'] = .ok .epsilon := by
      rw [run, move_lowercase]
      rfl
    have hfinal : lowercaseAutomaton.isFinal .epsilon = true := by
      have hother : Expr.empty ≠ .epsilon ∧ (⟨4⟩ : Expr) ≠ .epsilon := by decide
      simp [isFinal, row?, lowercaseAutomaton, expr_lowercase, hother]
    exact ⟨hfinal ▸ hmatch _ _ hword, hword⟩
  · obtain ⟨s, hs, word, _, haccepts, hword⟩ := (hresult _).1 hback
    obtain rfl : s = lowercase.expr := by simpa using hs
    rw [hmatch word _ hword] at haccepts
    simp [isFinal, row?, lowercaseAutomaton] at haccepts

end Automaton

end RegexAlgebra
