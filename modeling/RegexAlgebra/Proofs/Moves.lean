import RegexAlgebra.Proofs.Simulation

/-! # Moves of built automata

The edges of each state of an automaton that was built are a partition of the alphabet and lead to states, so each
symbol moves each state, and the moves of a word stay among the states.
-/

namespace RegexAlgebra

open Pool

namespace Automaton

variable {a b : Automaton} {s t single : Expr} {c d : Char} {edges : List Edge}

/-! ## Moves -/

/-- The automaton was built for an expression, on a pool with a history. -/
def IsBuilt (a : Automaton) : Prop :=
  ∃ (pool later : Pool) (e : Expr) (settings : Settings),
    pool.Reachable ∧ pool.Has e ∧ (e.automaton settings).outcome pool = (.ok a, later)

/-- The edges of the state, which are a partition and lead to states. -/
structure Leaves (a : Automaton) (s : Expr) (edges : List Edge) : Prop where
  edges_eq : a.edges s = .ok edges
  partition : Partition.IsPartition (edges.map (·.interval))
  target_mem : ∀ edge ∈ edges, edge.target ∈ a.states

/-- The run starts in a state, and each state has its edges. -/
structure IsComplete (a : Automaton) : Prop where
  initial_mem : a.initial ∈ a.states
  leaves : ∀ s ∈ a.states, ∃ edges, a.Leaves s edges

theorem IsBuilt.isComplete (h : a.IsBuilt) : a.IsComplete := by
  obtain ⟨pool, later, e, settings, hreachable, he, hrun⟩ := h
  obtain ⟨hgrows, path, hexplores⟩ := (e.automaton_ends hreachable.sound he settings).of_ok (Session.ok_of_outcome hrun)
  refine ⟨hexplores.initial_eq ▸ List.mem_of_head? hexplores.discovered.head, fun s hs => ?_⟩
  obtain ⟨row, hrow, rfl, hright⟩ := hexplores.exists_row hs
  refine ⟨row.edges, by simp [edges, hrow], ?_, hright.edges.target_mem⟩
  exact isPartition_of_classes (hgrows.sound hreachable.sound) (hexplores.discovered.has _ hs) hright.classes_eq

/-- The state that a symbol leads to, where the automaton has an edge for it. -/
def next (a : Automaton) (s : Expr) (c : Char) : Expr :=
  match a.move s c with
  | .ok t => t
  | .error _ => s

theorem edges_of_not_mem (hs : s ∉ a.states) : a.edges s = .error (.notAState s) := by
  have hnone : a.row? s = none := by
    rw [row?, List.find?_eq_none]
    intro row hrow hstate
    exact hs (List.mem_map.2 ⟨row, hrow, by simpa using hstate⟩)
  simp [Automaton.edges, hnone]

namespace Leaves

/-- Just one edge holds a symbol, and leads where the symbol leads. -/
theorem filter_eq (h : a.Leaves s edges) (c : Char) :
    ∃ i, edges.filter (·.interval.contains c) = [⟨i, a.next s c⟩] ∧ a.move s c = .ok (a.next s c) := by
  obtain ⟨cell, hcell⟩ := Partition.filter_of_isPartition h.partition c
  rw [List.filter_map, List.map_eq_singleton_iff] at hcell
  obtain ⟨edge, hedge, _⟩ := hcell
  change edges.filter (·.interval.contains c) = [edge] at hedge
  have hfind : edges.find? (·.interval.contains c) = some edge := by
    rw [← List.head?_filter, hedge]
    rfl
  have hmove : a.move s c = .ok edge.target := by
    simp only [move, h.edges_eq, bind, Except.bind, hfind]
    rfl
  have hnext : a.next s c = edge.target := by rw [next, hmove]
  exact ⟨edge.interval, by rw [hnext, hedge], by rw [hnext, hmove]⟩

theorem exists_edge (h : a.Leaves s edges) (c : Char) :
    ∃ edge ∈ edges, c ∈ edge.interval ∧ edge.target = a.next s c := by
  obtain ⟨i, hfilter, _⟩ := h.filter_eq c
  have hmem : (⟨i, a.next s c⟩ : Edge) ∈ edges.filter (·.interval.contains c) := by simp [hfilter]
  obtain ⟨hedge, hc⟩ := List.mem_filter.1 hmem
  exact ⟨_, hedge, Interval.contains_iff.1 hc, rfl⟩

theorem target_eq (h : a.Leaves s edges) {edge : Edge} (hedge : edge ∈ edges) (hc : c ∈ edge.interval) :
    edge.target = a.next s c := by
  obtain ⟨i, hfilter, _⟩ := h.filter_eq c
  have hmem : edge ∈ edges.filter (·.interval.contains c) := List.mem_filter.2 ⟨hedge, Interval.contains_iff.2 hc⟩
  rw [hfilter, List.mem_singleton] at hmem
  rw [hmem]

theorem low_le_high (h : a.Leaves s edges) {edge : Edge} (hedge : edge ∈ edges) :
    edge.interval.low ≤ edge.interval.high :=
  (Partition.le_low_of_tilesFrom h.partition (List.mem_map_of_mem hedge)).2

end Leaves

theorem IsComplete.move_eq (h : a.IsComplete) (hs : s ∈ a.states) (c : Char) : a.move s c = .ok (a.next s c) := by
  obtain ⟨edges, hleaves⟩ := h.leaves s hs
  exact (hleaves.filter_eq c).choose_spec.2

theorem IsComplete.next_mem (h : a.IsComplete) (hs : s ∈ a.states) (c : Char) : a.next s c ∈ a.states := by
  obtain ⟨edges, hleaves⟩ := h.leaves s hs
  obtain ⟨edge, hedge, _, htarget⟩ := hleaves.exists_edge c
  exact htarget ▸ hleaves.target_mem edge hedge

theorem mapM_of_ok {α β : Type} {f : α → Except Error β} {g : α → β} {xs : List α}
    (h : ∀ x ∈ xs, f x = .ok (g x)) : xs.mapM f = .ok (xs.map g) := by
  induction xs with
  | nil => rfl
  | cons x xs ih =>
      obtain ⟨hx, hxs⟩ := List.forall_mem_cons.1 h
      rw [List.mapM_cons, hx, ih hxs]
      rfl

theorem IsComplete.moveAll_eq (h : a.IsComplete) {tracked : StateSet} (htracked : ∀ t ∈ tracked, t ∈ a.states)
    (c : Char) : a.moveAll tracked c = .ok (.ofList (tracked.toList.map (a.next · c))) := by
  have hmoves : tracked.toList.mapM (a.move · c) = .ok (tracked.toList.map (a.next · c)) :=
    mapM_of_ok fun t ht => h.move_eq (htracked t ht) c
  rw [moveAll, hmoves]
  rfl

/-! ## Runs -/

/-- The state that a word leads to. -/
def nextAll (a : Automaton) (s : Expr) (word : List Char) : Expr := word.foldl a.next s

theorem IsComplete.run_eq (h : a.IsComplete) (hs : s ∈ a.states) (word : List Char) :
    a.run s word = .ok (a.nextAll s word) := by
  induction word generalizing s with
  | nil => rfl
  | cons c word ih =>
      rw [run, h.move_eq hs]
      exact ih (h.next_mem hs c)

theorem IsComplete.isMatch_eq (h : a.IsComplete) (word : List Char) :
    a.isMatch word = .ok (a.isFinal (a.nextAll a.initial word)) := by
  rw [isMatch, h.run_eq h.initial_mem]
  rfl

theorem isBuilt_lowercase : lowercaseAutomaton.IsBuilt :=
  ⟨_, _, _, _, reachable_lowercase, has_lowercase, automaton_lowercase⟩

theorem move_lowercase : lowercaseAutomaton.move lowercase.expr 'm' = .ok .epsilon := by
  have hbelow : (Interval.mk Symbol.first '`').contains 'm' = false := by decide
  have hinside : (Interval.mk 'a' 'z').contains 'm' = true := by decide
  simp [move, edges, row?, lowercaseAutomaton, bind, Except.bind, pure, Except.pure, hbelow, hinside]

end Automaton

end RegexAlgebra
