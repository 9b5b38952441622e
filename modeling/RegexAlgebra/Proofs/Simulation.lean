import Mathlib.Order.Lattice.Nat
import RegexAlgebra.Proofs.Histories

/-! # Automata simulate derivatives

The automaton of an expression goes from state to state as the derivatives go from expression to expression, handle for
handle and for every symbol, although the exploration takes a derivative by one symbol of each class only. Its states
are the residuals of the expression, and stand in the order of the length of the shortest words that lead to them.
-/

namespace RegexAlgebra

open Pool

namespace Automaton

/-- The length of the shortest word that leads from the initial state to `s`. -/
noncomputable def distance (a : Automaton) (s : Expr) : Nat :=
  sInf {n | ∃ word, word.length = n ∧ a.run a.initial word = .ok s}

variable {a : Automaton} {pool later : Pool} {e s t : Expr} {c : Char} {word : List Char} {path : Expr → List Char}

namespace Explores

theorem mono (h : a.Explores e path pool) (hlater : Remembers pool later) : a.Explores e path later where
  initial_eq := h.initial_eq
  discovered := h.discovered.mono hlater
  rows_right := fun row hrow => (h.rows_right row hrow).mono h.discovered hlater (.refl path a.states)

/-! ## One symbol -/

theorem exists_row (h : a.Explores e path pool) (hs : s ∈ a.states) :
    ∃ row, a.row? s = some row ∧ row.state = s ∧ Exploration.RowRight pool path a.states row := by
  obtain ⟨row, hrow, hstate⟩ := List.mem_map.1 hs
  have hfound : (a.row? s).isSome := List.find?_isSome.2 ⟨row, hrow, by simpa using hstate⟩
  obtain ⟨found, heq⟩ := Option.isSome_iff_exists.1 hfound
  have hfoundstate := List.find?_some heq
  exact ⟨found, heq, by simpa using hfoundstate, h.rows_right found (List.mem_of_find?_eq_some heq)⟩

/-- From each state each symbol leads to the derivative, which is a state at most one symbol further away. -/
theorem exists_move (h : a.Explores e path pool) (hpool : pool.Sound) (hs : s ∈ a.states) (c : Char) :
    ∃ t, a.move s c = .ok t ∧ t ∈ a.states ∧ pool.Steps s c t ∧ (path t).length ≤ (path s).length + 1 := by
  obtain ⟨row, hrow, hstate, hright⟩ := h.exists_row hs
  subst hstate
  have hhas := h.discovered.has _ hs
  have hpartition := isPartition_of_classes hpool hhas hright.classes_eq
  -- The classes cover the alphabet, so an edge holds the symbol.
  obtain ⟨cell, hcell, hc⟩ := Partition.exists_mem_of_isPartition hpartition c
  obtain ⟨edge, hedge, hinterval⟩ := List.mem_map.1 hcell
  have hfound : (row.edges.find? (·.interval.contains c)).isSome :=
    List.find?_isSome.2 ⟨edge, hedge, by rw [hinterval]; exact Interval.contains_iff.2 hc⟩
  obtain ⟨found, heq⟩ := Option.isSome_iff_exists.1 hfound
  have hmem := List.mem_of_find?_eq_some heq
  have hcontains : c ∈ found.interval := by
    have htrue := List.find?_some heq
    exact Interval.contains_iff.1 htrue
  have hlow : found.interval.low ∈ found.interval := ⟨Char.le_refl _, Char.le_trans hcontains.1 hcontains.2⟩
  have halike : pool.Alike row.state found.interval.low c :=
    Or.inr ⟨_, found.interval, hright.classes_eq, List.mem_map_of_mem hmem, hlow, hcontains⟩
  have hmove : a.move row.state c = .ok found.target := by
    simp only [move, edges, hrow, bind, Except.bind, heq]
    rfl
  exact ⟨found.target, hmove, hright.edges.target_mem found hmem,
    (hright.edges.steps found hmem).alike hpool hhas halike, hright.path_le found hmem⟩

theorem isFinal_eq (h : a.Explores e path pool) (hs : s ∈ a.states) : pool.isNullable s = .ok (a.isFinal s) := by
  obtain ⟨row, hrow, hstate, hright⟩ := h.exists_row hs
  simp only [isFinal, hrow]
  rw [← hstate]
  exact hright.isNullable_eq

/-! ## Words -/

theorem exists_run (h : a.Explores e path pool) (hpool : pool.Sound) (hs : s ∈ a.states) (word : List Char) :
    ∃ t, a.run s word = .ok t ∧ t ∈ a.states ∧ pool.Leads s word t ∧
      (path t).length ≤ (path s).length + word.length := by
  induction word generalizing s with
  | nil => exact ⟨s, rfl, hs, .nil s, Nat.le_refl _⟩
  | cons c word ih =>
      obtain ⟨t, hmove, ht, hstep, hle⟩ := h.exists_move hpool hs c
      obtain ⟨u, hrun, hu, hleads, hle'⟩ := ih ht
      refine ⟨u, ?_, hu, .cons hstep hleads, ?_⟩
      · rw [run, hmove]
        exact hrun
      · rw [List.length_cons]
        omega

/-- The path of a state is a shortest word that leads to it. -/
theorem distance_eq (h : a.Explores e path pool) (hpool : pool.Sound) (hs : s ∈ a.states) :
    a.distance s = (path s).length := by
  have he : e ∈ a.states := List.mem_of_head? h.discovered.head
  have hpath : a.run a.initial (path s) = .ok s := by
    obtain ⟨t, hrun, _, hleads, _⟩ := h.exists_run hpool he (path s)
    have hsame := (hleads.residual_eq (.refl pool)).symm.trans ((h.discovered.leads s hs).residual_eq (.refl pool))
    cases hsame
    rw [h.initial_eq]
    exact hrun
  have hle : ∀ word, a.run a.initial word = .ok s → (path s).length ≤ word.length := by
    intro word hword
    obtain ⟨t, hrun, _, _, hlength⟩ := h.exists_run hpool he word
    rw [h.initial_eq, hrun] at hword
    cases hword
    simpa [h.discovered.start] using hlength
  have hmem := Nat.sInf_mem (s := {n | ∃ word, word.length = n ∧ a.run a.initial word = .ok s})
    ⟨_, path s, rfl, hpath⟩
  obtain ⟨word, hlength, hword⟩ := hmem
  refine Nat.le_antisymm (Nat.sInf_le ⟨path s, rfl, hpath⟩) ?_
  exact (hle word hword).trans_eq hlength

end Explores

/-- On the pool the automaton does what the derivatives of the expression do. -/
structure Simulates (a : Automaton) (e : Expr) (pool : Pool) : Prop where
  initial_eq : a.initial = e
  /-- A run ends in the handle of the residual. -/
  run_eq : ∀ word, ∃ d, a.run a.initial word = .ok d ∧ (e.residual word).outcome pool = (.ok d, pool)
  head_eq : a.states.head? = some e
  nodup : a.states.Nodup
  /-- The states are the residuals. -/
  mem_states : ∀ s, s ∈ a.states ↔ ∃ word, (e.residual word).outcome pool = (.ok s, pool)
  sorted : a.states.Pairwise fun s t => a.distance s ≤ a.distance t
  mem_finals : ∀ s, s ∈ a.finals ↔ s ∈ a.states ∧ pool.isNullable s = .ok true
  isMatch_eq : ∀ word, ∃ b, a.isMatch word = .ok b ∧ (e.isMatch word).outcome pool = (.ok b, pool)

theorem Explores.simulates (h : a.Explores e path pool) (hpool : pool.Sound) : a.Simulates e pool := by
  have he : e ∈ a.states := List.mem_of_head? h.discovered.head
  have hrun : ∀ word, ∃ d, a.run a.initial word = .ok d ∧ d ∈ a.states ∧ e.residual word pool = .ok d pool := by
    intro word
    obtain ⟨d, hword, hd, hleads, _⟩ := h.exists_run hpool he word
    exact ⟨d, h.initial_eq ▸ hword, hd, hleads.residual_eq (.refl pool)⟩
  refine ⟨h.initial_eq, fun word => ?_, h.discovered.head, h.discovered.nodup, fun s => ?_, ?_, fun s => ?_,
    fun word => ?_⟩
  · obtain ⟨d, hword, _, hresidual⟩ := hrun word
    exact ⟨d, hword, Session.outcome_of_ok hresidual⟩
  · constructor
    · intro hs
      exact ⟨path s, Session.outcome_of_ok ((h.discovered.leads s hs).residual_eq (.refl pool))⟩
    · intro hparts
      obtain ⟨word, hword⟩ := hparts
      obtain ⟨d, _, hd, hresidual⟩ := hrun word
      rw [Session.outcome_of_ok hresidual] at hword
      cases hword
      exact hd
  · refine h.discovered.sorted.imp_of_mem fun hs ht hle => ?_
    rwa [h.distance_eq hpool hs, h.distance_eq hpool ht]
  · rw [finals, SortedSet.mem_ofList, List.mem_filter]
    refine and_congr_right fun hs => ?_
    rw [h.isFinal_eq hs, Except.ok.injEq]
  · obtain ⟨d, hword, hd, hresidual⟩ := hrun word
    refine ⟨a.isFinal d, ?_, Session.outcome_of_ok ?_⟩
    · rw [isMatch, hword]
      rfl
    · show EStateM.bind (e.residual word) (fun d => Session.ask (·.isNullable d)) pool = _
      simp only [EStateM.bind, hresidual, Session.ask, h.isFinal_eq hd]

end Automaton

/-! ## Automata of expressions -/

theorem Expr.residual_repeats {pool : Pool} {e : Expr} (h : pool.Sound) (he : pool.Has e) (word : List Char) :
    Session.Repeats (e.residual word) (e.residual word) pool := by
  induction word generalizing pool e with
  | nil => exact .pure e pool
  | cons c word ih =>
      apply (derivative_repeats h he (Or.inl rfl) .refl).bind
      intro d middle hrun
      obtain ⟨hmiddle, hd⟩ := (derivative_ends h he c .refl).of_ok hrun
      exact ih (hmiddle.sound h) hd.has

theorem Expr.automaton_run_of_checkLimit {pool : Pool} {e : Expr} {settings : Settings}
    (hlimit : Exploration.checkLimit settings.limit? 1 = .ok ()) :
    e.automaton settings pool =
      match Exploration.exploreFrom settings.limit? handleBound [e] [] pool with
      | .ok rows later => .ok ⟨e, rows, settings.strategyOrDefault⟩ later
      | .error error later => .error error later := by
  have hask : Session.ask (fun _ => Exploration.checkLimit settings.limit? 1) pool = .ok () pool := by
    rw [Session.ask, hlimit]
  refine (bind_of_ok hask).trans ?_
  cases hrun : Exploration.exploreFrom settings.limit? handleBound [e] [] pool with
  | ok rows later => exact bind_of_ok hrun
  | error error later => exact bind_of_error hrun

theorem Expr.automaton_run {pool : Pool} {e : Expr} {settings : Settings} (hlimit : settings.limit? = none) :
    e.automaton settings pool =
      match Exploration.exploreFrom none handleBound [e] [] pool with
      | .ok rows later => .ok ⟨e, rows, settings.strategyOrDefault⟩ later
      | .error error later => .error error later := by
  rw [automaton_run_of_checkLimit (by rw [hlimit]; rfl), hlimit]

/-- On every pool with a history, an automaton that is built for an expression simulates the derivatives of it, then and
whatever is asked of the pool later. Derivatives that were taken before it was built have led to its states as well. -/
theorem Expr.automaton_simulates_derivatives {pool built : Pool} {e : Expr} {settings : Settings} {a : Automaton}
    (h : pool.Reachable) (he : pool.Has e) (hrun : (e.automaton settings).outcome pool = (.ok a, built)) :
    (∀ later, built.Later later → a.Simulates e later) ∧
      ∀ earlier middle word d, earlier.Reachable → earlier.Has e →
        (e.residual word).outcome earlier = (.ok d, middle) → middle.Later pool → a.run a.initial word = .ok d := by
  have hends := (e.automaton_ends h.sound he settings).of_ok (Session.ok_of_outcome hrun)
  obtain ⟨hgrows, path, hexplores⟩ := hends
  have hbuilt : built.Sound := hgrows.sound h.sound
  constructor
  · intro later hlater
    have hsound := (hlater.grows hbuilt).sound hbuilt
    exact (hexplores.mono (hlater.remembers hbuilt)).simulates hsound
  · intro earlier middle word d hearlier hhas hresidual hmiddle
    have hrepeats := (e.residual_repeats hearlier.sound hhas word).of_ok (Session.ok_of_outcome hresidual)
    have hends := (residual_ends hearlier.sound hhas word).of_ok (Session.ok_of_outcome hresidual)
    have hsound : middle.Sound := hends.1.sound hearlier.sound
    have hagain := hrepeats built ((hmiddle.remembers hsound).trans (hgrows.remembers h.sound))
    obtain ⟨d', hword, houtcome⟩ := (hexplores.simulates hbuilt).run_eq word
    rw [Session.outcome_of_ok hagain] at houtcome
    cases houtcome
    exact hword

/-- The automaton of one lower case letter: it leads to the empty word, and everything else to nothing. -/
def lowercaseAutomaton : Automaton where
  initial := lowercase.expr
  rows := [
    ⟨lowercase.expr, false,
      [⟨⟨Symbol.first, '`'⟩, .empty⟩, ⟨⟨'a', 'z'⟩, .epsilon⟩, ⟨⟨'{', Symbol.last⟩, .empty⟩]⟩,
    ⟨.empty, false, [⟨.full, .empty⟩]⟩,
    ⟨.epsilon, true, [⟨.full, .empty⟩]⟩]
  strategy := .atomicSweep

theorem exploreFrom_lowercase (fuel : Nat) :
    Exploration.exploreFrom none (fuel + 1 + 1 + 1 + 1) [lowercase.expr] [] lowercase.pool =
      .ok lowercaseAutomaton.rows lowercase.pool := by
  have hleaves := settles_lowercase.sound.leaves
  have hn : lowercase.pool.node ⟨4⟩ = .range ⟨'a', 'z'⟩ := expr_lowercase ▸ node_lowercase
  have hcells : (Interval.mk 'a' 'z').cells = [⟨Symbol.first, '`'⟩, ⟨'a', 'z'⟩, ⟨'{', Symbol.last⟩] := by
    decide +kernel
  -- What is read off the nodes of the three states.
  have hclasses : lowercase.pool.classes ⟨4⟩ = .ok [⟨Symbol.first, '`'⟩, ⟨'a', 'z'⟩, ⟨'{', Symbol.last⟩] := by
    rw [classes_eq, hn, nodeClasses, hcells]
  have hclasses₀ : lowercase.pool.classes .empty = .ok [.full] := by rw [classes_eq, hleaves.1]; rfl
  have hclasses₁ : lowercase.pool.classes .epsilon = .ok [.full] := by rw [classes_eq, hleaves.2.1]; rfl
  have hnullable : lowercase.pool.isNullable ⟨4⟩ = .ok false := by rw [isNullable_eq, hn]; rfl
  have hnullable₀ : lowercase.pool.isNullable .empty = .ok false := by rw [isNullable_eq, hleaves.1]; rfl
  have hnullable₁ : lowercase.pool.isNullable .epsilon = .ok true := by rw [isNullable_eq, hleaves.2.1]; rfl
  have hstep : ∀ c b, (Interval.mk 'a' 'z').contains c = b →
      Expr.derivative ⟨4⟩ c lowercase.pool = .ok (.ofBool b) lowercase.pool := by
    intro c b hc
    subst hc
    rw [Expr.derivative_run, hn]
    rfl
  have hstep₀ : ∀ c, Expr.empty.derivative c lowercase.pool = .ok .empty lowercase.pool := by
    intro c
    rw [Expr.derivative_run, hleaves.1]
    rfl
  have hstep₁ : ∀ c, Expr.epsilon.derivative c lowercase.pool = .ok .empty lowercase.pool := by
    intro c
    rw [Expr.derivative_run, hleaves.2.1]
    rfl
  have hbelow := hstep Symbol.first false (by decide)
  have hinside := hstep 'a' true (by decide)
  have habove := hstep '{' false (by decide)
  have hnew : Expr.empty ≠ ⟨4⟩ ∧ Expr.epsilon ≠ ⟨4⟩ ∧ Expr.epsilon ≠ Expr.empty := by decide
  simp [Exploration.exploreFrom, Exploration.expand, Exploration.discover, Exploration.checkLimit, Session.ask, bind,
    EStateM.bind, pure, EStateM.pure, Except.pure, Except.bind, Expr.ofBool, lowercaseAutomaton, Interval.full,
    expr_lowercase,
    hclasses, hclasses₀, hclasses₁, hnullable, hnullable₀, hnullable₁, hbelow, hinside, habove, hstep₀, hstep₁, hnew]

theorem automaton_lowercase :
    (lowercase.expr.automaton {}).outcome lowercase.pool = (.ok lowercaseAutomaton, lowercase.pool) := by
  have hexplore : Exploration.exploreFrom none handleBound [lowercase.expr] [] lowercase.pool =
      .ok lowercaseAutomaton.rows lowercase.pool := exploreFrom_lowercase 4294967292
  apply Session.outcome_of_ok
  rw [Expr.automaton_run rfl, hexplore]
  rfl

theorem lowercaseAutomaton_simulates : lowercaseAutomaton.Simulates lowercase.expr lowercase.pool :=
  (Expr.automaton_simulates_derivatives reachable_lowercase has_lowercase automaton_lowercase).1 lowercase.pool .refl

end RegexAlgebra
