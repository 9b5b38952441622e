import RegexAlgebra.Proofs.Queries
import RegexAlgebra.Proofs.Simulation

/-! # Automata saturate the pool

The states of an automaton are closed under derivatives, and each of these was taken by some symbol of its class when
the automaton was built. So whatever is asked about the states from then on is known: derivatives by any symbol, matches
of any word, and automata of the states, which have no other states than these. Nothing is stored and nothing recorded,
whatever else was asked of the pool in between.
-/

namespace RegexAlgebra

open Pool

namespace Session

variable {α β : Type} {pool : Pool} {session : Session α} {post : α → Prop} {fails fails' : Error → Prop}

/-- The session leaves the pool as it is. It gives a value that is as wanted, or fails for a stated reason. -/
def Keeps (session : Session α) (pool : Pool) (post : α → Prop) (fails : Error → Prop) : Prop :=
  match session pool with
  | .ok a later => later = pool ∧ post a
  | .error error later => later = pool ∧ fails error

namespace Keeps

theorem pure {a : α} (h : post a) : Keeps (Pure.pure a) pool post fails := ⟨rfl, h⟩

theorem of_eq {a : α} (hrun : session pool = .ok a pool) (h : post a) : session.Keeps pool post fails := by
  unfold Keeps
  rw [hrun]
  exact ⟨rfl, h⟩

theorem of_error {error : Error} (hrun : session pool = .error error pool) (h : fails error) :
    session.Keeps pool post fails := by
  unfold Keeps
  rw [hrun]
  exact ⟨rfl, h⟩

theorem ask (question : Pool → Except Error α) :
    (Session.ask question).Keeps pool (fun _ => True) fun _ => True := by
  unfold Keeps Session.ask
  cases question pool with
  | ok a => exact ⟨rfl, trivial⟩
  | error error => exact ⟨rfl, trivial⟩

theorem mono_fails (h : session.Keeps pool post fails) (hfails : ∀ error, fails error → fails' error) :
    session.Keeps pool post fails' := by
  unfold Keeps at h ⊢
  split at h
  · exact h
  · exact ⟨h.1, hfails _ h.2⟩

theorem bind {next : α → Session β} {post' : β → Prop} (h : session.Keeps pool post fails)
    (hnext : ∀ a, post a → (next a).Keeps pool post' fails) : (session >>= next).Keeps pool post' fails := by
  unfold Keeps at h
  cases hrun : session pool with
  | ok a middle =>
      rw [hrun] at h
      obtain ⟨rfl, ha⟩ := h
      have hrest := hnext a ha
      unfold Keeps at hrest ⊢
      rw [bind_of_ok hrun]
      exact hrest
  | error error middle =>
      rw [hrun] at h
      unfold Keeps
      rw [bind_of_error hrun]
      exact h

theorem map (f : α → β) (h : session.Keeps pool post fails) : (f <$> session).Keeps pool (fun _ => True) fails := by
  rw [map_eq_pure_bind]
  exact h.bind fun _ _ => .pure trivial

theorem pool_eq (h : session.Keeps pool post fails) : (session.outcome pool).2 = pool := by
  unfold Keeps at h
  split at h <;> rename_i hrun
  · rw [outcome_of_ok hrun]
    exact h.1
  · rw [outcome_of_error hrun]
    exact h.1

/-- A session that has no reason to fail gives a value. -/
theorem returns (h : session.Keeps pool post fun _ => False) : ∃ a, session.outcome pool = (.ok a, pool) ∧ post a := by
  unfold Keeps at h
  split at h <;> rename_i hrun
  · obtain ⟨rfl, ha⟩ := h
    exact ⟨_, outcome_of_ok hrun, ha⟩
  · exact h.2.elim

end Keeps

end Session

/-! ## Saturated pools -/

/-- Derivatives of the states are known and are states again, and the states have their classes and nullability. -/
structure Pool.Saturated (pool : Pool) (states : List Expr) : Prop where
  steps : ∀ s ∈ states, ∀ c, ∃ t ∈ states, pool.Steps s c t
  classes : ∀ s ∈ states, ∃ cells, pool.classes s = .ok cells
  isNullable : ∀ s ∈ states, ∃ b, pool.isNullable s = .ok b

theorem Automaton.Explores.saturated {a : Automaton} {e : Expr} {path : Expr → List Char} {pool : Pool}
    (h : a.Explores e path pool) (hpool : pool.Sound) : pool.Saturated a.states where
  steps := fun s hs c => by
    obtain ⟨t, _, ht, hstep, _⟩ := h.exists_move hpool hs c
    exact ⟨t, ht, hstep⟩
  classes := fun s hs => by
    obtain ⟨row, _, rfl, hright⟩ := h.exists_row hs
    exact ⟨_, hright.classes_eq⟩
  isNullable := fun s hs => ⟨_, h.isFinal_eq hs⟩

/-- The limit on the number of states refused one. -/
def Exploration.Refuses (limit? : Option Nat) (error : Error) : Prop :=
  ∃ limit, limit? = some limit ∧ error = .tooManyStates limit

namespace Pool.Saturated

open Exploration (Refuses)

variable {pool : Pool} {states found : List Expr} {s t : Expr} {c : Char} {limit? : Option Nat} {fails : Error → Prop}

theorem derivative_keeps (h : pool.Saturated states) (hs : s ∈ states) (c : Char) :
    (s.derivative c).Keeps pool (· ∈ states) fails := by
  obtain ⟨t, ht, hstep⟩ := h.steps s hs c
  exact .of_eq (hstep pool (.refl pool)) ht

theorem isNullable_keeps (h : pool.Saturated states) (hs : s ∈ states) :
    (Session.ask (·.isNullable s)).Keeps pool (fun _ => True) fails := by
  obtain ⟨b, hb⟩ := h.isNullable s hs
  exact .of_eq (by rw [Session.ask, hb]) trivial

theorem residual_keeps (h : pool.Saturated states) (hs : s ∈ states) (word : List Char) :
    (s.residual word).Keeps pool (· ∈ states) fails := by
  induction word generalizing s with
  | nil => exact .pure hs
  | cons c word ih => exact (h.derivative_keeps hs c).bind fun t ht => ih ht

theorem isMatch_keeps (h : pool.Saturated states) (hs : s ∈ states) (word : List Char) :
    (s.isMatch word).Keeps pool (fun _ => True) fails :=
  (h.residual_keeps hs word).bind fun _ ht => h.isNullable_keeps ht

/-! ## Explorations -/

/-- Some of the states were found, each once, and at least so many. -/
structure Found (states : List Expr) (least : Nat) (found : List Expr) : Prop where
  subset : found ⊆ states
  nodup : found.Nodup
  least_le : least ≤ found.length

theorem Found.length_le {least : Nat} (h : Found states least found) : found.length ≤ states.length :=
  (h.nodup.subperm h.subset).length_le

theorem checkLimit_cases (limit? : Option Nat) (count : Nat) :
    Exploration.checkLimit limit? count = .ok () ∨
      ∃ error, Refuses limit? error ∧ Exploration.checkLimit limit? count = .error error := by
  cases limit? with
  | none => exact Or.inl rfl
  | some limit =>
      by_cases hlt : limit < count
      · exact Or.inr ⟨.tooManyStates limit, ⟨limit, rfl, rfl⟩, if_pos hlt⟩
      · exact Or.inl (if_neg hlt)

theorem discover_cases (limit? : Option Nat) (found : List Expr) (t : Expr) :
    t ∈ found ∧ Exploration.discover limit? found t = .ok found ∨
      t ∉ found ∧ Exploration.discover limit? found t = .ok (found ++ [t]) ∨
      ∃ error, Refuses limit? error ∧ Exploration.discover limit? found t = .error error := by
  unfold Exploration.discover
  by_cases hmem : t ∈ found
  · exact Or.inl ⟨hmem, if_pos hmem⟩
  · rw [if_neg hmem]
    rcases checkLimit_cases limit? (found.length + 1) with heq | ⟨error, hrefuses, heq⟩
    · exact Or.inr (Or.inl ⟨hmem, by rw [heq]; rfl⟩)
    · exact Or.inr (Or.inr ⟨error, hrefuses, by rw [heq]; rfl⟩)

theorem discover_keeps (ht : t ∈ states) {least : Nat} (h : Found states least found) :
    (Session.ask fun _ => Exploration.discover limit? found t).Keeps pool (Found states least) (Refuses limit?) := by
  rcases discover_cases limit? found t with ⟨_, heq⟩ | ⟨hmem, heq⟩ | ⟨error, hrefuses, heq⟩
  · exact .of_eq (by rw [Session.ask, heq]) h
  · have hnodup : (found ++ [t]).Nodup := List.nodup_append.2 ⟨h.nodup, List.nodup_singleton t,
      fun u hu t' ht' heq => hmem (List.mem_singleton.1 ht' ▸ heq ▸ hu)⟩
    have hsubset : found ++ [t] ⊆ states := List.append_subset.2 ⟨h.subset, by simpa using ht⟩
    have hleast := h.least_le
    refine .of_eq (by rw [Session.ask, heq]) ⟨hsubset, hnodup, ?_⟩
    rw [List.length_append]
    omega
  · exact .of_error (by rw [Session.ask, heq]) hrefuses

theorem expand_keeps (h : pool.Saturated states) (hs : s ∈ states) (cells : List Interval) {least : Nat}
    (hfound : Found states least found) :
    (Exploration.expand limit? s cells found).Keeps pool (fun result => Found states least result.2)
      (Refuses limit?) := by
  induction cells generalizing found with
  | nil => exact .pure hfound
  | cons cell cells ih =>
      refine (h.derivative_keeps hs cell.low).bind fun t ht => ?_
      refine (discover_keeps ht hfound).bind fun found' hfound' => ?_
      exact (ih hfound').bind fun result hresult => .pure hresult

/-- A state gets a row once, so there are turns enough if there is one more than there are states. -/
theorem exploreFrom_keeps (h : pool.Saturated states) {fuel : Nat} {rows : List Row}
    (hfound : Found states rows.length found) (hfuel : states.length < rows.length + fuel) :
    (Exploration.exploreFrom limit? fuel found rows).Keeps pool (fun _ => True) (Refuses limit?) := by
  induction fuel generalizing found rows with
  | zero =>
      have hleast := hfound.least_le
      have hlength := hfound.length_le
      omega
  | succ fuel ih =>
      unfold Exploration.exploreFrom
      cases hs : found[rows.length]? with
      | none => exact .pure trivial
      | some s =>
          have hmem : s ∈ states := hfound.subset (List.mem_of_getElem? hs)
          have hlt : rows.length < found.length := (List.getElem?_eq_some_iff.1 hs).1
          have hmore : Found states (rows.length + 1) found := ⟨hfound.subset, hfound.nodup, hlt⟩
          obtain ⟨cells, hcells⟩ := h.classes s hmem
          have hask : (Session.ask (·.classes s)).Keeps pool (fun _ => True) (Refuses limit?) :=
            .of_eq (by rw [Session.ask, hcells]) trivial
          refine hask.bind fun cells _ => (h.expand_keeps hmem cells hmore).bind fun result hresult => ?_
          refine (h.isNullable_keeps hmem).bind fun isFinal _ => ih ?_ ?_
          · rwa [List.length_append, List.length_singleton]
          · rw [List.length_append, List.length_singleton]
            omega

theorem automaton_keeps (h : pool.Saturated states) (hlength : states.length < handleBound) (hs : s ∈ states)
    (settings : Settings) : (s.automaton settings).Keeps pool (fun _ => True) (Refuses settings.limit?) := by
  have hlimit : (Session.ask fun _ => Exploration.checkLimit settings.limit? 1).Keeps pool (fun _ => True)
      (Refuses settings.limit?) := by
    rcases checkLimit_cases settings.limit? 1 with heq | ⟨error, hrefuses, heq⟩
    · exact .of_eq (by rw [Session.ask, heq]) trivial
    · exact .of_error (by rw [Session.ask, heq]) hrefuses
  have hfound : Found states ([] : List Row).length [s] := ⟨by simpa using hs, List.nodup_singleton s, Nat.zero_le _⟩
  refine hlimit.bind fun _ _ => (h.exploreFrom_keeps hfound (by simpa using hlength)).bind fun rows _ => ?_
  exact .pure trivial

/-- Without a limit there is nothing that refuses it. -/
theorem automaton_returns (h : pool.Saturated states) (hlength : states.length < handleBound) (hs : s ∈ states)
    {settings : Settings} (hlimit : settings.limit? = none) :
    ∃ a, (s.automaton settings).outcome pool = (.ok a, pool) := by
  have hkeeps : (s.automaton settings).Keeps pool (fun _ => True) fun _ => False := by
    refine (h.automaton_keeps hlength hs settings).mono_fails fun error hrefuses => ?_
    obtain ⟨limit, hsome, _⟩ := hrefuses
    rw [hlimit] at hsome
    cases hsome
  obtain ⟨a, hrun, _⟩ := hkeeps.returns
  exact ⟨a, hrun⟩

end Pool.Saturated

/-! ## Automata are saturated -/

/-- An exploration that ends has turned each state into a row, in a turn of its own. -/
theorem Exploration.length_lt_of_exploreFrom {limit? : Option Nat} {fuel : Nat} {states : List Expr}
    {rows rows' : List Row} {pool later : Pool} (hrun : exploreFrom limit? fuel states rows pool = .ok rows' later) :
    rows'.length < rows.length + fuel := by
  induction fuel generalizing states rows pool with
  | zero => cases hrun
  | succ fuel ih =>
      unfold exploreFrom at hrun
      cases hs : states[rows.length]? with
      | none =>
          rw [hs] at hrun
          cases hrun
          omega
      | some s =>
          rw [hs] at hrun
          obtain ⟨cells, _, _, hrun⟩ := ok_of_bind hrun
          obtain ⟨⟨edges, states'⟩, _, _, hrun⟩ := ok_of_bind hrun
          obtain ⟨isFinal, _, _, hrun⟩ := ok_of_bind hrun
          have hlength := ih hrun
          rw [List.length_append, List.length_singleton] at hlength
          omega

namespace Expr

variable {pool built later : Pool} {e : Expr} {settings : Settings} {a : Automaton}

theorem length_states_lt (hrun : e.automaton settings pool = .ok a built) : a.states.length < handleBound := by
  obtain ⟨_, middle, _, hrun⟩ := ok_of_bind hrun
  obtain ⟨rows, later, hexplore, hrun⟩ := ok_of_bind hrun
  cases hrun
  have hlength := Exploration.length_lt_of_exploreFrom hexplore
  simpa [Automaton.states] using hlength

/-- The states of an automaton that was built are saturated from then on. -/
theorem automaton_saturated (h : pool.Sound) (he : pool.Has e)
    (hrun : (e.automaton settings).outcome pool = (.ok a, built)) (hlater : built.Later later) :
    later.Saturated a.states := by
  obtain ⟨hgrows, path, hexplores⟩ := (e.automaton_ends h he settings).of_ok (Session.ok_of_outcome hrun)
  have hbuilt := hgrows.sound h
  exact (hexplores.mono (hlater.remembers hbuilt)).saturated ((hlater.grows hbuilt).sound hbuilt)

end Expr

/-- On every pool with a history, questions store no node, whether they are answered or fail: nullability and the
character classes, although they are put together by the constructors, and all that is read off the nodes.

Once an automaton is built for an expression, no later question about one of its states changes the pool at all. The
derivative by any symbol is a state of the automaton, any word is matched or not, and an automaton is built for the
state unless a limit refuses it. -/
theorem questions_store_nothing {pool : Pool} (h : pool.Reachable) :
    (∀ e : Expr, e.nullability.Reads (pool.nullable e) pool ∧ e.isNullable.Reads (pool.isNullable e) pool ∧
      e.characterClasses.Reads (pool.classes e) pool) ∧
    (∀ e, ((Call.nullable e).run pool).2 = pool ∧ ((Call.classes e).run pool).2 = pool ∧
      ((Session.ask (·.isNullable e)).outcome pool).2 = pool ∧
      ((Session.ask fun pool => .ok (pool.isAll e)).outcome pool).2 = pool ∧
      ((Session.ask fun pool => .ok (pool.containsAnchor e)).outcome pool).2 = pool) ∧
    ∀ e settings a built, pool.Has e → (e.automaton settings).outcome pool = (.ok a, built) →
      ∀ later, built.Later later → ∀ s ∈ a.states,
        (∀ c, ∃ t ∈ a.states, (s.derivative c).outcome later = (.ok t, later)) ∧
        (∀ word, ∃ b, (s.isMatch word).outcome later = (.ok b, later)) ∧
        ∀ settings : Settings, ((s.automaton settings).outcome later).2 = later ∧
          (settings.limit? = none → ∃ a, (s.automaton settings).outcome later = (.ok a, later)) := by
  have hfollows := h.followsPlans
  refine ⟨fun e => ⟨?_, ?_, ?_⟩, fun e => ⟨?_, ?_, ?_, ?_, ?_⟩, ?_⟩
  · exact e.nullability_reads h.sound hfollows (.refl pool)
  · exact e.isNullable_reads h.sound hfollows (.refl pool)
  · exact e.characterClasses_reads h.sound hfollows (.refl pool)
  · exact ((Session.Keeps.ask _).map Answer.expr).pool_eq
  · exact ((Session.Keeps.ask _).map Answer.cells).pool_eq
  · exact (Session.Keeps.ask _).pool_eq
  · exact (Session.Keeps.ask _).pool_eq
  · exact (Session.Keeps.ask _).pool_eq
  · intro e settings a built he hrun later hlater s hs
    have hsaturated := Expr.automaton_saturated h.sound he hrun hlater
    have hlength := Expr.length_states_lt (Session.ok_of_outcome hrun)
    refine ⟨fun c => ?_, fun word => ?_, fun settings => ⟨?_, ?_⟩⟩
    · obtain ⟨t, hrun, ht⟩ := (hsaturated.derivative_keeps hs c).returns
      exact ⟨t, ht, hrun⟩
    · obtain ⟨b, hrun, _⟩ := (hsaturated.isMatch_keeps hs word).returns
      exact ⟨b, hrun⟩
    · exact (hsaturated.automaton_keeps hlength hs settings).pool_eq
    · exact hsaturated.automaton_returns hlength hs

/-- One lower case letter is not nullable, and its automaton has no more derivatives to take. -/
theorem questions_about_lowercase :
    lowercase.expr.nullability.Reads (.ok .empty) lowercase.pool ∧
      (∃ t ∈ lowercaseAutomaton.states,
        (lowercase.expr.derivative 'q').outcome lowercase.pool = (.ok t, lowercase.pool)) ∧
      ∃ a, (Expr.epsilon.automaton {}).outcome lowercase.pool = (.ok a, lowercase.pool) := by
  obtain ⟨hreads, _, hsaturated⟩ := questions_store_nothing reachable_lowercase
  have hnullable : lowercase.pool.nullable lowercase.expr = .ok .empty := by
    rw [nullable, isNullable_eq, node_lowercase]
    rfl
  have hstates := hsaturated _ _ _ _ has_lowercase automaton_lowercase _ .refl
  obtain ⟨hderivative, _⟩ := hstates lowercase.expr (by simp [lowercaseAutomaton, Automaton.states])
  obtain ⟨_, _, hautomaton⟩ := hstates .epsilon (by simp [lowercaseAutomaton, Automaton.states])
  exact ⟨hnullable ▸ (hreads _).1, hderivative 'q', (hautomaton {}).2 rfl⟩

end RegexAlgebra
