import RegexAlgebra.Automaton.Exploration
import RegexAlgebra.Proofs.Replay

/-! # What an exploration finds

The invariant of an exploration ties the states discovered so far to the words that lead to them. To each state belongs
a path, a word whose residual it is; the paths get no shorter along the states, and those of the states still waiting
are at most one symbol longer than that of the next one to be expanded. A row says what the derivatives of its state
are at the low bounds of the character classes.

Whatever holds here of derivatives holds in every pool that remembers the one reached, so it is not lost as the
exploration goes on.
-/

namespace RegexAlgebra

open Pool

namespace Pool

variable {pool later : Pool} {e s t : Expr} {c : Char} {word : List Char}

/-- The derivative is known: it is taken at once, and leaves the pool as it is. -/
def Steps (pool : Pool) (s : Expr) (c : Char) (t : Expr) : Prop :=
  ∀ later, Remembers pool later → s.derivative c later = .ok t later

/-- The residual is known: it is reached by known derivatives. -/
inductive Leads (pool : Pool) : Expr → List Char → Expr → Prop
  | nil (e : Expr) : Leads pool e [] e
  | cons {e s t : Expr} {c : Char} {word : List Char} : pool.Steps e c s → Leads pool s word t →
      Leads pool e (c :: word) t

theorem Steps.mono (h : pool.Steps s c t) (hlater : Remembers pool later) : later.Steps s c t :=
  fun last hlast => h last (hlater.trans hlast)

theorem Leads.mono (h : pool.Leads e word s) (hlater : Remembers pool later) : later.Leads e word s := by
  induction h with
  | nil e => exact .nil e
  | cons hstep _ ih => exact .cons (hstep.mono hlater) ih

theorem Leads.snoc (h : pool.Leads e word s) (hstep : pool.Steps s c t) : pool.Leads e (word ++ [c]) t := by
  induction h with
  | nil e => exact .cons hstep (.nil t)
  | cons hfirst _ ih => exact .cons hfirst (ih hstep)

theorem Leads.residual_eq (h : pool.Leads e word s) (hlater : Remembers pool later) :
    e.residual word later = .ok s later := by
  induction h with
  | nil e => rfl
  | cons hstep _ ih => exact (bind_of_ok (hstep later hlater)).trans ih

/-- A derivative that was taken is known from then on. -/
theorem steps_ends (h : pool.Sound) (hs : pool.Has s) (c : Char) :
    Session.Ends (s.derivative c) pool (fun t later => later.Has t ∧ later.Steps s c t) fun _ => True := by
  have hrepeats := Expr.derivative_repeats h hs (Or.inl rfl : pool.Alike s c c) .refl
  have hends := (Expr.derivative_ends h hs c .refl).with_run
  refine (hends.mono fun t later _ ht => ?_).mono_fails fun _ _ => trivial
  exact ⟨ht.2.has, hrepeats.of_ok ht.1⟩

/-- What is known of one symbol is known of all symbols of its class. -/
theorem Steps.alike {d : Char} (h : pool.Steps s c t) (hsound : pool.Sound) (hs : pool.Has s)
    (hcd : pool.Alike s c d) : pool.Steps s d t :=
  (Expr.derivative_repeats hsound hs hcd .refl).of_ok (h pool (.refl pool))

theorem Extends.classes_eq (hext : Extends pool later) (he : pool.Has e) : later.classes e = pool.classes e := by
  induction e using operandInduction pool with
  | step e ih =>
      rw [Pool.classes_eq, Pool.classes_eq, hext.node_eq e he]
      cases hn : pool.node e with
      | binary op l r =>
          have hl : l ∈ (pool.node e).operands := by simp [hn, Node.operands]
          have hr : r ∈ (pool.node e).operands := by simp [hn, Node.operands]
          have hnullable := hext.isNullable_eq (he.operand hl)
          cases op <;> simp only [nodeClasses, bothClasses, ih l hl (he.operand hl), ih r hr (he.operand hr), hnullable]
      | unary op s =>
          have hs : s ∈ (pool.node e).operands := by simp [hn, Node.operands]
          exact ih s hs (he.operand hs)
      | _ => rfl

end Pool

namespace Exploration

variable {pool later : Pool} {e s t : Expr} {c : Char} {word : List Char} {path path' : Expr → List Char}
  {states states' : List Expr} {limit? : Option Nat} {bound : Nat}

/-! ## States and their paths -/

/-- The states discovered so far, each with a word that leads to it. -/
structure Discovered (pool : Pool) (e : Expr) (path : Expr → List Char) (states : List Expr) : Prop where
  start : path e = []
  head : states.head? = some e
  nodup : states.Nodup
  has : ∀ s ∈ states, pool.Has s
  leads : ∀ s ∈ states, pool.Leads e (path s) s
  sorted : states.Pairwise fun s t => (path s).length ≤ (path t).length

theorem discovered_start (he : pool.Has e) : Discovered pool e (fun _ => []) [e] where
  start := rfl
  head := rfl
  nodup := List.nodup_singleton e
  has := fun s hs => List.mem_singleton.1 hs ▸ he
  leads := fun s hs => by
    rw [List.mem_singleton.1 hs]
    exact .nil e
  sorted := List.pairwise_singleton _ e

theorem Discovered.mono (h : Discovered pool e path states) (hlater : Remembers pool later) :
    Discovered later e path states where
  start := h.start
  head := h.head
  nodup := h.nodup
  has := fun s hs => hlater.has (h.has s hs)
  leads := fun s hs => (h.leads s hs).mono hlater
  sorted := h.sorted

/-- A state that is new joins with a path that is as long as any. -/
theorem Discovered.add (h : Discovered pool e path states) (hnew : t ∉ states) (ht : pool.Has t)
    (hleads : pool.Leads e word t) (hlength : ∀ s ∈ states, (path s).length ≤ word.length) :
    Discovered pool e (Function.update path t word) (states ++ [t]) := by
  have hold : ∀ s ∈ states, Function.update path t word s = path s := by
    intro s hs
    have hne : s ≠ t := fun heq => hnew (heq ▸ hs)
    exact Function.update_of_ne hne _ _
  have he : e ∈ states := List.mem_of_head? h.head
  refine ⟨(hold e he).trans h.start, ?_, ?_, ?_, ?_, ?_⟩
  · rw [List.head?_append, h.head]
    rfl
  · exact List.nodup_append.2 ⟨h.nodup, List.nodup_singleton t, fun s hs t' ht' heq =>
      hnew (List.mem_singleton.1 ht' ▸ heq ▸ hs)⟩
  · intro s hs
    rcases List.mem_append.1 hs with hs | hs
    · exact h.has s hs
    · exact List.mem_singleton.1 hs ▸ ht
  · intro s hs
    rcases List.mem_append.1 hs with hs | hs
    · rw [hold s hs]
      exact h.leads s hs
    · rw [List.mem_singleton.1 hs, Function.update_self]
      exact hleads
  · rw [List.pairwise_append]
    refine ⟨h.sorted.imp_of_mem fun hs ht hle => ?_, List.pairwise_singleton _ t, fun s hs t' ht' => ?_⟩
    · rw [hold _ hs, hold _ ht]
      exact hle
    · rw [hold s hs, List.mem_singleton.1 ht', Function.update_self]
      exact hlength s hs

/-- The states found in the end go on from those found before, whose paths they keep. -/
structure Continues (path path' : Expr → List Char) (states states' : List Expr) : Prop where
  states_prefix : states <+: states'
  path_eq : ∀ s ∈ states, path' s = path s

theorem Continues.refl (path : Expr → List Char) (states : List Expr) : Continues path path states states :=
  ⟨List.prefix_rfl, fun _ _ => rfl⟩

theorem Continues.trans {path'' : Expr → List Char} {states'' : List Expr} (h : Continues path path' states states')
    (h' : Continues path' path'' states' states'') : Continues path path'' states states'' :=
  ⟨h.states_prefix.trans h'.states_prefix, fun s hs =>
    (h'.path_eq s (h.states_prefix.subset hs)).trans (h.path_eq s hs)⟩

/-- To discover a target of a state that is being expanded keeps the invariant. -/
theorem discover_spec (h : Discovered pool e path states) (ht : pool.Has t) (hs : s ∈ states)
    (hstep : pool.Steps s c t) (hlength : ∀ u ∈ states, (path u).length ≤ (path s).length + 1)
    (hrun : discover limit? states t = .ok states') :
    ∃ path', Discovered pool e path' states' ∧ Continues path path' states states' ∧ t ∈ states' ∧
      ∀ u ∈ states', (path' u).length ≤ (path' s).length + 1 := by
  unfold discover at hrun
  by_cases hmem : t ∈ states
  · rw [if_pos hmem] at hrun
    cases hrun
    exact ⟨path, h, .refl path states, hmem, hlength⟩
  · rw [if_neg hmem] at hrun
    cases hlimit : checkLimit limit? (states.length + 1) with
    | error error =>
        rw [hlimit] at hrun
        cases hrun
    | ok _ =>
        rw [hlimit] at hrun
        cases hrun
        have hword : (path s ++ [c]).length = (path s).length + 1 := by simp
        have hold : ∀ u ∈ states, Function.update path t (path s ++ [c]) u = path u := by
          intro u hu
          have hne : u ≠ t := fun heq => hmem (heq ▸ hu)
          exact Function.update_of_ne hne _ _
        refine ⟨Function.update path t (path s ++ [c]), ?_, ⟨List.prefix_append states [t], hold⟩, by simp, ?_⟩
        · exact h.add hmem ht ((h.leads s hs).snoc hstep) (by rwa [hword])
        · intro u hu
          rw [hold s hs]
          rcases List.mem_append.1 hu with hu | hu
          · rw [hold u hu]
            exact hlength u hu
          · rw [List.mem_singleton.1 hu, Function.update_self, hword]

/-! ## Rows -/

/-- Over each cell there is an edge to the derivative at its low bound, which is one of the states. -/
structure Edges (pool : Pool) (s : Expr) (states : List Expr) (cells : List Interval) (edges : List Edge) : Prop where
  cells_eq : edges.map (·.interval) = cells
  steps : ∀ edge ∈ edges, pool.Steps s edge.interval.low edge.target
  target_mem : ∀ edge ∈ edges, edge.target ∈ states

theorem Edges.mono {cells : List Interval} {edges : List Edge} (h : Edges pool s states cells edges)
    (hlater : Remembers pool later) (hstates : states ⊆ states') : Edges later s states' cells edges where
  cells_eq := h.cells_eq
  steps := fun edge hedge => (h.steps edge hedge).mono hlater
  target_mem := fun edge hedge => hstates (h.target_mem edge hedge)

theorem expand_ends {cells : List Interval} (hpool : pool.Sound) (h : Discovered pool e path states) (hs : s ∈ states)
    (hlength : ∀ u ∈ states, (path u).length ≤ (path s).length + 1) :
    Session.Ends (expand limit? s cells states) pool
      (fun result later => Edges later s result.2 cells result.1 ∧
        ∃ path', Discovered later e path' result.2 ∧ Continues path path' states result.2 ∧
          ∀ u ∈ result.2, (path' u).length ≤ (path' s).length + 1) fun _ => True := by
  induction cells generalizing pool path states with
  | nil =>
      refine .pure ⟨⟨rfl, ?_, ?_⟩, path, h, .refl path states, hlength⟩
      · intro edge hedge
        cases hedge
      · intro edge hedge
        cases hedge
  | cons cell cells ih =>
      refine (steps_ends hpool (h.has s hs) cell.low).bind fun t middle hmiddle ht => ?_
      have hsound := hmiddle.sound hpool
      have hmono := h.mono (hmiddle.remembers hpool)
      refine ((Session.ends_ask (fun _ => discover limit? states t) middle).mono_fails fun _ _ => trivial).bind
        fun states₁ pool₁ _ hask => ?_
      obtain ⟨heq, hdiscover⟩ := hask
      subst heq
      obtain ⟨path₁, h₁, hcontinues, hmem, hlength₁⟩ := discover_spec hmono ht.1 hs ht.2 hlength hdiscover
      refine (ih hsound h₁ (hcontinues.states_prefix.subset hs) hlength₁).bind fun result later hlater hresult => ?_
      obtain ⟨hedges, path₂, h₂, hcontinues₂, hlength₂⟩ := hresult
      have hremembers := hlater.remembers hsound
      refine .pure ⟨⟨?_, ?_, ?_⟩, path₂, h₂, hcontinues.trans hcontinues₂, hlength₂⟩
      · rw [List.map_cons, hedges.cells_eq]
      · exact List.forall_mem_cons.2 ⟨ht.2.mono hremembers, hedges.steps⟩
      · exact List.forall_mem_cons.2 ⟨hcontinues₂.states_prefix.subset hmem, hedges.target_mem⟩

/-- The row of a state says what the state is and where each symbol leads from it. -/
structure RowRight (pool : Pool) (path : Expr → List Char) (states : List Expr) (row : Row) : Prop where
  state_mem : row.state ∈ states
  classes_eq : pool.classes row.state = .ok (row.edges.map (·.interval))
  edges : Edges pool row.state states (row.edges.map (·.interval)) row.edges
  path_le : ∀ edge ∈ row.edges, (path edge.target).length ≤ (path row.state).length + 1
  isNullable_eq : pool.isNullable row.state = .ok row.isFinal

theorem RowRight.mono {row : Row} (h : RowRight pool path states row) (hdiscovered : Discovered pool e path states)
    (hlater : Remembers pool later) (hcontinues : Continues path path' states states') :
    RowRight later path' states' row where
  state_mem := hcontinues.states_prefix.subset h.state_mem
  classes_eq := by rw [hlater.classes_eq (hdiscovered.has _ h.state_mem), h.classes_eq]
  edges := h.edges.mono hlater hcontinues.states_prefix.subset
  path_le := fun edge hedge => by
    rw [hcontinues.path_eq _ (h.edges.target_mem edge hedge), hcontinues.path_eq _ h.state_mem]
    exact h.path_le edge hedge
  isNullable_eq := by rw [hlater.isNullable_eq (hdiscovered.has _ h.state_mem), h.isNullable_eq]

/-- The states have paths, and the rows are right. -/
structure Explored (pool : Pool) (e : Expr) (path : Expr → List Char) (states : List Expr) (rows : List Row) : Prop
    extends Discovered pool e path states where
  states_eq : rows.map (·.state) = states.take rows.length
  rows_right : ∀ row ∈ rows, RowRight pool path states row
  /-- The paths of the states are at most one symbol longer than that of the next one to be expanded. -/
  waiting : ∀ s, states[rows.length]? = some s → ∀ u ∈ states, (path u).length ≤ (path s).length + 1

theorem Explored.length_le (h : Explored pool e path states rows) : rows.length ≤ states.length := by
  have hlength := congrArg List.length h.states_eq
  rw [List.length_map, List.length_take] at hlength
  omega

/-- The row of the next state joins those before it. -/
theorem Explored.add {rows : List Row} {cells : List Interval} {edges : List Edge} {isFinal : Bool}
    (h : Explored pool e path states rows) (hs : states[rows.length]? = some s) (hlater : Remembers pool later)
    (hclasses : pool.classes s = .ok cells) (hedges : Edges later s states' cells edges)
    (hdiscovered : Discovered later e path' states') (hcontinues : Continues path path' states states')
    (hlength : ∀ u ∈ states', (path' u).length ≤ (path' s).length + 1)
    (hnullable : later.isNullable s = .ok isFinal) :
    Explored later e path' states' (rows ++ [⟨s, isFinal, edges⟩]) := by
  have hmem : s ∈ states := List.mem_of_getElem? hs
  have hrow : RowRight later path' states' ⟨s, isFinal, edges⟩ := by
    refine ⟨hcontinues.states_prefix.subset hmem, ?_, ?_, ?_, hnullable⟩
    · rw [hedges.cells_eq, hlater.classes_eq (h.has s hmem), hclasses]
    · rw [hedges.cells_eq]
      exact hedges
    · exact fun edge hedge => hlength _ (hedges.target_mem edge hedge)
  obtain ⟨rest, hrest⟩ := hcontinues.states_prefix
  have hlt : rows.length < states.length := (List.getElem?_eq_some_iff.1 hs).1
  have hs' : states'[rows.length]? = some s := by
    rw [← hrest, List.getElem?_append_left hlt]
    exact hs
  refine ⟨hdiscovered, ?_, ?_, ?_⟩
  · rw [List.map_append, h.states_eq, List.length_append, List.length_singleton, List.take_add_one, hs', ← hrest,
      List.take_append_of_le_length (Nat.le_of_lt hlt)]
    rfl
  · intro row hrow'
    rcases List.mem_append.1 hrow' with hold | hnew
    · exact (h.rows_right row hold).mono h.toDiscovered hlater hcontinues
    · exact List.mem_singleton.1 hnew ▸ hrow
  · intro t ht u hu
    rw [List.length_append, List.length_singleton] at ht
    -- The paths get no shorter from the state just expanded to the next one.
    have hsorted : (path' s).length ≤ (path' t).length := by
      obtain ⟨hi, hsi⟩ := List.getElem?_eq_some_iff.1 hs'
      obtain ⟨hj, htj⟩ := List.getElem?_eq_some_iff.1 ht
      rw [← hsi, ← htj]
      exact List.pairwise_iff_getElem.1 hdiscovered.sorted _ _ hi hj (Nat.lt_succ_self _)
    have hle := hlength u hu
    omega

theorem exploreFrom_ends {fuel : Nat} {rows : List Row} (hpool : pool.Sound) (h : Explored pool e path states rows) :
    Session.Ends (exploreFrom limit? fuel states rows) pool
      (fun rows' later => ∃ path' states', Explored later e path' states' rows' ∧ states'.length ≤ rows'.length ∧
        states <+: states') fun _ => True := by
  induction fuel generalizing pool path states rows with
  | zero => exact .throw trivial
  | succ fuel ih =>
      unfold exploreFrom
      cases hs : states[rows.length]? with
      | none => exact .pure ⟨path, states, h, List.getElem?_eq_none_iff.1 hs, List.prefix_rfl⟩
      | some s =>
          have hmem : s ∈ states := List.mem_of_getElem? hs
          refine ((Session.ends_ask (·.classes s) pool).mono_fails fun _ _ => trivial).bind fun cells pool₁ _ hask => ?_
          obtain ⟨heq, hclasses⟩ := hask
          subst heq
          refine (expand_ends hpool h.toDiscovered hmem (h.waiting s hs)).bind fun result later hlater hresult => ?_
          obtain ⟨hedges, path', hdiscovered, hcontinues, hlength⟩ := hresult
          refine ((Session.ends_ask (·.isNullable s) later).mono_fails fun _ _ => trivial).bind
            fun isFinal pool₂ _ hask => ?_
          obtain ⟨heq, hnullable⟩ := hask
          subst heq
          refine (ih (hlater.sound hpool) (h.add hs (hlater.remembers hpool) hclasses hedges hdiscovered hcontinues
            hlength hnullable)).mono fun rows' last _ hrest => ?_
          obtain ⟨path'', states'', hexplored, hle, hbefore⟩ := hrest
          exact ⟨path'', states'', hexplored, hle, hcontinues.states_prefix.trans hbefore⟩

theorem explored_start (he : pool.Has e) : Explored pool e (fun _ => []) [e] [] where
  toDiscovered := discovered_start he
  states_eq := rfl
  rows_right := fun row hrow => by cases hrow
  waiting := fun _ _ _ _ => Nat.zero_le _

end Exploration

/-! ## Automata -/

/-- In the pool the automaton says what the derivatives of an expression are: its rows are right, and there is one for
each state that was discovered. -/
structure Automaton.Explores (a : Automaton) (e : Expr) (path : Expr → List Char) (pool : Pool) : Prop where
  initial_eq : a.initial = e
  discovered : Exploration.Discovered pool e path a.states
  rows_right : ∀ row ∈ a.rows, Exploration.RowRight pool path a.states row

theorem Expr.automaton_ends {pool : Pool} {e : Expr} (h : pool.Sound) (he : pool.Has e) (settings : Settings) :
    Session.Ends (e.automaton settings) pool (fun a later => ∃ path, a.Explores e path later) fun _ => True := by
  refine ((Session.ends_ask (fun _ => Exploration.checkLimit settings.limit? 1) pool).mono_fails
    fun _ _ => trivial).bind fun _ pool₁ _ hask => ?_
  obtain ⟨heq, _⟩ := hask
  subst heq
  refine (Exploration.exploreFrom_ends h (Exploration.explored_start he)).bind fun rows later _ hrows => ?_
  obtain ⟨path, states, hexplored, hlength, _⟩ := hrows
  have hstates : rows.map (·.state) = states := by
    rw [hexplored.states_eq, List.take_of_length_le hlength]
  subst hstates
  exact .pure ⟨path, rfl, hexplored.toDiscovered, hexplored.rows_right⟩

end RegexAlgebra
