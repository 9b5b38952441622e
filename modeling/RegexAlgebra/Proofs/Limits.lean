import RegexAlgebra.Proofs.Termination

/-! # The limit on the number of states

A build under a limit makes the same requests as one without, up to the state that the limit refuses. The pool that it
leaves is one on the way of the other build, which ends from there as it does from the start.
-/

namespace RegexAlgebra

open Pool

/-! ## Settings made in turn -/

namespace Settings

variable {α : Type} {option : Settings → Option α}

/-- What the last of the settings that set an option sets it to. -/
def lastSet (option : Settings → Option α) (all : List Settings) : Option α := (all.filterMap option).getLast?

theorem option_foldl_override (hoverride : ∀ a b, option (override a b) = (option b <|> option a))
    (start : Settings) (all : List Settings) :
    option (all.foldl override start) = (lastSet option all <|> option start) := by
  induction all using List.reverseRecOn with
  | nil => rfl
  | append_singleton all last ih =>
      rw [List.foldl_append, List.foldl_cons, List.foldl_nil, hoverride, ih]
      cases hlast : option last <;> simp [hlast, lastSet]

theorem limit?_ofList (all : List Settings) : (ofList all).limit? = (lastSet (·.stateLimit) all).getD none := by
  have hlast : (all.foldl override {}).stateLimit = _ := option_foldl_override (fun _ _ => rfl) {} all
  simp only [limit?, ofList, hlast]
  cases lastSet (·.stateLimit) all <;> rfl

theorem strategyOrDefault_ofList (all : List Settings) :
    (ofList all).strategyOrDefault = (lastSet (·.strategy) all).getD .atomicSweep := by
  have hlast : (all.foldl override {}).strategy = _ := option_foldl_override (fun _ _ => rfl) {} all
  simp only [strategyOrDefault, ofList, hlast]
  cases lastSet (·.strategy) all <;> rfl

end Settings

/-! ## Sessions under a limit -/

namespace Session

variable {α β : Type} {pool : Pool} {limit : Nat} {count : α → Nat} {count' : β → Nat} {fails fails' : Error → Prop}
  {free limited : Session α} {next next' : α → Session β}

/-- The limited session ends as the free one does, with a value that counts no more than the limit, or fails as the free
one does, for a stated reason. Or the limit stops it, and then the value of the free one counts more. When it fails, the
free session ends from the pool that it leaves as from the pool that it was run from. -/
def Limited (limit : Nat) (count : α → Nat) (fails : Error → Prop) (free limited : Session α) (pool : Pool) : Prop :=
  match limited pool with
  | .ok a later => free pool = .ok a later ∧ count a ≤ limit
  | .error error failed => Remembers pool failed ∧ free failed = free pool ∧
    (free pool = .error error failed ∧ fails error ∨
      error = .tooManyStates limit ∧ ∀ a later, free pool = .ok a later → limit < count a)

namespace Limited

theorem of_repeats (h : Repeats free free pool) (hends : Ends free pool (fun a _ => count a ≤ limit) fails) :
    Limited limit count fails free free pool := by
  unfold Limited
  unfold Repeats RegexAlgebra.Repeats at h
  unfold Ends RegexAlgebra.Ends at hends
  split <;> rename_i hrun <;> rw [hrun] at h hends
  · exact ⟨hrun, hends.2⟩
  · refine ⟨h.1, ?_, Or.inl ⟨hrun, hends.2⟩⟩
    rw [h.2 _ (.refl _), hrun]

theorem mono_fails (h : Limited limit count fails free limited pool) (hfails : ∀ error, fails error → fails' error) :
    Limited limit count fails' free limited pool := by
  unfold Limited at h ⊢
  split at h
  · exact h
  · exact ⟨h.1, h.2.1, h.2.2.imp_left fun hsame => ⟨hsame.1, hfails _ hsame.2⟩⟩

/-- What is counted at first is counted in the end. So a session that is stopped there would have counted too much in
the end as well. -/
theorem bind (h : Limited limit count fails free limited pool) (hrepeats : Repeats free free pool)
    (hnext : ∀ a middle, free pool = .ok a middle → count a ≤ limit →
      Limited limit count' fails (next a) (next' a) middle)
    (hcount : ∀ a middle b later, free pool = .ok a middle → next a middle = .ok b later → count a ≤ count' b) :
    Limited limit count' fails (free >>= next) (limited >>= next') pool := by
  unfold Limited at h ⊢
  cases hlimited : limited pool with
  | error error failed =>
      rw [hlimited] at h
      obtain ⟨hremembers, hfailed, hreason⟩ := h
      have hsame : (free >>= next) failed = (free >>= next) pool := by
        cases hfree : free pool with
        | ok a middle => rw [bind_of_ok (hfailed.trans hfree), bind_of_ok hfree]
        | error error' last => rw [bind_of_error (hfailed.trans hfree), bind_of_error hfree]
      rw [bind_of_error hlimited]
      refine ⟨hremembers, hsame, hreason.imp (fun hsame => ⟨bind_of_error hsame.1, hsame.2⟩) fun hstopped => ?_⟩
      refine ⟨hstopped.1, fun b later hrun => ?_⟩
      obtain ⟨a, middle, hfree, hnext⟩ := ok_of_bind hrun
      exact (hstopped.2 a middle hfree).trans_le (hcount a middle b later hfree hnext)
  | ok a middle =>
      rw [hlimited] at h
      obtain ⟨hfree, hle⟩ := h
      have hrest := hnext a middle hfree hle
      unfold Limited at hrest
      rw [bind_of_ok hlimited]
      split at hrest
      · rw [bind_of_ok hfree]
        exact hrest
      · rename_i failed _
        obtain ⟨hremembers, hfailed, hreason⟩ := hrest
        have hmiddle : Remembers pool middle := by
          unfold Repeats RegexAlgebra.Repeats at hrepeats
          rw [hfree] at hrepeats
          exact hrepeats.1
        -- The first session finds all of its requests answered, and the second goes on from where it failed.
        have hsame : (free >>= next) failed = (free >>= next) pool := by
          rw [bind_of_ok (hrepeats.of_ok hfree failed hremembers), hfailed, bind_of_ok hfree]
        rw [bind_of_ok hfree] at hsame ⊢
        exact ⟨hmiddle.trans hremembers, hsame, hreason⟩

/-- A first session in common that does not fail. -/
theorem bind_same {post : α → Pool → Prop} (hrepeats : Repeats free free pool)
    (hends : Ends free pool post fun _ => False)
    (hnext : ∀ a middle, pool.Grows middle → post a middle → Limited limit count' fails (next a) (next' a) middle) :
    Limited limit count' fails (free >>= next) (free >>= next') pool := by
  have hzero : Ends free pool (fun _ _ => 0 ≤ limit) fails :=
    (hends.mono fun _ _ _ _ => Nat.zero_le limit).mono_fails fun _ => False.elim
  have hfirst : Limited limit (fun _ => 0) fails free free pool := .of_repeats hrepeats hzero
  apply hfirst.bind hrepeats
  · intro a middle hrun _
    obtain ⟨hgrows, ha⟩ := hends.of_ok hrun
    exact hnext a middle hgrows ha
  · intro a middle b later _ _
    exact Nat.zero_le _

end Limited

end Session

/-! ## Explorations under a limit -/

theorem Pool.Leads.anchorFree {pool : Pool} {e s : Expr} {word : List Char} (h : pool.Leads e word s)
    (hpool : pool.Sound) (he : pool.Has e) (hfree : pool.AnchorFree e) : pool.AnchorFree s :=
  ((Expr.residual_ends hpool he word).of_ok (h.residual_eq (.refl pool))).2.anchorFree hfree

namespace Exploration

open Session

variable {pool later : Pool} {e s t : Expr} {states states' : List Expr} {rows : List Row} {path : Expr → List Char}
  {edges : List Edge}
  {limit fuel : Nat} {limit? : Option Nat} {cells : List Interval} {fails : Error → Prop}

theorem discover_limited (hle : states.length ≤ limit) :
    Limited limit List.length fails (ask fun _ => discover none states t) (ask fun _ => discover (some limit) states t)
      pool := by
  unfold Limited ask discover
  by_cases hmem : t ∈ states
  · simp only [if_pos hmem]
    exact ⟨trivial, hle⟩
  · by_cases hlt : limit < states.length + 1
    · simp [hmem, checkLimit, hlt, bind, Except.bind, pure, Except.pure, Remembers.refl]
    · simp [hmem, checkLimit, hlt, bind, Except.bind, pure, Except.pure]
      omega

theorem expand_repeats (hpool : pool.Sound) (hs : pool.Has s) :
    Session.Repeats (expand limit? s cells states) (expand limit? s cells states) pool := by
  induction cells generalizing pool states with
  | nil => exact .pure _ pool
  | cons cell cells ih =>
      apply (Expr.derivative_repeats hpool hs (Or.inl rfl) .refl).bind
      intro t middle hrun
      obtain ⟨hgrows, _⟩ := (s.derivative_ends hpool hs cell.low .refl).of_ok hrun
      apply (repeats_ask fun _ _ => rfl).bind
      intro states₁ middle₁ hrun
      obtain ⟨_, rfl, _⟩ := (ends_ask (fun _ => discover limit? states t) middle).of_ok hrun
      apply (ih (hgrows.sound hpool) (hgrows.has hpool hs)).bind
      intro result later _
      exact .pure _ later

theorem expand_limited (hpool : pool.Sound) (hs : pool.Has s) (hfree : pool.AnchorFree s)
    (hle : states.length ≤ limit) :
    Limited limit (fun result => result.2.length) fails (expand none s cells states)
      (expand (some limit) s cells states) pool := by
  induction cells generalizing pool states with
  | nil => exact .of_repeats (.pure _ pool) (.pure hle)
  | cons cell cells ih =>
      have hderivative := (s.derivative_ends hpool hs cell.low .refl).mono_fails fun _ hnot => hnot hfree
      apply Limited.bind_same (Expr.derivative_repeats hpool hs (Or.inl rfl) .refl) hderivative
      intro t middle hgrows _
      have hext := hgrows.extends_pool hpool
      have hsound := hgrows.sound hpool
      have hs' := hext.has hs
      have hfree' := (hext.anchorFree_iff hs).2 hfree
      apply (discover_limited hle).bind (repeats_ask fun _ _ => rfl)
      · intro states₁ middle₁ hrun hle₁
        obtain ⟨_, rfl, _⟩ := (ends_ask (fun _ => discover none states t) middle).of_ok hrun
        apply (ih hsound hs' hfree' hle₁).bind (expand_repeats hsound hs')
        · intro result later _ hresult
          exact .of_repeats (.pure _ later) (.pure hresult)
        · intro result later _ _ _ hrun
          cases hrun
          exact Nat.le_refl _
      · intro states₁ middle₁ result later hrun hrest
        obtain ⟨_, rfl, _⟩ := (ends_ask (fun _ => discover none states t) middle).of_ok hrun
        obtain ⟨⟨edges, states₂⟩, last, hexpand, hpure⟩ := ok_of_bind hrest
        cases hpure
        exact ((expand_returns hsound hs' hfree' cells).of_ok hexpand).2.length_le

/-- Without anchors, an exploration under a limit ends as one without, or is stopped by the limit. -/
theorem exploreFrom_limited (hpool : pool.Sound) (hfree : pool.AnchorFree e) (h : Explored pool e path states rows)
    (hle : states.length ≤ limit) :
    Limited limit List.length (fun error => error = .handlesExhausted ∧ rows.length + fuel ≤ limit)
      (exploreFrom none fuel states rows) (exploreFrom (some limit) fuel states rows) pool := by
  have hrows := h.length_le
  induction fuel generalizing pool path states rows with
  | zero => exact .of_repeats (.throw _ pool) (.throw ⟨rfl, by omega⟩)
  | succ fuel ih =>
      unfold exploreFrom
      cases hs : states[rows.length]? with
      | none => exact .of_repeats (.pure rows pool) (.pure (hrows.trans hle))
      | some s =>
          have hmem : s ∈ states := List.mem_of_getElem? hs
          have hhas := h.has s hmem
          have he := h.has e (List.mem_of_head? h.head)
          have hfrees := (h.leads s hmem).anchorFree hpool he hfree
          obtain ⟨cells, hclasses⟩ := classes_of_anchorFree hfrees
          apply Limited.bind_same (repeats_ask fun _ hlater => hlater.classes_eq hhas) (ends_ask_of_ok hclasses)
          rintro cells pool₁ _ ⟨rfl, rfl⟩
          apply (expand_limited hpool hhas hfrees hle).bind (expand_repeats hpool hhas)
          · rintro ⟨edges, states₁⟩ middle hrun hle₁
            obtain ⟨hgrows, isFinal, path₁, hnullable, hexplored⟩ := h.turn hpool hs hfrees hclasses hrun
            have hext := hgrows.extends_pool hpool
            have hhas' := hext.has hhas
            apply Limited.bind_same (repeats_ask fun _ hlater => hlater.toExtends.isNullable_eq hhas')
              (ends_ask_of_ok hnullable)
            rintro isFinal middle _ ⟨rfl, rfl⟩
            have hrest := ih (hgrows.sound hpool) ((hext.anchorFree_iff he).2 hfree) hexplored hle₁ hexplored.length_le
            refine hrest.mono_fails fun error hfails => ⟨hfails.1, ?_⟩
            have hturns := hfails.2
            rw [List.length_append, List.length_singleton] at hturns
            omega
          · rintro ⟨edges, states₁⟩ middle rows' later hrun hrest
            obtain ⟨hgrows, isFinal, path₁, hnullable, hexplored⟩ := h.turn hpool hs hfrees hclasses hrun
            have hask : ask (·.isNullable s) middle = .ok isFinal middle := by rw [ask, hnullable]
            change (ask (·.isNullable s) >>= _) middle = _ at hrest
            rw [bind_of_ok hask] at hrest
            obtain ⟨_, _, _, _, hle', hbefore⟩ := (exploreFrom_ends (hgrows.sound hpool) hexplored).of_ok hrest
            exact hbefore.length_le.trans hle'

/-- An exploration that has fuel enough does not depend on how much more there is. -/
theorem exploreFrom_add_fuel (hfuel : ∀ last, exploreFrom limit? fuel states rows pool ≠ .error .handlesExhausted last)
    (more : Nat) : exploreFrom limit? (fuel + more) states rows pool = exploreFrom limit? fuel states rows pool := by
  induction fuel generalizing pool states rows with
  | zero => exact absurd rfl (hfuel pool)
  | succ fuel ih =>
      rw [Nat.add_right_comm]
      unfold exploreFrom at hfuel ⊢
      cases hs : states[rows.length]? with
      | none => rfl
      | some s =>
          simp only [hs] at hfuel
          apply bind_congr_of_ok
          intro cells pool₁ hclasses
          rw [bind_of_ok hclasses] at hfuel
          apply bind_congr_of_ok
          rintro ⟨edges, states₁⟩ middle hrun
          rw [bind_of_ok hrun] at hfuel
          apply bind_congr_of_ok
          intro isFinal last hnullable
          change ∀ last', (ask (·.isNullable s) >>= _) middle ≠ _ at hfuel
          rw [bind_of_ok hnullable] at hfuel
          exact ih hfuel

section

variable {built : Pool} (hpool : pool.Sound) (he : pool.Has e) (hfree : pool.AnchorFree e)
  (hok : ∀ fuel, rows.length < fuel → exploreFrom none fuel [e] [] pool = .ok rows built)
include hpool he hfree hok

theorem exploreFrom_within_limit (hpos : 0 < limit) (hle : rows.length ≤ limit) (fuel : Nat) :
    exploreFrom (some limit) fuel [e] [] pool = exploreFrom none fuel [e] [] pool := by
  have hlimited : ∀ fuel, Limited limit List.length _ (exploreFrom none fuel [e] [])
      (exploreFrom (some limit) fuel [e] []) pool := fun fuel =>
    exploreFrom_limited hpool hfree (explored_start he) hpos
  have h := hlimited fuel
  unfold Limited at h
  cases hrun : exploreFrom (some limit) fuel [e] [] pool with
  | ok rows' later =>
      rw [hrun] at h
      exact h.1.symm
  | error error failed =>
      rw [hrun] at h
      obtain ⟨_, _, hsame | hstopped⟩ := h
      · exact hsame.1.symm
      · obtain ⟨rfl, _⟩ := hstopped
        -- With more fuel it would be stopped as well, but then the other one counts more states than there are.
        have hends : ∀ last, exploreFrom (some limit) fuel [e] [] pool ≠ .error .handlesExhausted last := by simp [hrun]
        have hmore := exploreFrom_add_fuel hends (rows.length + 1)
        have hlong := hok (fuel + (rows.length + 1)) (by omega)
        have h := hlimited (fuel + (rows.length + 1))
        unfold Limited at h
        rw [hmore, hrun, hlong] at h
        obtain ⟨_, _, hsame | hstopped⟩ := h
        · cases hsame.1
        · have hlt := hstopped.2 rows built rfl
          omega

theorem exploreFrom_above_limit (hpos : 0 < limit) (hlt : limit < rows.length)
    (herror : ∀ fuel ≤ rows.length, ∃ last, exploreFrom none fuel [e] [] pool = .error .handlesExhausted last)
    (fuel : Nat) :
    ∃ error failed, exploreFrom (some limit) fuel [e] [] pool = .error error failed ∧
      (error = .tooManyStates limit ∨ error = .handlesExhausted ∧ fuel ≤ limit) ∧
      exploreFrom none fuel [e] [] failed = exploreFrom none fuel [e] [] pool := by
  have h : Limited limit List.length _ (exploreFrom none fuel [e] []) (exploreFrom (some limit) fuel [e] []) pool :=
    exploreFrom_limited hpool hfree (explored_start he) hpos
  unfold Limited at h
  cases hrun : exploreFrom (some limit) fuel [e] [] pool with
  | ok rows' later =>
      rw [hrun] at h
      obtain ⟨hsame, hle⟩ := h
      rcases Nat.lt_or_ge rows.length fuel with hfuel | hfuel
      · rw [hok fuel hfuel] at hsame
        cases hsame
        omega
      · obtain ⟨last, hlast⟩ := herror fuel hfuel
        rw [hlast] at hsame
        cases hsame
  | error error failed =>
      rw [hrun] at h
      obtain ⟨_, hfailed, hreason⟩ := h
      refine ⟨error, failed, rfl, ?_, hfailed⟩
      rcases hreason with hsame | hstopped
      · exact Or.inr ⟨hsame.2.1, by simpa using hsame.2.2⟩
      · exact Or.inl hstopped.1

end

end Exploration

namespace Expr

variable {pool : Pool} {e : Expr} {settings : Settings} {limit : Nat}

theorem automaton_run_of_pos (hlimit : settings.limit? = some limit) (hpos : 0 < limit) :
    e.automaton settings pool =
      match Exploration.exploreFrom (some limit) handleBound [e] [] pool with
      | .ok rows later => .ok ⟨e, rows, settings.strategyOrDefault⟩ later
      | .error error later => .error error later := by
  have hcheck : Exploration.checkLimit settings.limit? 1 = .ok () := by
    rw [hlimit]
    exact if_neg (by omega)
  rw [automaton_run_of_checkLimit hcheck]
  exact hlimit ▸ rfl

/-- Under the limit zero nothing is asked of the pool. -/
theorem automaton_run_of_zero (hlimit : settings.limit? = some 0) :
    e.automaton settings pool = .error (.tooManyStates 0) pool := by
  have hask : Session.ask (fun _ => Exploration.checkLimit settings.limit? 1) pool = .error (.tooManyStates 0) pool := by
    rw [hlimit]
    rfl
  exact bind_of_error hask

/-- The limit in force is that of the last settings that set one. An automaton is built under it if the exploration
without a limit finds no more states, and is the automaton that is built without a limit. Otherwise the build fails at
the limit, and an automaton that is built without a limit from the pool that it leaves is the one that is built from the
pool before, with the same handles and the same pool behind it.

Where there are no handles for the states of either, both end for that reason. -/
theorem automaton_within_limit (h : pool.Reachable) (he : pool.Has e) (hfree : pool.AnchorFree e) :
    ∃ rows built,
      (∀ fuel, rows.length < fuel → (Exploration.exploreFrom none fuel [e] []).outcome pool = (.ok rows, built)) ∧
      ∀ all settings, settings = Settings.ofList all →
        settings.limit? = (Settings.lastSet (·.stateLimit) all).getD none ∧
        settings.strategyOrDefault = (Settings.lastSet (·.strategy) all).getD .atomicSweep ∧
        ((∀ limit, settings.limit? = some limit → rows.length ≤ limit) →
          (rows.length < handleBound →
            (e.automaton settings).outcome pool = (.ok ⟨e, rows, settings.strategyOrDefault⟩, built)) ∧
          (handleBound ≤ rows.length →
            ∃ last, (e.automaton settings).outcome pool = (.error .handlesExhausted, last))) ∧
        ∀ limit, settings.limit? = some limit → limit < rows.length →
          ∃ error failed, (e.automaton settings).outcome pool = (.error error, failed) ∧
            (error = .tooManyStates limit ∨ error = .handlesExhausted ∧ handleBound ≤ limit) ∧
            ∀ free : Settings, free.limit? = none →
              (e.automaton free).outcome failed = (e.automaton free).outcome pool := by
  obtain ⟨path, rows, built, hgrows, hexplored, hok, herror⟩ :=
    Exploration.exists_exploration h.sound h.canonical he hfree
  have hpos : 0 < rows.length := by
    have hmem : e ∈ rows.map (·.state) := List.mem_of_head? hexplored.head
    obtain ⟨row, hrow, _⟩ := List.mem_map.1 hmem
    exact List.length_pos_of_mem hrow
  refine ⟨rows, built, fun fuel hfuel => Session.outcome_of_ok (hok fuel hfuel), ?_⟩
  rintro all settings rfl
  refine ⟨Settings.limit?_ofList all, Settings.strategyOrDefault_ofList all, fun hle => ?_, fun limit hlimit hlt => ?_⟩
  · have hrun : e.automaton (.ofList all) pool =
        match Exploration.exploreFrom none handleBound [e] [] pool with
        | .ok rows later => .ok ⟨e, rows, (Settings.ofList all).strategyOrDefault⟩ later
        | .error error later => .error error later := by
      cases hlimit : (Settings.ofList all).limit? with
      | none => exact automaton_run hlimit
      | some limit =>
          have hle := hle limit hlimit
          have hlimitpos := hpos.trans_le hle
          rw [automaton_run_of_pos hlimit hlimitpos,
            Exploration.exploreFrom_within_limit h.sound he hfree hok hlimitpos hle handleBound]
    constructor
    · intro hlt
      exact Session.outcome_of_ok (by rw [hrun, hok handleBound hlt])
    · intro hge
      obtain ⟨last, hlast⟩ := herror handleBound hge
      exact ⟨last, Session.outcome_of_error (by rw [hrun, hlast])⟩
  · rcases Nat.eq_zero_or_pos limit with rfl | hlimitpos
    · exact ⟨.tooManyStates 0, pool, Session.outcome_of_error (automaton_run_of_zero hlimit), Or.inl rfl, fun _ _ => rfl⟩
    · obtain ⟨error, failed, hrun, herror, hfailed⟩ :=
        Exploration.exploreFrom_above_limit h.sound he hfree hok hlimitpos hlt herror handleBound
      refine ⟨error, failed, Session.outcome_of_error ?_, herror, fun free hfree => ?_⟩
      · rw [automaton_run_of_pos hlimit hlimitpos, hrun]
      · unfold Session.outcome EStateM.run
        rw [automaton_run hfree, automaton_run hfree, hfailed]

/-- The automaton of one lower case letter has three states. -/
theorem automaton_of_lowercase_within_limit :
    (∃ failed,
      (lowercase.expr.automaton (.ofList [⟨some (some 2), none⟩, ⟨none, some .crossProduct⟩])).outcome lowercase.pool =
        (.error (.tooManyStates 2), failed) ∧
      (lowercase.expr.automaton {}).outcome failed = (.ok lowercaseAutomaton, lowercase.pool)) ∧
    (lowercase.expr.automaton (.ofList [⟨some (some 2), none⟩, ⟨some (some 3), none⟩])).outcome lowercase.pool =
      (.ok lowercaseAutomaton, lowercase.pool) := by
  obtain ⟨rows, built, hok, hlimits⟩ := automaton_within_limit reachable_lowercase has_lowercase anchorFree_lowercase
  have hrun := hok (rows.length + 4) (by omega)
  rw [Session.outcome_of_ok (exploreFrom_lowercase rows.length)] at hrun
  cases hrun
  constructor
  · obtain ⟨_, _, _, habove⟩ := hlimits [⟨some (some 2), none⟩, ⟨none, some .crossProduct⟩] _ rfl
    obtain ⟨error, failed, hfails, hreason, hagain⟩ := habove 2 rfl (by decide)
    rcases hreason with rfl | hexhausted
    · exact ⟨failed, hfails, (hagain {} rfl).trans automaton_lowercase⟩
    · exact absurd hexhausted.2 (by decide)
  · obtain ⟨_, _, hwithin, _⟩ := hlimits [⟨some (some 2), none⟩, ⟨some (some 3), none⟩] _ rfl
    refine (hwithin fun limit hlimit => ?_).1 (by decide)
    cases hlimit
    decide

end Expr

end RegexAlgebra
