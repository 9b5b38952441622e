import RegexAlgebra.Proofs.Encounters
import RegexAlgebra.Proofs.Positions
import RegexAlgebra.Proofs.Saturation

/-! # Where matching and automata fail

Matching takes derivatives of one residual after another and asks for the nullability of the last one. It fails at the
first residual of which the next operation meets an anchor. An exploration looks at the residuals by all words, and asks
for the classes of each before it takes derivatives; so nothing but the classes can meet an anchor there. With this it
is said of every operation on an expression when it fails.
-/

namespace RegexAlgebra

open Pool

namespace Expr

variable {pool middle : Pool} {e d : Expr} {c : Char} {read rest word : List Char}

/-! ## Words -/

private theorem isMatch_nil (e : Expr) (pool : Pool) : e.isMatch [] pool = Session.ask (·.isNullable e) pool := rfl

private theorem isMatch_cons_of_ok (hrun : e.derivative c pool = .ok d middle) (word : List Char) :
    e.isMatch (c :: word) pool = d.isMatch word middle := by
  rw [isMatch, residual, bind_assoc, bind_of_ok hrun]
  rfl

private theorem isMatch_cons_of_error {error : Error} (hrun : e.derivative c pool = .error error middle)
    (word : List Char) : e.isMatch (c :: word) pool = .error error middle := by
  rw [isMatch, residual, bind_assoc, bind_of_error hrun]

/-- Once a first part of a word is read, what is left of the expression is matched with what is left of the word. -/
theorem isMatch_append (hrun : e.residual read pool = .ok d middle) (rest : List Char) :
    e.isMatch (read ++ rest) pool = d.isMatch rest middle := by
  induction read generalizing e pool with
  | nil =>
      cases hrun
      rfl
  | cons c read ih =>
      obtain ⟨f, last, hfirst, hread⟩ := ok_of_bind hrun
      rw [List.cons_append, isMatch_cons_of_ok hfirst]
      exact ih hread

theorem isMatch_of_meets (h : pool.Sound) (he : pool.Has e) (hmeets : pool.Meets (.next rest) e) :
    ∃ last, e.isMatch rest pool = .error (.anchorReached (.next rest)) last := by
  cases rest with
  | nil =>
      rcases (pool.isNullable_failsIff e).cases with ⟨_, error, rfl, herror⟩ | ⟨hnot, _⟩
      · exact ⟨pool, (isMatch_nil e pool).trans (Session.ask_of_error herror)⟩
      · exact absurd hmeets hnot
  | cons c rest =>
      have hends := derivative_failsIff h he c .refl
      cases hrun : e.derivative c pool with
      | ok d middle => exact absurd hmeets (hends.of_ok hrun).2.2
      | error error last =>
          obtain ⟨_, _, rfl⟩ := hends.of_error hrun
          exact ⟨last, isMatch_cons_of_error hrun rest⟩

/-- Matching gives an answer unless it comes to a residual of which the next operation meets an anchor. -/
theorem isMatch_cases (h : pool.Sound) (he : pool.Has e) (word : List Char) :
    (∃ b last, e.isMatch word pool = .ok b last) ∨
      ∃ read rest d middle, word = read ++ rest ∧ e.residual read pool = .ok d middle ∧
        middle.Meets (.next rest) d := by
  induction word generalizing pool e with
  | nil =>
      rcases (pool.isNullable_failsIff e).cases with ⟨hmeets, _⟩ | ⟨_, b, hb⟩
      · exact Or.inr ⟨[], [], e, pool, rfl, rfl, hmeets⟩
      · exact Or.inl ⟨b, pool, (isMatch_nil e pool).trans (Session.ask_of_ok hb)⟩
  | cons c word ih =>
      have hends := derivative_failsIff h he c .refl
      cases hrun : e.derivative c pool with
      | error error last => exact Or.inr ⟨[], c :: word, e, pool, rfl, rfl, (hends.of_error hrun).2.1⟩
      | ok d middle =>
          obtain ⟨hgrows, hd, _⟩ := hends.of_ok hrun
          rcases ih (hgrows.sound h) hd with ⟨b, last, hmatch⟩ | ⟨read, rest, f, last, rfl, hread, hmeets⟩
          · exact Or.inl ⟨b, last, (isMatch_cons_of_ok hrun word).trans hmatch⟩
          · exact Or.inr ⟨c :: read, rest, f, last, rfl, (bind_of_ok hrun).trans hread, hmeets⟩

end Expr

/-! ## Automata -/

namespace Exploration

variable {pool failed : Pool} {e s : Expr} {path : Expr → List Char} {states : List Expr} {rows : List Row}
  {limit? : Option Nat}

/-- Where the derivative meets no anchor, only the limit stops the expansion of a state. -/
theorem expand_refuses (h : pool.Sound) (hs : pool.Has s) (hmeets : ¬ pool.Meets .derivative s)
    (cells : List Interval) (states : List Expr) :
    Session.Ends (expand limit? s cells states) pool (fun _ _ => True) (Refuses limit?) := by
  induction cells generalizing pool states with
  | nil => exact .pure trivial
  | cons cell cells ih =>
      have hderivative := Expr.derivative_failsIff h hs cell.low .refl
      refine (hderivative.mono_fails fun _ hfails => absurd hfails.1 hmeets).bind fun t middle hmiddle _ => ?_
      have hext := hmiddle.extends_pool h
      refine ((Session.ends_ask (fun _ => discover limit? states t) middle).mono_fails fun error herror => ?_).bind
        fun states₁ pool₁ _ hask => ?_
      · rcases Saturated.discover_cases limit? states t with ⟨_, heq⟩ | ⟨_, heq⟩ | ⟨error', hrefuses, heq⟩ <;>
          rw [heq] at herror <;> cases herror
        exact hrefuses
      · obtain ⟨rfl, _⟩ := hask
        refine (ih (hmiddle.sound h) (hext.has hs) (mt (hext.meets_iff hs).1 hmeets) states₁).bind fun _ _ _ _ => ?_
        exact .pure trivial

/-- Where the classes of the next state meet no anchor, its nullability does not either, and it gets its row. -/
theorem Explored.turn_of_not_meets {later : Pool} {cells : List Interval} {edges : List Edge} {states' : List Expr}
    (hpool : pool.Sound) (h : Explored pool e path states rows) (hs : states[rows.length]? = some s)
    (hmeets : ¬ pool.Meets .classes s) (hclasses : pool.classes s = .ok cells)
    (hrun : expand limit? s cells states pool = .ok (edges, states') later) :
    pool.Grows later ∧ ∃ isFinal path', later.isNullable s = .ok isFinal ∧
      Explored later e path' states' (rows ++ [⟨s, isFinal, edges⟩]) := by
  have hmem : s ∈ states := List.mem_of_getElem? hs
  obtain ⟨hgrows, hedges, path', hdiscovered, hcontinues, hlength⟩ :=
    (expand_ends hpool h.toDiscovered hmem (h.waiting s hs)).of_ok hrun
  have hiff : later.Meets .classes s ↔ pool.Meets .classes s :=
    (hgrows.extends_pool hpool).meets_iff (h.has s hmem)
  rcases (later.isNullable_failsIff s).cases with ⟨hnull, _⟩ | ⟨_, isFinal, hnullable⟩
  · exact absurd (hiff.1 (hnull.of_nullability .classes)) hmeets
  · exact ⟨hgrows, isFinal, path', hnullable,
      h.add hs (hgrows.remembers hpool) hclasses hedges hdiscovered hcontinues hlength hnullable⟩

/-- An exploration that fails was refused a state, or has no handles left, or has come to a residual of which the
derivative meets an anchor. -/
theorem exploreFrom_fails {fuel : Nat} {error : Error} (hpool : pool.Sound) (h : Explored pool e path states rows)
    (hrun : exploreFrom limit? fuel states rows pool = .error error failed) :
    Refuses limit? error ∨ error = .handlesExhausted ∨
      ∃ word s, failed.Leads e word s ∧ failed.Meets .derivative s ∧ error.MetByClasses := by
  induction fuel generalizing pool path states rows with
  | zero =>
      cases hrun
      exact Or.inr (Or.inl rfl)
  | succ fuel ih =>
      unfold exploreFrom at hrun
      cases hs : states[rows.length]? with
      | none =>
          rw [hs] at hrun
          cases hrun
      | some s =>
          have hmem : s ∈ states := List.mem_of_getElem? hs
          simp only [hs] at hrun
          rcases (pool.classes_failsIff s).cases with ⟨hmeets, error', herror, hclasses⟩ | ⟨hmeets, cells, hclasses⟩
          · have hask : Session.ask (·.classes s) pool = .error error' pool := Session.ask_of_error hclasses
            rw [bind_of_error hask] at hrun
            cases hrun
            exact Or.inr (Or.inr ⟨path s, s, h.leads s hmem, meets_classes_iff.1 hmeets, herror⟩)
          · have hask : Session.ask (·.classes s) pool = .ok cells pool := Session.ask_of_ok hclasses
            rw [bind_of_ok hask] at hrun
            cases hexpand : expand limit? s cells states pool with
            | error error' last =>
                rw [bind_of_error hexpand] at hrun
                cases hrun
                have hderivative := mt meets_classes_iff.2 hmeets
                exact Or.inl ((expand_refuses hpool (h.has s hmem) hderivative cells states).of_error hexpand).2
            | ok result later =>
                obtain ⟨edges, states₁⟩ := result
                obtain ⟨hgrows, isFinal, path₁, hnullable, hexplored⟩ :=
                  h.turn_of_not_meets hpool hs hmeets hclasses hexpand
                have hask : Session.ask (·.isNullable s) later = .ok isFinal later := Session.ask_of_ok hnullable
                rw [bind_of_ok hexpand, bind_of_ok hask] at hrun
                exact ih (hgrows.sound hpool) hexplored hrun

end Exploration

namespace Expr

variable {pool built failed : Pool} {e : Expr} {settings : Settings} {a : Automaton}

/-- The states of an automaton that is built are residuals of which the derivative meets no anchor. -/
theorem not_meets_of_automaton (h : pool.Sound) (he : pool.Has e)
    (hrun : (e.automaton settings).outcome pool = (.ok a, built)) (word : List Char) :
    ∃ d, (e.residual word).outcome built = (.ok d, built) ∧ ¬ built.Meets .derivative d := by
  obtain ⟨hgrows, path, hexplores⟩ := (e.automaton_ends h he settings).of_ok (Session.ok_of_outcome hrun)
  have hbuilt := hgrows.sound h
  have hsimulates := hexplores.simulates hbuilt
  obtain ⟨d, _, hresidual⟩ := hsimulates.run_eq word
  refine ⟨d, hresidual, fun hmeets => ?_⟩
  obtain ⟨cells, hcells⟩ := (hexplores.saturated hbuilt).classes d ((hsimulates.mem_states d).2 ⟨word, hresidual⟩)
  have hfails := built.classes_failsIff d
  rw [hcells] at hfails
  exact hfails (meets_classes_iff.2 hmeets)

theorem meets_of_automaton {error : Error} (h : pool.Sound) (he : pool.Has e)
    (hrun : e.automaton settings pool = .error error failed) :
    Exploration.Refuses settings.limit? error ∨ error = .handlesExhausted ∨
      ∃ word d, (e.residual word).outcome failed = (.ok d, failed) ∧ failed.Meets .derivative d ∧
        error.MetByClasses := by
  rcases Saturated.checkLimit_cases settings.limit? 1 with hlimit | ⟨error', hrefuses, hlimit⟩
  · rw [automaton_run_of_checkLimit hlimit] at hrun
    split at hrun <;> rename_i hexplore <;> cases hrun
    refine (Exploration.exploreFrom_fails h (Exploration.explored_start he) hexplore).imp_right (Or.imp_right ?_)
    intro hparts
    obtain ⟨word, d, hleads, hmeets, herror⟩ := hparts
    exact ⟨word, d, Session.outcome_of_ok (hleads.residual_eq (.refl failed)), hmeets, herror⟩
  · have hask : Session.ask (fun _ => Exploration.checkLimit settings.limit? 1) pool = .error error' pool :=
      Session.ask_of_error hlimit
    rw [automaton, bind_of_error hask] at hrun
    cases hrun
    exact Or.inl hrefuses

/-- An anchor that the derivative of the expression itself meets is met in the first turn. -/
theorem automaton_of_meets (hmeets : pool.Meets .derivative e) (hlimit : settings.limit? ≠ some 0) :
    ∃ error, error.MetByClasses ∧ (e.automaton settings).outcome pool = (.error error, pool) := by
  have hone : Exploration.checkLimit settings.limit? 1 = .ok () := by
    cases hsome : settings.limit? with
    | none => rfl
    | some limit =>
        have hpos : limit ≠ 0 := fun hzero => hlimit (by rw [hsome, hzero])
        exact if_neg (by omega)
  rcases (pool.classes_failsIff e).cases with ⟨_, error, herror, hclasses⟩ | ⟨hnot, _⟩
  · have hask : Session.ask (·.classes e) pool = .error error pool := Session.ask_of_error hclasses
    have hexplore : ∀ fuel, Exploration.exploreFrom settings.limit? (fuel + 1) [e] [] pool = .error error pool :=
      fun fuel => bind_of_error hask
    have hrun : Exploration.exploreFrom settings.limit? handleBound [e] [] pool = _ := hexplore 4294967295
    refine ⟨error, herror, Session.outcome_of_error ?_⟩
    rw [automaton_run_of_checkLimit hone, hrun]
  · exact absurd (meets_classes_iff.2 hmeets) hnot

/-! ## All operations -/

/-- The operations on the expression fail just where they meet an anchor. -/
structure FailsWhereMet (e : Expr) (pool : Pool) : Prop where
  /-- What is met stands in the expression. -/
  containsAnchor : ∀ visitor, pool.Meets visitor e → pool.containsAnchor e = true
  /-- Nullability meets the least. -/
  of_nullability : pool.Meets .nullability e → pool.Meets .derivative e
  classes_iff : pool.Meets .classes e ↔ pool.Meets .derivative e
  nullability :
    pool.Meets .nullability e ∧ pool.isNullable e = .error (.anchorReached .nullability) ∧
        pool.nullable e = .error (.anchorReached .nullability) ∨
      ¬ pool.Meets .nullability e ∧ ∃ b, pool.isNullable e = .ok b ∧ pool.nullable e = .ok (.ofBool b)
  derivative : ∀ c,
    pool.Meets .derivative e ∧
        (∃ later, (e.derivative c).outcome pool = (.error (.anchorReached .derivative), later)) ∨
      ¬ pool.Meets .derivative e ∧ ∃ d later, (e.derivative c).outcome pool = (.ok d, later)
  /-- On their way the classes ask for nullability. -/
  classes :
    pool.Meets .classes e ∧ (∃ error, error.MetByClasses ∧ pool.classes e = .error error) ∨
      ¬ pool.Meets .classes e ∧ ∃ cells, pool.classes e = .ok cells
  /-- A word is matched unless an anchor is met on the way ... -/
  isMatch_returns : ∀ word,
    (∃ b later, (e.isMatch word).outcome pool = (.ok b, later)) ∨
      ∃ read rest d middle, word = read ++ rest ∧ (e.residual read).outcome pool = (.ok d, middle) ∧
        middle.Meets (.next rest) d
  /-- ... and not matched if one is. -/
  isMatch_fails : ∀ read rest d middle, (e.residual read).outcome pool = (.ok d, middle) →
    middle.Meets (.next rest) d →
      ∃ later, (e.isMatch (read ++ rest)).outcome pool = (.error (.anchorReached (.next rest)), later)
  /-- An automaton is built only where no residual has a derivative that meets an anchor ... -/
  automaton_built : ∀ settings a built, (e.automaton settings).outcome pool = (.ok a, built) →
    ∀ word, ∃ d, (e.residual word).outcome built = (.ok d, built) ∧ ¬ built.Meets .derivative d
  /-- ... and fails for no other reason than such a residual, the limit, or a lack of handles. -/
  automaton_fails : ∀ settings error failed, (e.automaton settings).outcome pool = (.error error, failed) →
    Exploration.Refuses settings.limit? error ∨ error = .handlesExhausted ∨
      ∃ word d, (e.residual word).outcome failed = (.ok d, failed) ∧ failed.Meets .derivative d ∧ error.MetByClasses
  /-- At the expression itself the first turn fails. -/
  automaton_of_meets : pool.Meets .derivative e → ∀ settings : Settings, settings.limit? ≠ some 0 →
    ∃ error, error.MetByClasses ∧ (e.automaton settings).outcome pool = (.error error, pool)

/-- On every pool with a history, an anchor in an expression makes an operation fail just if the operation meets it. -/
theorem operations_fail_where_met (h : pool.Reachable) (he : pool.Has e) : e.FailsWhereMet pool where
  containsAnchor := by
    intro visitor hmeets
    rw [← Bool.not_eq_false, containsAnchor_eq_false_iff]
    exact hmeets.not_anchorFree
  of_nullability := fun hmeets => hmeets.of_nullability .derivative
  classes_iff := meets_classes_iff
  nullability := by
    rcases (pool.isNullable_failsIff e).cases with ⟨hmeets, error, rfl, herror⟩ | ⟨hmeets, b, hb⟩
    · exact Or.inl ⟨hmeets, herror, by rw [nullable, herror]; rfl⟩
    · exact Or.inr ⟨hmeets, b, hb, by rw [nullable, hb]; rfl⟩
  derivative := by
    intro c
    rcases Session.outcome_cases (derivative_failsIff h.sound he c .refl) with
      ⟨d, later, hrun, _, _, hmeets⟩ | ⟨error, later, hrun, _, hmeets, rfl⟩
    · exact Or.inr ⟨hmeets, d, later, hrun⟩
    · exact Or.inl ⟨hmeets, later, hrun⟩
  classes := (pool.classes_failsIff e).cases
  isMatch_returns := by
    intro word
    rcases isMatch_cases h.sound he word with ⟨b, later, hrun⟩ | ⟨read, rest, d, middle, hword, hread, hmeets⟩
    · exact Or.inl ⟨b, later, Session.outcome_of_ok hrun⟩
    · exact Or.inr ⟨read, rest, d, middle, hword, Session.outcome_of_ok hread, hmeets⟩
  isMatch_fails := by
    intro read rest d middle hread hmeets
    have hrun := Session.ok_of_outcome hread
    have hends := (residual_isRemainder h.sound he read).of_ok hrun
    obtain ⟨last, hfails⟩ := isMatch_of_meets (hends.1.sound h.sound) hends.2.has hmeets
    exact ⟨last, Session.outcome_of_error ((isMatch_append hrun rest).trans hfails)⟩
  automaton_built := fun settings a built hrun => not_meets_of_automaton h.sound he hrun
  automaton_fails := fun settings error failed hrun => meets_of_automaton h.sound he (Session.error_of_outcome hrun)
  automaton_of_meets := fun hmeets settings hlimit => e.automaton_of_meets hmeets hlimit

/-- Any number of start anchors, on a pool that was asked for nothing else. -/
def startStar : Built := new.star .startAnchor

/-- Nullability does not look below the star and returns, and so the empty word is matched; the other operations look
there and fail. -/
theorem operations_on_startStar :
    startStar.pool.containsAnchor startStar.expr = true ∧
      startStar.pool.nullable startStar.expr = .ok .epsilon ∧
      (∃ later, (startStar.expr.derivative 'a').outcome startStar.pool = (.error (.anchorReached .derivative), later)) ∧
      (∃ error, error.MetByClasses ∧ startStar.pool.classes startStar.expr = .error error) ∧
      (∃ later, (startStar.expr.isMatch ['a']).outcome startStar.pool =
        (.error (.anchorReached .derivative), later)) ∧
      ∃ error, error.MetByClasses ∧
        (startStar.expr.automaton {}).outcome startStar.pool = (.error error, startStar.pool) := by
  have heq : startStar = new.store (.unary .star .startAnchor) := by
    rw [startStar, Pool.star, answer?_new]
    rfl
  have hnode : startStar.pool.node startStar.expr = .unary .star .startAnchor := by
    rw [heq]
    exact new.node_store (Node.forall_operands_unary.2 sound_new.has_startAnchor)
  have hanchor : startStar.pool.node .startAnchor = .startAnchor := by
    rw [heq]
    rfl
  have hreachable : startStar.pool.Reachable := Reachable.new.unary .star sound_new.has_startAnchor
  have hhas : startStar.pool.Has startStar.expr := (star_settles sound_new sound_new.has_startAnchor).answers.has
  have hmeets : startStar.pool.Meets .derivative startStar.expr := by
    rw [meets_of_unary hnode (Or.inl (by simp))]
    exact .anchor (by rw [hanchor]; rfl)
  have hfails := operations_fail_where_met hreachable hhas
  refine ⟨hfails.containsAnchor .derivative hmeets, ?_, ?_, ?_, ?_, hfails.automaton_of_meets hmeets {} (by decide)⟩
  · rw [nullable, isNullable_eq, hnode]
    rfl
  · rcases hfails.derivative 'a' with ⟨_, hrun⟩ | ⟨hnot, _⟩
    · exact hrun
    · exact absurd hmeets hnot
  · rcases hfails.classes with ⟨_, hclasses⟩ | ⟨hnot, _⟩
    · exact hclasses
    · exact absurd (hfails.classes_iff.2 hmeets) hnot
  · exact hfails.isMatch_fails [] ['a'] startStar.expr startStar.pool rfl hmeets

/-- Of nothing there is nothing left behind any word. -/
theorem residual_empty {pool : Pool} (hempty : pool.node .empty = .empty) (word : List Char) :
    Expr.empty.residual word pool = .ok .empty pool := by
  induction word with
  | nil => rfl
  | cons c word ih =>
      have hstep : Expr.empty.derivative c pool = .ok .empty pool := by rw [derivative_run, hempty]; rfl
      exact (bind_of_ok hstep).trans ih

/-- An anchor stands in the expression, and every operation returns a value. -/
theorem operations_on_unreachedEnd :
    unreachedEnd.pool.Reachable ∧ unreachedEnd.pool.Has unreachedEnd.expr ∧
      unreachedEnd.pool.containsAnchor unreachedEnd.expr = true ∧
      unreachedEnd.pool.isNullable unreachedEnd.expr = .ok false ∧
      unreachedEnd.pool.nullable unreachedEnd.expr = .ok .empty ∧
      (∀ c, (unreachedEnd.expr.derivative c).outcome unreachedEnd.pool = (.ok .empty, pastEnd)) ∧
      (∃ cells, unreachedEnd.pool.classes unreachedEnd.expr = .ok cells) ∧
      (∀ word, ∃ later, (unreachedEnd.expr.isMatch word).outcome unreachedEnd.pool = (.ok false, later)) ∧
      (unreachedEnd.expr.automaton {}).outcome unreachedEnd.pool = (.ok (deadEnd unreachedEnd.expr), pastEnd) := by
  obtain ⟨hany, hnone, hend, hempty, hepsilon⟩ := node_unreachedEnd
  have hleft : unreachedEnd.pool.isNullable ⟨5⟩ = .ok false := isNullable_noSymbol hany hepsilon hnone
  have hnullable : unreachedEnd.pool.isNullable unreachedEnd.expr = .ok false := by
    rw [isNullable_eq, hend, nodeIsNullable, hleft]
    · rfl
    · rintro ⟨⟩
  have hmeets : ¬ unreachedEnd.pool.Meets .classes unreachedEnd.expr := by
    rw [meets_of_inTurn (Or.inl hend), meets_of_both (Or.inr ⟨hnone, by simp⟩), hleft]
    have hleaves : ¬ unreachedEnd.pool.Meets .classes .epsilon ∧ ¬ unreachedEnd.pool.Meets .classes ⟨4⟩ :=
      ⟨not_meets_of_leaf (by rw [hepsilon]; rfl) (by rw [hepsilon]; rfl),
        not_meets_of_leaf (by rw [hany]; rfl) (by rw [hany]; rfl)⟩
    simp [hleaves]
  have hderivative := derivative_unreachedEnd
  refine ⟨reachable_unreachedEnd, has_unreachedEnd, containsAnchor_unreachedEnd, hnullable,
    by rw [nullable, hnullable]; rfl, fun c => Session.outcome_of_ok (hderivative c), ?_, fun word => ?_,
    automaton_unreachedEnd⟩
  · rcases (unreachedEnd.pool.classes_failsIff unreachedEnd.expr).cases with ⟨hclasses, _⟩ | ⟨_, hcells⟩
    · exact absurd hclasses hmeets
    · exact hcells
  · cases word with
    | nil =>
        exact ⟨unreachedEnd.pool, Session.outcome_of_ok ((isMatch_nil _ _).trans (Session.ask_of_ok hnullable))⟩
    | cons c word =>
        have hpast : pastEnd.node .empty = .empty := hempty
        have hresidual : unreachedEnd.expr.residual (c :: word) unreachedEnd.pool = .ok .empty pastEnd :=
          (bind_of_ok (hderivative c)).trans (residual_empty hpast word)
        have hnothing : pastEnd.isNullable .empty = .ok false := by rw [isNullable_eq, hpast]; rfl
        exact ⟨pastEnd, Session.outcome_of_ok ((bind_of_ok hresidual).trans (Session.ask_of_ok hnothing))⟩

end Expr

end RegexAlgebra
