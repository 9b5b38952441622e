import RegexAlgebra.Pattern.Text
import RegexAlgebra.Proofs.Limits
import RegexAlgebra.Proofs.Matching

/-! # Calls made again

A call that is made again ends as it did before, in a value or in an error, and leaves the pool as it is, whatever was
asked of the pool in between. Each request that it makes on its way was recorded under its own key when it was made
first, even where a rule answered it with another expression. So the answers that it goes by are the same, and so are
the requests that it makes next.
-/

namespace RegexAlgebra

open Pool Session

variable {pool later after : Pool} {e : Expr}

/-! ## Questions -/

namespace Pool.Extends

theorem nullable_eq (hext : Extends pool later) (he : pool.Has e) : later.nullable e = pool.nullable e := by
  rw [nullable, nullable, hext.isNullable_eq he]

theorem containsAnchor_eq (hext : Extends pool later) (he : pool.Has e) :
    later.containsAnchor e = pool.containsAnchor e := by
  rw [Bool.eq_iff_iff, ← not_iff_not, Bool.not_eq_true, Bool.not_eq_true, containsAnchor_eq_false_iff,
    containsAnchor_eq_false_iff, hext.anchorFree_iff he]

theorem isAll_eq (hext : Extends pool later) (he : pool.Has e) : later.isAll e = pool.isAll e := by
  rw [isAll, isAll, hext.node_eq e he]

end Pool.Extends

/-! ## Explorations -/

namespace Exploration

variable {states : List Expr} {rows : List Row} {path : Expr → List Char} {limit? : Option Nat} {fuel : Nat}

/-- The states that were found before are found again in the same order, as they are the same handles. -/
theorem exploreFrom_repeats (hpool : pool.Sound) (h : Explored pool e path states rows) :
    Session.Repeats (exploreFrom limit? fuel states rows) (exploreFrom limit? fuel states rows) pool := by
  induction fuel generalizing pool path states rows with
  | zero => exact .throw _ pool
  | succ fuel ih =>
      unfold exploreFrom
      cases hs : states[rows.length]? with
      | none => exact .pure rows pool
      | some s =>
          have hmem : s ∈ states := List.mem_of_getElem? hs
          have hhas := h.has s hmem
          apply (repeats_ask fun _ hlater => hlater.classes_eq hhas).bind
          intro cells pool₁ hrun
          obtain ⟨_, rfl, hclasses⟩ := (ends_ask (·.classes s) pool).of_ok hrun
          apply (expand_repeats hpool hhas).bind
          intro result middle hrun
          obtain ⟨hgrows, hedges, path', hdiscovered, hcontinues, hlength⟩ :=
            (expand_ends hpool h.toDiscovered hmem (h.waiting s hs)).of_ok hrun
          apply (repeats_ask fun _ hlater => hlater.isNullable_eq (hgrows.has hpool hhas)).bind
          intro isFinal pool₂ hrun
          obtain ⟨_, rfl, hnullable⟩ := (ends_ask (·.isNullable s) middle).of_ok hrun
          exact ih (hgrows.sound hpool)
            (h.add hs (hgrows.remembers hpool) hclasses hedges hdiscovered hcontinues hlength hnullable)

end Exploration

/-! ## Calls -/

namespace Expr

theorem isMatch_repeats (h : pool.Sound) (he : pool.Has e) (word : List Char) :
    Session.Repeats (e.isMatch word) (e.isMatch word) pool := by
  apply (residual_repeats h he word).bind
  intro d middle hrun
  obtain ⟨_, hd⟩ := (residual_ends h he word).of_ok hrun
  exact repeats_ask fun _ hlater => hlater.isNullable_eq hd.has

theorem automaton_repeats (h : pool.Sound) (he : pool.Has e) (settings : Settings) :
    Session.Repeats (e.automaton settings) (e.automaton settings) pool := by
  apply (repeats_ask fun _ _ => rfl).bind
  intro _ pool₁ hrun
  obtain ⟨_, rfl, _⟩ := (ends_ask (fun _ => Exploration.checkLimit settings.limit? 1) pool).of_ok hrun
  apply (Exploration.exploreFrom_repeats h (Exploration.explored_start he)).bind
  intro rows built _
  exact .pure _ built

end Expr

namespace Pattern

theorem toExpr_repeats (pattern : Pattern) (h : pool.Sound) :
    Session.Repeats pattern.toExpr pattern.toExpr pool := (toExpr_builds pattern h).repeats

variable (parse : String → Except SyntaxError Pattern) (text : String)

theorem searchBy_repeats (h : pool.Sound) : Session.Repeats (searchBy parse text) (searchBy parse text) pool := by
  unfold searchBy
  cases parse text with
  | error cause => exact .throw _ pool
  | ok pattern =>
      apply (pattern.toExpr_repeats h).bind
      intro e middle hrun
      obtain ⟨hgrows, _, he⟩ := (pattern.toExpr_yields h).of_ok hrun
      exact e.removeAnchors_repeats (hgrows.sound h) he.has

theorem grows_searchBy (h : pool.Sound) : pool.Grows ((searchBy parse text).outcome pool).2 := by
  have hends : Session.Ends (searchBy parse text) pool (fun _ _ => True) fun _ => True := by
    unfold searchBy
    cases parse text with
    | error cause => exact .throw trivial
    | ok pattern =>
        apply ((pattern.toExpr_yields h).mono_fails fun _ _ => trivial).bind
        intro e middle hgrows he
        apply ((e.removeAnchors_ends (hgrows.sound h) he.2.has).mono_fails fun _ => False.elim).mono
        intro d later _ _
        exact trivial
  exact Session.grows_outcome hends

end Pattern

theorem Call.perform_repeats (h : pool.Sound) (call : Call) (he : ∀ e ∈ call.handles, pool.Has e) :
    Session.Repeats call.perform call.perform pool := by
  cases call with
  | range low high => exact (repeats_range h low high).map _
  | binary op e f =>
      have hleft : pool.Has e := he e (by simp [handles])
      have hright : pool.Has f := he f (by simp [handles])
      exact (repeats_binary h op hleft hright).map _
  | unary op e => exact (repeats_unary h op (he e (by simp [handles]))).map _
  | dot => exact (repeats_range h Symbol.first Symbol.last).map _
  | all => exact (repeats_unary h .negate h.has_empty).map _
  | opt e => exact (repeats_binary h .union h.has_epsilon (he e (by simp [handles]))).map _
  | repetition e min max =>
      have hhas : pool.Has e := he e (by simp [handles])
      exact (Pattern.repetitionExpr_builds h (expresses_matches hhas) min (some max)).repeats.map _
  | exactly e count =>
      have hhas : pool.Has e := he e (by simp [handles])
      exact (builds_copies h (expresses_matches hhas) count).repeats.map _
  | nullable e => exact (repeats_ask fun _ hlater => hlater.nullable_eq (he e (by simp [handles]))).map _
  | derivative e c => exact (e.derivative_repeats h (he e (by simp [handles])) (Or.inl rfl) .refl).map _
  | classes e => exact (repeats_ask fun _ hlater => hlater.classes_eq (he e (by simp [handles]))).map _
  | isMatch e word => exact (e.isMatch_repeats h (he e (by simp [handles])) word).map _
  | removeAnchors e => exact (e.removeAnchors_repeats h (he e (by simp [handles]))).map _
  | ofPattern pattern => exact (pattern.toExpr_repeats h).map _
  | automaton e settings => exact (e.automaton_repeats h (he e (by simp [handles])) settings).map _

/-- On every pool with a history, every call has its outcome for good, be it a value or an error: made again, after
whatever else was asked of the pool, it gives the same handles, and the pool stays as it is. So has the search for a
pattern that is given as text, however texts are parsed. What is asked of the nodes of a handle is answered for good by
the handle alone. -/
theorem outcomes_are_stable (h : pool.Reachable) :
    (∀ (call : Call) answer after, (∀ e ∈ call.handles, pool.Has e) → call.run pool = (answer, after) →
      ∀ later, after.Later later → call.run later = (answer, later)) ∧
    (∀ parse text answer after, (Pattern.searchBy parse text).outcome pool = (answer, after) →
      ∀ later, after.Later later → (Pattern.searchBy parse text).outcome later = (answer, later)) ∧
    ∀ e, pool.Has e → ∀ later, pool.Later later →
      later.Has e ∧ later.node e = pool.node e ∧ later.isNullable e = pool.isNullable e ∧
        later.isAll e = pool.isAll e ∧ later.containsAnchor e = pool.containsAnchor e := by
  have hpool := h.sound
  refine ⟨?_, ?_, ?_⟩
  · intro call answer after he hrun later hlater
    have hafter : after.Sound := by
      have hgrows := call.grows_run hpool he
      rw [hrun] at hgrows
      exact hgrows.sound hpool
    exact outcome_again (call.perform_repeats hpool he) hrun (hlater.remembers hafter)
  · intro parse text answer after hrun later hlater
    have hafter : after.Sound := by
      have hgrows := Pattern.grows_searchBy parse text hpool
      rw [hrun] at hgrows
      exact hgrows.sound hpool
    exact outcome_again (Pattern.searchBy_repeats parse text hpool) hrun (hlater.remembers hafter)
  · intro e he later hlater
    have hext := (hlater.remembers hpool).toExtends
    exact ⟨hext.has he, hext.node_eq e he, hext.isNullable_eq he, hext.isAll_eq he, hext.containsAnchor_eq he⟩

/-- The removal of its anchors, and the anchor that its nullability meets, are the same after a further call. -/
theorem outcomes_of_wholeEmpty :
    ∃ d cleared, (Call.removeAnchors wholeEmpty.expr).run wholeEmpty.pool = (.ok (.expr d), cleared) ∧
      (Call.nullable wholeEmpty.expr).run wholeEmpty.pool =
        (.error (.anchorReached .nullability), wholeEmpty.pool) ∧
      ∀ last, ((Call.range 'a' 'z').run cleared).2 = last →
        (Call.removeAnchors wholeEmpty.expr).run last = (.ok (.expr d), last) ∧
        (Call.nullable wholeEmpty.expr).run last = (.error (.anchorReached .nullability), last) := by
  have hremove : ∀ e ∈ (Call.removeAnchors wholeEmpty.expr).handles, wholeEmpty.pool.Has e :=
    List.forall_mem_singleton.2 has_wholeEmpty
  have hask : ∀ e ∈ (Call.nullable wholeEmpty.expr).handles, wholeEmpty.pool.Has e := hremove
  have hstable := outcomes_are_stable reachable_wholeEmpty
  obtain ⟨d, cleared, hrun, _⟩ := (Expr.removeAnchors_ends settles_wholeEmpty.sound has_wholeEmpty).returns
  have hcleared : (Call.removeAnchors wholeEmpty.expr).run wholeEmpty.pool = (.ok (.expr d), cleared) := by
    apply outcome_of_ok
    show (Answer.expr <$> wholeEmpty.expr.removeAnchors) wholeEmpty.pool = _
    rw [map_eq_pure_bind]
    exact bind_of_ok hrun
  have hnullable : (Call.nullable wholeEmpty.expr).run wholeEmpty.pool =
      (.error (.anchorReached .nullability), wholeEmpty.pool) := by
    have hstart : wholeEmpty.pool.isNullable .startAnchor = .error (.anchorReached .nullability) := by
      rw [isNullable_eq, settles_wholeEmpty.sound.leaves.2.2.1]
      rfl
    have hwhole : wholeEmpty.pool.nullable wholeEmpty.expr = .error (.anchorReached .nullability) := by
      rw [nullable, isNullable_eq, node_wholeEmpty]
      simp only [nodeIsNullable, hstart]
      rfl
    apply outcome_of_error
    show (Answer.expr <$> ask (·.nullable wholeEmpty.expr)) wholeEmpty.pool = _
    rw [map_eq_pure_bind]
    apply bind_of_error
    rw [ask, hwhole]
  refine ⟨d, cleared, hcleared, hnullable, ?_⟩
  rintro last rfl
  have hlater : cleared.Later ((Call.range 'a' 'z').run cleared).2 := .call _ .refl (by simp [Call.handles])
  have hlater' : wholeEmpty.pool.Later ((Call.range 'a' 'z').run cleared).2 := by
    have hfirst := Later.call (Call.removeAnchors wholeEmpty.expr) .refl hremove
    rw [hcleared] at hfirst
    exact .call _ hfirst (by simp [Call.handles])
  exact ⟨hstable.1 _ _ _ hremove hcleared _ hlater, hstable.1 _ _ _ hask hnullable _ hlater'⟩

end RegexAlgebra
