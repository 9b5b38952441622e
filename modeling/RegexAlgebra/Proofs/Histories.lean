import RegexAlgebra.Pool.History
import RegexAlgebra.Proofs.Exploration
import RegexAlgebra.Proofs.Patterns
import RegexAlgebra.Proofs.Removal

/-! # Every call grows the pool

Whatever is asked of a pool, it comes down to constructor calls on handles, whether the call succeeds or fails. So every
pool with a history is sound, and a pool with a longer history remembers all of a shorter one.
-/

namespace RegexAlgebra

open Pool

variable {pool later : Pool} {e : Expr}

theorem Session.grows_map {α β : Type} {session : Session α} {post : α → Pool → Prop} {fails : Error → Prop}
    (f : α → β) (h : Session.Ends session pool post fails) : pool.Grows ((f <$> session).outcome pool).2 := by
  have hmap : Session.Ends (f <$> session) pool (fun _ _ => True) fails := by
    rw [map_eq_pure_bind]
    exact h.bind fun _ _ _ _ => .pure trivial
  exact Session.grows_outcome hmap

theorem Call.grows_run (h : pool.Sound) (call : Call) (he : ∀ e ∈ call.handles, pool.Has e) :
    pool.Grows (call.run pool).2 := by
  cases call with
  | range low high => exact Session.grows_map _ (Session.builds_range h ⟨low, high⟩).yields
  | binary op e f =>
      have hleft : pool.Has e := he e (by simp [handles])
      have hright : pool.Has f := he f (by simp [handles])
      exact Session.grows_map _ (Session.builds_binary h op (expresses_matches hleft) (expresses_matches hright)).yields
  | unary op e =>
      have hhas : pool.Has e := he e (by simp [handles])
      exact Session.grows_map _ (Session.builds_unary h op (expresses_matches hhas)).yields
  | dot => exact Session.grows_map _ (Session.builds_range h .full).yields
  | all => exact Session.grows_map _ (Session.builds_unary h .negate h.expresses_empty).yields
  | opt e =>
      have hhas : pool.Has e := he e (by simp [handles])
      exact Session.grows_map _ (Session.builds_binary h .union h.expresses_epsilon (expresses_matches hhas)).yields
  | repetition e min max =>
      have hhas : pool.Has e := he e (by simp [handles])
      exact Session.grows_map _ (Pattern.repetitionExpr_builds h (expresses_matches hhas) min (some max)).yields
  | exactly e count =>
      have hhas : pool.Has e := he e (by simp [handles])
      exact Session.grows_map _ (Session.builds_copies h (expresses_matches hhas) count).yields
  | nullable e => exact Session.grows_map _ (Session.ends_ask (·.nullable e) pool)
  | derivative e c => exact Session.grows_map _ (e.derivative_ends h (he e (by simp [handles])) c .refl)
  | classes e => exact Session.grows_map _ (Session.ends_ask (·.classes e) pool)
  | isMatch e word => exact Session.grows_map _ (e.isMatch_ends h (he e (by simp [handles])) word)
  | removeAnchors e => exact Session.grows_map _ (e.removeAnchors_ends h (he e (by simp [handles])))
  | ofPattern pattern => exact Session.grows_map _ (pattern.toExpr_yields h)
  | automaton e settings => exact Session.grows_map _ (e.automaton_ends h (he e (by simp [handles])) settings)

namespace Pool

theorem Reachable.sound (h : pool.Reachable) : pool.Sound := by
  induction h with
  | new => exact sound_new
  | call call _ he ih => exact (call.grows_run ih he).sound ih

theorem Reachable.range (h : pool.Reachable) (low high : Char) : (pool.range low high).pool.Reachable :=
  .call (.range low high) h (List.forall_mem_nil _)

theorem Reachable.unary (h : pool.Reachable) (op : UnaryOp) (he : pool.Has e) : (pool.unary op e).pool.Reachable :=
  .call (.unary op e) h (List.forall_mem_singleton.2 he)

theorem Reachable.binary {f : Expr} (h : pool.Reachable) (op : BinaryOp) (he : pool.Has e) (hf : pool.Has f) :
    (pool.binary op e f).pool.Reachable :=
  .call (.binary op e f) h (List.forall_mem_cons.2 ⟨he, List.forall_mem_singleton.2 hf⟩)

theorem Later.reachable (h : pool.Later later) (hpool : pool.Reachable) : later.Reachable := by
  induction h with
  | refl => exact hpool
  | call call _ he ih => exact .call call ih he

theorem Later.trans {last : Pool} (h : pool.Later later) (hlast : later.Later last) : pool.Later last := by
  induction hlast with
  | refl => exact h
  | call call _ he ih => exact .call call ih he

theorem Later.grows (h : pool.Later later) (hsound : pool.Sound) : pool.Grows later := by
  induction h with
  | refl => exact .refl
  | call call _ he ih => exact ih.trans (call.grows_run (ih.sound hsound) he)

theorem Later.remembers (h : pool.Later later) (hsound : pool.Sound) : Remembers pool later :=
  (h.grows hsound).remembers hsound

theorem Later.has (h : pool.Later later) (hsound : pool.Sound) (he : pool.Has e) : later.Has e :=
  (h.remembers hsound).has he

theorem Later.binary {f : Expr} (h : pool.Later later) (op : BinaryOp) (he : later.Has e) (hf : later.Has f) :
    pool.Later (later.binary op e f).pool :=
  .call (.binary op e f) h (List.forall_mem_cons.2 ⟨he, List.forall_mem_singleton.2 hf⟩)

end Pool

/-! ## Pools with a short history -/

theorem dot_new : new.dot = new.store (.range .full) := range_of_open (answer?_new _) (by decide)

theorem reachable_dot : new.dot.pool.Reachable := Reachable.new.range Symbol.first Symbol.last

theorem has_dot : new.dot.pool.Has new.dot.expr := (range_settles sound_new Symbol.first Symbol.last).answers.has

/-- One lower case letter, on a pool that was asked for nothing else. -/
def lowercase : Built := new.range 'a' 'z'

theorem lowercase_eq : lowercase = new.store (.range ⟨'a', 'z'⟩) := range_of_open (answer?_new _) (by decide)

theorem settles_lowercase : new.Settles (.range ⟨'a', 'z'⟩) lowercase := range_settles sound_new 'a' 'z'

theorem reachable_lowercase : lowercase.pool.Reachable := Reachable.new.range 'a' 'z'

theorem has_lowercase : lowercase.pool.Has lowercase.expr := settles_lowercase.answers.has

theorem anchorFree_lowercase : lowercase.pool.AnchorFree lowercase.expr :=
  settles_lowercase.answers.anchorFree rfl (by simp [Node.operands])

theorem expr_lowercase : lowercase.expr = ⟨4⟩ := by
  rw [lowercase_eq]
  rfl

theorem node_lowercase : lowercase.pool.node lowercase.expr = .range ⟨'a', 'z'⟩ := by
  rw [lowercase_eq]
  exact node_store new (by simp [Node.operands])

/-- The empty input, as one anchor after the other on a pool that was asked for nothing else. -/
def wholeEmpty : Built := new.concat .startAnchor .endAnchor

theorem wholeEmpty_eq : wholeEmpty = new.store (.binary .concat .startAnchor .endAnchor) :=
  binary_of_open (answer?_new _)

theorem settles_wholeEmpty : new.Settles (.binary .concat .startAnchor .endAnchor) wholeEmpty :=
  binary_settles sound_new .concat sound_new.has_startAnchor sound_new.has_endAnchor

theorem reachable_wholeEmpty : wholeEmpty.pool.Reachable :=
  Reachable.new.binary .concat sound_new.has_startAnchor sound_new.has_endAnchor

theorem has_wholeEmpty : wholeEmpty.pool.Has wholeEmpty.expr := settles_wholeEmpty.answers.has

theorem node_wholeEmpty : wholeEmpty.pool.node wholeEmpty.expr = .binary .concat .startAnchor .endAnchor := by
  rw [wholeEmpty_eq]
  exact node_store new (Node.forall_operands_binary.2 ⟨sound_new.has_startAnchor, sound_new.has_endAnchor⟩)

/-- Both anchors hold at one position only if there is no other position. -/
theorem matches_wholeEmpty (input : List Char) :
    Pieces.Agree input (wholeEmpty.pool.Matches input wholeEmpty.expr) fun _ _ => input = [] := by
  obtain ⟨_, _, hstart, hend⟩ := settles_wholeEmpty.sound.leaves
  have hwhole : wholeEmpty.pool.Matches input wholeEmpty.expr =
      Pieces.Concat (wholeEmpty.pool.Matches input .startAnchor) (wholeEmpty.pool.Matches input .endAnchor) :=
    matches_of_node node_wholeEmpty
  have hleft : wholeEmpty.pool.Matches input .startAnchor = fun i j => i = 0 ∧ j = 0 := matches_of_node hstart
  have hright : wholeEmpty.pool.Matches input .endAnchor = fun i j => i = input.length ∧ j = input.length :=
    matches_of_node hend
  intro i j hij
  rw [hwhole, hleft, hright]
  constructor
  · intro hparts
    obtain ⟨k, _, _, ⟨_, hk⟩, hk', _⟩ := hparts
    exact List.length_eq_zero_iff.1 (hk'.symm.trans hk)
  · rintro rfl
    obtain ⟨hle, hj⟩ := hij
    obtain rfl := Nat.le_zero.1 hj
    obtain rfl := Nat.le_zero.1 hle
    exact ⟨0, Nat.le_refl 0, Nat.le_refl 0, ⟨rfl, rfl⟩, rfl, rfl⟩

end RegexAlgebra
