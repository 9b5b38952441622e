import RegexAlgebra.Pool.Session
import RegexAlgebra.Proofs.Construction

/-! # What a session does

Whatever is asked of a pool comes down to a sequence of constructor calls on its handles, so a pool that was asked
something has grown by such calls (`Pool.Grows`). What is kept by the constructors is kept by all growth; soundness and
memory are stated here.

`Ends` says how a computation ends that works on a pool: it grows the pool, and either its value is as wanted or it
fails for a stated reason. `Repeats` says that it ends in the same way when it is run again: a pool that remembers the
pool behind it answers each of its requests at once, by the answer that was given then, and stores nothing. The rules
below follow the shape of the computation.
-/

namespace RegexAlgebra

namespace Pool

variable {pool middle later : Pool} {e f : Expr}

/-! ## Growth -/

/-- The later pool comes from the earlier one by constructor calls on handles. -/
inductive Grows (pool : Pool) : Pool → Prop
  | refl : Grows pool pool
  | range {later : Pool} (low high : Char) : Grows pool later → Grows pool (later.range low high).pool
  | binary {later : Pool} {e f : Expr} (op : BinaryOp) : Grows pool later → later.Has e → later.Has f →
      Grows pool (later.binary op e f).pool
  | unary {later : Pool} {e : Expr} (op : UnaryOp) : Grows pool later → later.Has e →
      Grows pool (later.unary op e).pool

namespace Grows

theorem trans (h : pool.Grows middle) (h' : middle.Grows later) : pool.Grows later := by
  induction h' with
  | refl => exact h
  | range low high _ ih => exact .range low high ih
  | binary op _ he hf ih => exact .binary op ih he hf
  | unary op _ he ih => exact .unary op ih he

theorem sound_and_remembers (h : pool.Grows later) (hsound : pool.Sound) :
    later.Sound ∧ Remembers pool later := by
  induction h with
  | refl => exact ⟨hsound, .refl pool⟩
  | range low high _ ih =>
      have hsettles := range_settles ih.1 low high
      exact ⟨hsettles.sound, ih.2.trans hsettles.remembers⟩
  | binary op _ he hf ih =>
      have hsettles := binary_settles ih.1 op he hf
      exact ⟨hsettles.sound, ih.2.trans hsettles.remembers⟩
  | unary op _ he ih =>
      have hsettles := unary_settles ih.1 op he
      exact ⟨hsettles.sound, ih.2.trans hsettles.remembers⟩

theorem sound (h : pool.Grows later) (hsound : pool.Sound) : later.Sound := (h.sound_and_remembers hsound).1

theorem remembers (h : pool.Grows later) (hsound : pool.Sound) : Remembers pool later :=
  (h.sound_and_remembers hsound).2

theorem extends_pool (h : pool.Grows later) (hsound : pool.Sound) : Extends pool later :=
  (h.remembers hsound).toExtends

theorem has (h : pool.Grows later) (hsound : pool.Sound) (he : pool.Has e) : later.Has e :=
  (h.extends_pool hsound).has he

end Grows

end Pool

open Pool

/-! ## How a computation ends -/

section

variable {σ α β : Type} {computation : EStateM Error σ α} {next : α → EStateM Error σ β} {state middle : σ}

theorem bind_of_ok {a : α} (h : computation state = .ok a middle) :
    (computation >>= next) state = next a middle := by
  show EStateM.bind computation next state = _
  rw [EStateM.bind, h]

theorem bind_of_error {error : Error} (h : computation state = .error error middle) :
    (computation >>= next) state = .error error middle := by
  show EStateM.bind computation next state = _
  rw [EStateM.bind, h]

theorem ok_of_bind {b : β} {last : σ} (h : (computation >>= next) state = .ok b last) :
    ∃ a middle, computation state = .ok a middle ∧ next a middle = .ok b last := by
  cases hrun : computation state with
  | ok a middle => exact ⟨a, middle, rfl, (bind_of_ok hrun).symm.trans h⟩
  | error error middle =>
      rw [bind_of_error hrun] at h
      cases h

theorem bind_congr_of_ok {next' : α → EStateM Error σ β}
    (h : ∀ a middle, computation state = .ok a middle → next a middle = next' a middle) :
    (computation >>= next) state = (computation >>= next') state := by
  cases hrun : computation state with
  | ok a middle => rw [bind_of_ok hrun, bind_of_ok hrun, h a middle hrun]
  | error error middle => rw [bind_of_error hrun, bind_of_error hrun]

end

/-- Run from a state, whose pool is its `view`, a computation grows the pool. Its value and last state are as `post`
says, or its error is one of which `fails` holds. -/
def Ends {σ α : Type} (view : σ → Pool) (computation : EStateM Error σ α) (state : σ) (post : α → σ → Prop)
    (fails : Error → Prop) : Prop :=
  match computation state with
  | .ok a state' => (view state).Grows (view state') ∧ post a state'
  | .error error state' => (view state).Grows (view state') ∧ fails error

namespace Ends

variable {σ α β : Type} {view : σ → Pool} {computation : EStateM Error σ α} {state : σ} {post post' : α → σ → Prop}
  {fails fails' : Error → Prop}

theorem pure {a : α} (h : post a state) : Ends view (Pure.pure a) state post fails := ⟨.refl, h⟩

theorem throw {error : Error} (h : fails error) :
    Ends view (throw error : EStateM Error σ α) state post fails := ⟨.refl, h⟩

theorem congr {computation' : EStateM Error σ α} (hrun : computation state = computation' state)
    (h : Ends view computation' state post fails) : Ends view computation state post fails := by
  unfold Ends at h ⊢
  rw [hrun]
  exact h

theorem mono (h : Ends view computation state post fails)
    (hpost : ∀ a state', (view state).Grows (view state') → post a state' → post' a state') :
    Ends view computation state post' fails := by
  unfold Ends at h ⊢
  split at h
  · exact ⟨h.1, hpost _ _ h.1 h.2⟩
  · exact h

theorem and (h : Ends view computation state post fails) (h' : Ends view computation state post' fails') :
    Ends view computation state (fun a state' => post a state' ∧ post' a state') fun error =>
      fails error ∧ fails' error := by
  unfold Ends at h h' ⊢
  split at h <;> rename_i hrun <;> rw [hrun] at h'
  · exact ⟨h.1, h.2, h'.2⟩
  · exact ⟨h.1, h.2, h'.2⟩

theorem of_ok {a : α} {state' : σ} (h : Ends view computation state post fails)
    (hrun : computation state = .ok a state') : (view state).Grows (view state') ∧ post a state' := by
  unfold Ends at h
  rw [hrun] at h
  exact h

theorem of_error {error : Error} {state' : σ} (h : Ends view computation state post fails)
    (hrun : computation state = .error error state') : (view state).Grows (view state') ∧ fails error := by
  unfold Ends at h
  rw [hrun] at h
  exact h

/-- What is said of the value may refer to the run that gave it. -/
theorem with_run (h : Ends view computation state post fails) :
    Ends view computation state (fun a state' => computation state = .ok a state' ∧ post a state') fails := by
  unfold Ends at h ⊢
  split at h
  · rename_i hrun
    exact ⟨h.1, hrun, h.2⟩
  · exact h

theorem mono_fails (h : Ends view computation state post fails) (hfails : ∀ error, fails error → fails' error) :
    Ends view computation state post fails' := by
  unfold Ends at h ⊢
  split at h
  · exact h
  · exact ⟨h.1, hfails _ h.2⟩

theorem bind {next : α → EStateM Error σ β} {post' : β → σ → Prop} (h : Ends view computation state post fails)
    (hnext : ∀ a middle, (view state).Grows (view middle) → post a middle → Ends view (next a) middle post' fails) :
    Ends view (computation >>= next) state post' fails := by
  unfold Ends at h
  cases hrun : computation state with
  | ok a middle =>
      rw [hrun] at h
      have hends := hnext a middle h.1 h.2
      unfold Ends at hends ⊢
      rw [bind_of_ok hrun]
      split at hends
      · exact ⟨h.1.trans hends.1, hends.2⟩
      · exact ⟨h.1.trans hends.1, hends.2⟩
  | error error middle =>
      rw [hrun] at h
      unfold Ends
      rw [bind_of_error hrun]
      exact h

/-- A computation that has no reason to fail gives a value. -/
theorem returns (h : Ends view computation state post fun _ => False) :
    ∃ a state', computation state = .ok a state' ∧ (view state).Grows (view state') ∧ post a state' := by
  unfold Ends at h
  split at h
  · rename_i a state' hrun
    exact ⟨a, state', hrun, h⟩
  · exact h.2.elim

end Ends

/-! ## How a computation repeats -/

/-- Run from a state, whose pool is its `view`, the first computation ends somehow. Wherever the pool behind it is
remembered, and is `put` in the place of the pool of the state, the other computation ends as the first one did and
leaves the pool as it is. -/
def Repeats {σ α : Type} (view : σ → Pool) (put : σ → Pool → σ) (first again : EStateM Error σ α) (state : σ) : Prop :=
  match first state with
  | .ok a state' =>
    Remembers (view state) (view state') ∧
      ∀ later, Remembers (view state') later → again (put state later) = .ok a (put state' later)
  | .error error state' =>
    Remembers (view state) (view state') ∧
      ∀ later, Remembers (view state') later → again (put state later) = .error error (put state' later)

namespace Repeats

variable {σ α β : Type} {view : σ → Pool} {put : σ → Pool → σ} {first again first' again' : EStateM Error σ α}
  {state middle : σ}

theorem congr (hfirst : first state = first' state)
    (hagain : ∀ later, Remembers (view state) later → again (put state later) = again' (put state later))
    (h : Repeats view put first' again' state) : Repeats view put first again state := by
  unfold Repeats at h ⊢
  rw [hfirst]
  split at h
  · refine ⟨h.1, fun later hlater => ?_⟩
    rw [hagain later (h.1.trans hlater), h.2 later hlater]
  · refine ⟨h.1, fun later hlater => ?_⟩
    rw [hagain later (h.1.trans hlater), h.2 later hlater]

theorem pure (a : α) (state : σ) : Repeats view put (Pure.pure a) (Pure.pure a) state :=
  ⟨.refl (view state), fun _ _ => rfl⟩

theorem throw (error : Error) (state : σ) :
    Repeats view put (throw error : EStateM Error σ α) (throw error) state :=
  ⟨.refl (view state), fun _ _ => rfl⟩

theorem bind {next next' : α → EStateM Error σ β} (h : Repeats view put first again state)
    (hnext : ∀ a middle, first state = .ok a middle → Repeats view put (next a) (next' a) middle) :
    Repeats view put (first >>= next) (again >>= next') state := by
  unfold Repeats at h
  unfold Repeats
  cases hrun : first state with
  | error error middle =>
      rw [hrun] at h
      rw [bind_of_error hrun]
      exact ⟨h.1, fun later hlater => bind_of_error (h.2 later hlater)⟩
  | ok a middle =>
      rw [hrun] at h
      have hrest := hnext a middle hrun
      unfold Repeats at hrest
      rw [bind_of_ok hrun]
      split at hrest
      · refine ⟨h.1.trans hrest.1, fun later hlater => ?_⟩
        rw [bind_of_ok (h.2 later (hrest.1.trans hlater))]
        exact hrest.2 later hlater
      · refine ⟨h.1.trans hrest.1, fun later hlater => ?_⟩
        rw [bind_of_ok (h.2 later (hrest.1.trans hlater))]
        exact hrest.2 later hlater

theorem map (f : α → β) (h : Repeats view put first again state) :
    Repeats view put (f <$> first) (f <$> again) state := by
  rw [map_eq_pure_bind, map_eq_pure_bind]
  exact h.bind fun a middle _ => .pure (f a) middle

theorem of_ok {a : α} (h : Repeats view put first again state) (hrun : first state = .ok a middle) :
    ∀ later, Remembers (view middle) later → again (put state later) = .ok a (put middle later) := by
  unfold Repeats at h
  rw [hrun] at h
  exact h.2

end Repeats

namespace Session

variable {α : Type} {pool later : Pool} {session : Session α} {post : α → Pool → Prop} {fails : Error → Prop}

/-- How a session ends. -/
abbrev Ends (session : Session α) (pool : Pool) (post : α → Pool → Prop) (fails : Error → Prop) : Prop :=
  RegexAlgebra.Ends (fun pool => pool) session pool post fails

theorem ask_of_ok {question : Pool → Except Error α} {a : α} (h : question pool = .ok a) :
    ask question pool = .ok a pool := by
  rw [ask, h]

theorem ask_of_error {question : Pool → Except Error α} {error : Error} (h : question pool = .error error) :
    ask question pool = .error error pool := by
  rw [ask, h]

theorem ends_ask (question : Pool → Except Error α) (pool : Pool) :
    Ends (ask question) pool (fun a later => later = pool ∧ question pool = .ok a)
      fun error => question pool = .error error := by
  unfold Ends RegexAlgebra.Ends ask
  cases question pool with
  | ok a => exact ⟨.refl, rfl, rfl⟩
  | error error => exact ⟨.refl, rfl⟩

theorem ends_ask_of_ok {question : Pool → Except Error α} {a : α} (h : question pool = .ok a) :
    Ends (ask question) pool (fun b later => b = a ∧ later = pool) fails := by
  unfold Ends RegexAlgebra.Ends ask
  rw [h]
  exact ⟨.refl, rfl, rfl⟩

theorem outcome_of_ok {a : α} (h : session pool = .ok a later) : session.outcome pool = (.ok a, later) := by
  unfold outcome
  rw [EStateM.run, h]

theorem outcome_of_error {error : Error} (h : session pool = .error error later) :
    session.outcome pool = (.error error, later) := by
  unfold outcome
  rw [EStateM.run, h]

theorem ok_of_outcome {a : α} (h : session.outcome pool = (.ok a, later)) : session pool = .ok a later := by
  unfold outcome EStateM.run at h
  split at h
  · rename_i hrun
    cases h
    exact hrun
  · cases h

theorem error_of_outcome {error : Error} (h : session.outcome pool = (.error error, later)) :
    session pool = .error error later := by
  unfold outcome EStateM.run at h
  split at h
  · cases h
  · rename_i hrun
    cases h
    exact hrun

/-- The outcome of a session is a value or an error, as the way it ends says. -/
theorem outcome_cases (h : Ends session pool post fails) :
    (∃ a later, session.outcome pool = (.ok a, later) ∧ pool.Grows later ∧ post a later) ∨
      ∃ error later, session.outcome pool = (.error error, later) ∧ pool.Grows later ∧ fails error := by
  unfold Ends RegexAlgebra.Ends at h
  split at h <;> rename_i hrun
  · exact Or.inl ⟨_, _, outcome_of_ok hrun, h⟩
  · exact Or.inr ⟨_, _, outcome_of_error hrun, h⟩

theorem grows_outcome (h : Ends session pool post fails) : pool.Grows (session.outcome pool).2 := by
  unfold Ends RegexAlgebra.Ends at h
  unfold outcome EStateM.run
  split at h <;> rename_i hrun <;> rw [hrun] <;> exact h.1

/-! ## Constructors -/

variable {e f : Expr}

theorem ends_binary (h : pool.Sound) (op : BinaryOp) (he : pool.Has e) (hf : pool.Has f) :
    Ends (build (·.binary op e f)) pool
      (fun answer later => pool.Settles (.binary op e f) ⟨answer, later⟩) fails :=
  ⟨.binary op .refl he hf, Pool.binary_settles h op he hf⟩

theorem ends_unary (h : pool.Sound) (op : UnaryOp) (he : pool.Has e) :
    Ends (build (·.unary op e)) pool (fun answer later => pool.Settles (.unary op e) ⟨answer, later⟩) fails :=
  ⟨.unary op .refl he, Pool.unary_settles h op he⟩

/-! ## Sessions run again -/

/-- Wherever the pool behind the first session is remembered, the other session ends as the first one did, and leaves
the pool as it is. -/
abbrev Repeats (first again : Session α) (pool : Pool) : Prop :=
  RegexAlgebra.Repeats (fun pool => pool) (fun _ later => later) first again pool

theorem outcome_again {answer : Except Error α} {after : Pool} (h : Repeats session session pool)
    (hrun : session.outcome pool = (answer, after)) (hlater : Remembers after later) :
    session.outcome later = (answer, later) := by
  unfold Repeats RegexAlgebra.Repeats at h
  split at h <;> rename_i hfirst
  · rw [outcome_of_ok hfirst] at hrun
    cases hrun
    exact outcome_of_ok (h.2 later hlater)
  · rw [outcome_of_error hfirst] at hrun
    cases hrun
    exact outcome_of_error (h.2 later hlater)

/-- A question about what stays the same has the same answer again. -/
theorem repeats_ask {question question' : Pool → Except Error α}
    (h : ∀ later, Remembers pool later → question' later = question pool) :
    Repeats (ask question) (ask question') pool := by
  unfold Repeats RegexAlgebra.Repeats ask
  cases hquestion : question pool with
  | ok a => exact ⟨.refl pool, fun later hlater => by rw [h later hlater, hquestion]⟩
  | error error => exact ⟨.refl pool, fun later hlater => by rw [h later hlater, hquestion]⟩

theorem repeats_build {constructor : Pool → Built} (hremembers : Remembers pool (constructor pool).pool)
    (hagain : ∀ later, Remembers (constructor pool).pool later →
      constructor later = ⟨(constructor pool).expr, later⟩) :
    Repeats (build constructor) (build constructor) pool := by
  refine ⟨hremembers, fun later hlater => ?_⟩
  simp only [build, hagain later hlater]

theorem repeats_range (h : pool.Sound) (low high : Char) :
    Repeats (build (·.range low high)) (build (·.range low high)) pool := by
  have hsettles := range_settles h low high
  exact repeats_build hsettles.remembers fun _ hlater => hsettles.range_again hlater

theorem repeats_binary (h : pool.Sound) (op : BinaryOp) (he : pool.Has e) (hf : pool.Has f) :
    Repeats (build (·.binary op e f)) (build (·.binary op e f)) pool := by
  have hsettles := binary_settles h op he hf
  exact repeats_build hsettles.remembers fun _ hlater => hsettles.binary_again hlater

theorem repeats_unary (h : pool.Sound) (op : UnaryOp) (he : pool.Has e) :
    Repeats (build (·.unary op e)) (build (·.unary op e)) pool := by
  have hsettles := unary_settles h op he
  exact repeats_build hsettles.remembers fun _ hlater => hsettles.unary_again hlater

end Session

end RegexAlgebra
