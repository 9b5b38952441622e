import RegexAlgebra.Proofs.Termination

/-! # What holds of recorded answers

A pool answers a request that was made before by what it recorded then. So a relation between requests and their answers
holds on every pool with a history if the rules make it hold: of the answers that they know, of the nodes that are
stored, and of what they put together from the answers to smaller requests.
-/

namespace RegexAlgebra

open Pool

/-- The reduction makes the relation hold of the request and its answer, provided that it holds of the requests that the
reduction leads to. -/
def Reduction.Makes (R : Pool → BinaryOp → Expr → Expr → Expr → Prop) (pool : Pool) (op : BinaryOp) (e f : Expr) :
    Reduction → Prop
  | .done answer => R pool op e f answer
  | .range interval => ∀ later answer, Extends pool later → later.Canonical →
      later.Formed answer (.range interval) → R later op e f answer
  | .swap => ∀ later answer, Extends pool later → R later op f e answer → R later op e f answer
  | .regroup first second third => ∀ later rest answer, Extends pool later → later.Canonical → later.Has rest →
      R later op second third rest → R later op first rest answer → R later op e f answer
  | .keep => ∀ later answer, Extends pool later → later.Canonical → later.Has answer →
      later.node answer = .binary op e f → R later op e f answer

/-- What holds of all answers to a request needs no rule. -/
theorem Reduction.makes_of_forall {R : Pool → BinaryOp → Expr → Expr → Expr → Prop} {op : BinaryOp} {e f : Expr}
    (h : ∀ pool a, R pool op e f a) (pool : Pool) (reduction : Reduction) : reduction.Makes R pool op e f := by
  cases reduction with
  | done => exact h pool _
  | range => exact fun later answer _ _ _ => h later answer
  | swap => exact fun later answer _ _ => h later answer
  | regroup => exact fun later _ answer _ _ _ _ _ => h later answer
  | keep => exact fun later answer _ _ _ _ => h later answer

/-- The rules make the relation hold, and no further request ends it. -/
structure MadeByRules (R : Pool → BinaryOp → Expr → Expr → Expr → Prop) : Prop where
  mono : ∀ {pool later : Pool} {op e f a}, Extends pool later → pool.Has e → pool.Has f → pool.Has a →
    R pool op e f a → R later op e f a
  makes : ∀ {pool : Pool} {op e f}, pool.Sound → pool.Canonical → pool.Has e → pool.Has f →
    (pool.rule op e f).Makes R pool op e f

namespace Pool

variable {R : Pool → BinaryOp → Expr → Expr → Expr → Prop} {pool later : Pool} {op : BinaryOp} {e f a : Expr}
  {request : Node}

/-- The relation holds of the binary requests that were made and their answers. -/
def Recorded (R : Pool → BinaryOp → Expr → Expr → Expr → Prop) (pool : Pool) : Prop :=
  ∀ op e f a, pool.answer? (.binary op e f) = some a → R pool op e f a

namespace Recorded

/-- It is enough to look at the answers that are new. -/
theorem extend (h : Recorded R pool) (hR : MadeByRules R) (hsound : pool.Sound) (hext : Extends pool later)
    (hnew : ∀ {op e f a}, later.answer? (.binary op e f) = some a →
      pool.answer? (.binary op e f) = some a ∨ R later op e f a) : Recorded R later := by
  intro op e f a hanswer
  rcases hnew hanswer with hold | hnew
  · have hanswers := hsound.answers hold
    exact hR.mono hext hanswers.has_left hanswers.has_right hanswers.has (h _ _ _ _ hold)
  · exact hnew

theorem of_same_answers (h : Recorded R pool) (hR : MadeByRules R) (hsound : pool.Sound) (hext : Extends pool later)
    (hsame : ∀ op e f, later.answer? (.binary op e f) = pool.answer? (.binary op e f)) : Recorded R later :=
  h.extend hR hsound hext fun hanswer => Or.inl (hsame _ _ _ ▸ hanswer)

theorem record (h : Recorded R pool) (hR : MadeByRules R) (hsound : pool.Sound) (he : pool.Has e) (hf : pool.Has f)
    (ha : pool.Has a) (hanswer : R pool op e f a) : Recorded R (pool.record (.binary op e f) a).pool := by
  have hext := pool.extends_record (.binary op e f) a
  refine h.extend hR hsound hext fun {op' e' f' a'} hrecorded => ?_
  rw [answer?_record] at hrecorded
  split at hrecorded
  · rename_i heq
    cases heq
    cases hrecorded
    exact Or.inr (hR.mono hext he hf ha hanswer)
  · exact Or.inl hrecorded

theorem store (h : Recorded R pool) (hR : MadeByRules R) (hsound : pool.Sound)
    (ho : ∀ o ∈ (Node.binary op e f).operands, pool.Has o)
    (hanswer : R (pool.store (.binary op e f)).pool op e f (pool.store (.binary op e f)).expr) :
    Recorded R (pool.store (.binary op e f)).pool := by
  refine h.extend hR hsound (pool.extends_store _) fun {op' e' f' a'} hrecorded => ?_
  rw [answer?_store ho] at hrecorded
  split at hrecorded
  · rename_i heq
    cases heq
    cases hrecorded
    exact Or.inr hanswer
  · exact Or.inl hrecorded

/-! ## Constructors -/

theorem range (h : Recorded R pool) (hR : MadeByRules R) (hsound : pool.Sound) (low high : Char) :
    Recorded R (pool.range low high).pool :=
  h.of_same_answers hR hsound (pool.extends_range low high) fun _ _ _ => answer?_range_of_ne (by simp)

theorem negate (h : Recorded R pool) (hR : MadeByRules R) (hsound : pool.Sound) (e : Expr) :
    Recorded R (pool.negate e).pool :=
  h.of_same_answers hR hsound (pool.extends_negate e) fun _ _ _ => answer?_negate_of_ne (by simp)

theorem star (h : Recorded R pool) (hR : MadeByRules R) (hsound : pool.Sound) (e : Expr) :
    Recorded R (pool.star e).pool :=
  h.of_same_answers hR hsound (pool.extends_star e) fun _ _ _ => answer?_star_of_ne (by simp) (by simp)

theorem binary (h : Recorded R pool) (hR : MadeByRules R) (hsound : pool.Sound) (hcanonical : pool.Canonical)
    (op : BinaryOp) (he : pool.Has e) (hf : pool.Has f) : Recorded R (pool.binary op e f).pool := by
  have hmakes : (pool.rule op e f).Makes R pool op e f := hR.makes hsound hcanonical he hf
  have hsettles := binary_settles hsound op he hf
  have hfinal := hcanonical.binary hsound op he hf
  revert hsettles hfinal
  fun_induction Pool.binary pool op e f with
  | case1 => exact fun _ _ => h
  | case2 pool e f hopen answer hrule =>
      rw [hrule] at hmakes
      exact fun hsettles _ => h.record hR hsound he hf hsettles.answers.has hmakes
  | case3 pool e f hopen interval hrule range =>
      rw [hrule] at hmakes
      have hrange := range_settles hsound interval.low interval.high
      have hext := hrange.remembers.toExtends
      have hcanonical' := hcanonical.range hsound interval.low interval.high
      have hanswer := hmakes _ _ hext hcanonical' (hcanonical'.formed hrange.answer?_eq)
      exact fun hsettles _ => (h.range hR hsound interval.low interval.high).record hR hrange.sound (hext.has he)
        (hext.has hf) hsettles.answers.has hanswer
  | case4 pool e f hopen hrule swapped ih =>
      rw [hrule] at hmakes
      have hswapped := binary_settles hsound op hf he
      have hext := hswapped.remembers.toExtends
      have hrecorded := ih h hsound hcanonical hf he (hR.makes hsound hcanonical hf he) hswapped
        (hcanonical.binary hsound op hf he)
      exact fun hsettles _ => hrecorded.record hR hswapped.sound (hext.has he) (hext.has hf) hsettles.answers.has
        (hmakes _ _ hext (hrecorded _ _ _ _ hswapped.answer?_eq))
  | case5 pool e f hopen x y z hrule rest whole ihrest ihwhole =>
      obtain ⟨hx, hy, hz⟩ := has_regroup hsound he hf hrule
      rw [hrule] at hmakes
      have hrest := binary_settles hsound op hy hz
      have hcanonical' := hcanonical.binary hsound op hy hz
      have hrecorded := ihrest h hsound hcanonical hy hz (hR.makes hsound hcanonical hy hz) hrest hcanonical'
      have hx' := hrest.remembers.has hx
      have hr := hrest.answers.has
      have hwhole := binary_settles hrest.sound op hx' hr
      have hcanonical'' := hcanonical'.binary hrest.sound op hx' hr
      have hrecorded' := ihwhole hrecorded hrest.sound hcanonical' hx' hr (hR.makes hrest.sound hcanonical' hx' hr)
        hwhole hcanonical''
      have hlater := hwhole.remembers.toExtends
      have hext := hrest.remembers.toExtends.trans hlater
      have hmiddle := hR.mono hlater (hrest.remembers.has hy) (hrest.remembers.has hz) hr
        (hrecorded _ _ _ _ hrest.answer?_eq)
      exact fun hsettles _ => hrecorded'.record hR hwhole.sound (hext.has he) (hext.has hf) hsettles.answers.has
        (hmakes _ _ _ hext hcanonical'' (hlater.has hr) hmiddle (hrecorded' _ _ _ _ hwhole.answer?_eq))
  | case6 pool e f hopen hrule =>
      rw [hrule] at hmakes
      intro hsettles hfinal
      have ho := hsettles.operands_has
      exact h.store hR hsound ho (hmakes _ _ (pool.extends_store _) hfinal (has_store ho) (pool.node_store ho))

end Recorded

theorem Grows.recorded (hgrows : pool.Grows later) (hsound : pool.Sound) (hcanonical : pool.Canonical)
    (hR : MadeByRules R) (h : Recorded R pool) : Recorded R later := by
  induction hgrows with
  | refl => exact h
  | range low high hgrows ih => exact ih.range hR (hgrows.sound hsound) low high
  | binary op hgrows he hf ih =>
      exact ih.binary hR (hgrows.sound hsound) (hgrows.canonical hsound hcanonical) op he hf
  | @unary middle e op hgrows he ih =>
      cases op with
      | star => exact ih.star hR (hgrows.sound hsound) e
      | negate => exact ih.negate hR (hgrows.sound hsound) e

/-- What the rules make true of answers is true of all that a pool with a history has recorded. -/
theorem Reachable.recorded (h : pool.Reachable) (hR : MadeByRules R) : Recorded R pool := by
  induction h with
  | new =>
      intro op e f a hanswer
      rw [answer?_new] at hanswer
      cases hanswer
  | call call hreachable he ih =>
      exact (call.grows_run hreachable.sound he).recorded hreachable.sound hreachable.canonical hR ih

end Pool

end RegexAlgebra
