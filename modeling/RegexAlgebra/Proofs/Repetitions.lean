import RegexAlgebra.Proofs.Sessions

/-! # Repetitions

The constructors act on what handles express as the operators act on relations. So copies of a handle in front of
another one express a power in front of it, and with a copy for each repetition that must be made, and an optional copy
for each one that may be made, a handle expresses all powers between two bounds.
-/

namespace RegexAlgebra.Pool

variable {pool later : Pool} {e f tail a : Expr} {request : Node} {R S : List Char → Pieces} {min max : Nat}

/-! ## Handles that express relations -/

/-- The handle matches just the pieces that the relations hold of, one relation for each input. -/
structure Expresses (pool : Pool) (R : List Char → Pieces) (e : Expr) : Prop where
  has : pool.Has e
  agree : ∀ input, Pieces.Agree input (pool.Matches input e) (R input)

theorem expresses_matches (he : pool.Has e) : pool.Expresses (fun input => pool.Matches input e) e :=
  ⟨he, fun input => .refl input _⟩

namespace Expresses

theorem mono (h : pool.Expresses R e) (hext : Extends pool later) : later.Expresses R e where
  has := hext.has h.has
  agree := fun input => by
    rw [hext.matches_eq h.has]
    exact h.agree input

theorem congr (h : pool.Expresses R e) (hagree : ∀ input, Pieces.Agree input (R input) (S input)) :
    pool.Expresses S e := ⟨h.has, fun input => (h.agree input).trans (hagree input)⟩

end Expresses

theorem Sound.expresses_empty (h : pool.Sound) : pool.Expresses (fun _ _ _ => False) .empty where
  has := h.has_empty
  agree := fun input => by
    rw [h.matches_empty]
    exact .refl input _

theorem Sound.expresses_epsilon (h : pool.Sound) : pool.Expresses (fun _ i j => i = j) .epsilon where
  has := h.has_epsilon
  agree := fun input => by
    rw [h.matches_epsilon]
    exact .refl input _

theorem Sound.expresses_startAnchor (h : pool.Sound) : pool.Expresses (fun _ i j => i = 0 ∧ j = 0) .startAnchor where
  has := h.has_startAnchor
  agree := fun input => by
    rw [matches_of_node h.leaves.2.2.1]
    exact .refl input _

theorem Sound.expresses_endAnchor (h : pool.Sound) :
    pool.Expresses (fun input i j => i = input.length ∧ j = input.length) .endAnchor where
  has := h.has_endAnchor
  agree := fun input => by
    rw [matches_of_node h.leaves.2.2.2]
    exact .refl input _

namespace Settles

variable {built : Built}

theorem expresses_range {interval : Interval} (h : pool.Settles (.range interval) built) :
    built.pool.Expresses (fun input => Pieces.Symbol input (· ∈ interval)) built.expr :=
  ⟨h.answers.has, h.answers.agree⟩

theorem expresses_binary {op : BinaryOp} (h : pool.Settles (.binary op e f) built) (he : pool.Expresses R e)
    (hf : pool.Expresses S f) : built.pool.Expresses (fun input => op.pieces (R input) (S input)) built.expr where
  has := h.answers.has
  agree := fun input =>
    have hext := h.remembers.toExtends
    (h.answers.agree input).trans (.binary op ((he.mono hext).agree input) ((hf.mono hext).agree input))

theorem expresses_unary {op : UnaryOp} (h : pool.Settles (.unary op e) built) (he : pool.Expresses R e) :
    built.pool.Expresses (fun input => op.pieces (R input)) built.expr where
  has := h.answers.has
  agree := fun input => (h.answers.agree input).trans (.unary op ((he.mono h.remembers.toExtends).agree input))

end Settles

/-! ## Copies -/

theorem prepend_expresses (h : pool.Sound) (he : pool.Expresses R e) (htail : pool.Expresses S tail) (count : Nat) :
    pool.Grows (pool.prepend e count tail).pool ∧
      (pool.prepend e count tail).pool.Expresses (fun input => Pieces.Concat (Pieces.Power (R input) count) (S input))
        (pool.prepend e count tail).expr := by
  induction count generalizing pool tail S with
  | zero =>
      refine ⟨.refl, htail.congr fun input i j hij => ?_⟩
      exact (Pieces.concat_eq_right.trans (and_iff_right hij.1)).symm
  | succ count ih =>
      have hsettles := binary_settles h .concat he.has htail.has
      have hlonger := hsettles.expresses_binary he htail
      obtain ⟨hgrows, hrest⟩ := ih hsettles.sound (he.mono hsettles.remembers.toExtends) hlonger
      have hfirst : pool.Grows (pool.concat e tail).pool := .binary .concat .refl he.has htail.has
      refine ⟨hfirst.trans hgrows, hrest.congr fun input => .of_iff fun i j => ?_⟩
      have hpower : Pieces.Power (R input) (count + 1) = Pieces.Concat (Pieces.Power (R input) count) (R input) :=
        Pieces.eq_of_iff fun _ _ => Pieces.power_succ_right
      rw [hpower]
      exact Pieces.concat_assoc.symm

theorem repeatExactly_expresses (h : pool.Sound) (he : pool.Expresses R e) (count : Nat) :
    pool.Grows (pool.repeatExactly e count).pool ∧
      (pool.repeatExactly e count).pool.Expresses (fun input => Pieces.Power (R input) count)
        (pool.repeatExactly e count).expr := by
  obtain ⟨hgrows, hcopies⟩ := prepend_expresses h he h.expresses_epsilon count
  exact ⟨hgrows, hcopies.congr fun input => .of_iff fun i j =>
    Pieces.concat_eq_left.trans (and_iff_right_of_imp Pieces.Power.le)⟩

/-- Each copy is known when the copies are asked for again. -/
theorem prepend_again (h : pool.Sound) (he : pool.Has e) (htail : pool.Has tail) (count : Nat)
    (hlater : Remembers (pool.prepend e count tail).pool later) :
    later.prepend e count tail = ⟨(pool.prepend e count tail).expr, later⟩ := by
  induction count generalizing pool tail with
  | zero => rfl
  | succ count ih =>
      have hsettles := binary_settles h .concat he htail
      have he' := hsettles.remembers.has he
      have hlonger := hsettles.answers.has
      obtain ⟨hgrows, _⟩ := prepend_expresses hsettles.sound (expresses_matches he') (expresses_matches hlonger) count
      have hfirst : later.concat e tail = ⟨(pool.concat e tail).expr, later⟩ :=
        hsettles.binary_again ((hgrows.remembers hsettles.sound).trans hlater)
      simp only [prepend, hfirst]
      exact ih hsettles.sound he' hlonger hlater

theorem repeatExactly_again (h : pool.Sound) (he : pool.Has e) (count : Nat)
    (hlater : Remembers (pool.repeatExactly e count).pool later) :
    later.repeatExactly e count = ⟨(pool.repeatExactly e count).expr, later⟩ :=
  prepend_again h he h.has_epsilon count hlater

/-! ## Bounds -/

theorem repeat?_of_lt (h : max < min) (pool : Pool) (e : Expr) :
    pool.repeat? e min max = .error (.invalidRepeat min max) := if_pos h

theorem repeat?_expresses (h : pool.Sound) (he : pool.Expresses R e) (hle : min ≤ max) :
    ∃ built, pool.repeat? e min max = .ok built ∧ pool.Grows built.pool ∧
      built.pool.Expresses (fun input i j => ∃ n, min ≤ n ∧ n ≤ max ∧ Pieces.Power (R input) n i j) built.expr := by
  have hsettles := binary_settles h .union h.has_epsilon he.has
  have hoptional := hsettles.expresses_binary h.expresses_epsilon he
  have hopt : pool.Grows (pool.opt e).pool := .binary .union .refl h.has_epsilon he.has
  obtain ⟨hgrows, htail⟩ := repeatExactly_expresses hsettles.sound hoptional (max - min)
  have hbefore := hopt.trans hgrows
  have he' := he.mono (hbefore.extends_pool h)
  obtain ⟨hgrows', hwhole⟩ := prepend_expresses (hbefore.sound h) he' htail min
  refine ⟨_, if_neg (Nat.not_lt.2 hle), hbefore.trans hgrows', hwhole.congr fun input => .of_iff fun i j => ?_⟩
  exact Pieces.concat_power_optional hle

theorem repeat?_again {built : Built} (h : pool.Sound) (he : pool.Has e) (hrun : pool.repeat? e min max = .ok built)
    (hlater : Remembers built.pool later) : later.repeat? e min max = .ok ⟨built.expr, later⟩ := by
  have hlt : ¬ max < min := by
    intro hlt
    rw [repeat?_of_lt hlt] at hrun
    cases hrun
  rw [repeat?, if_neg hlt] at hrun ⊢
  cases hrun
  have hopt : pool.Settles (.binary .union .epsilon e) (pool.opt e) := binary_settles h .union h.has_epsilon he
  have hoptional := expresses_matches hopt.answers.has
  obtain ⟨hgrows, hcopies⟩ := repeatExactly_expresses hopt.sound hoptional (max - min)
  have hsound := hgrows.sound hopt.sound
  have he' := hgrows.has hopt.sound (hopt.remembers.has he)
  obtain ⟨hgrows', _⟩ := prepend_expresses hsound (expresses_matches he') hcopies min
  -- What is remembered in the end was known after each of the three parts.
  have hmiddle := (hgrows'.remembers hsound).trans hlater
  have hfirst : later.opt e = ⟨(pool.opt e).expr, later⟩ :=
    hopt.binary_again ((hgrows.remembers hopt.sound).trans hmiddle)
  have hsecond := repeatExactly_again hopt.sound hopt.answers.has (max - min) hmiddle
  have hthird := prepend_again hsound he' hcopies.has min hlater
  simp only [repeatExactly] at hsecond hthird
  simp only [hfirst, hsecond, hthird]

end RegexAlgebra.Pool
