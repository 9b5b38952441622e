import RegexAlgebra.Proofs.Histories

/-! # Constructors and what they mean

On every pool with a history the constructors give what their names say, anchors included, and for good: the handle
means the same after any further calls.
-/

namespace RegexAlgebra

namespace Pool

variable {pool : Pool} {e f : Expr} {built : Built} {R S : List Char → Pieces}

/-- The handle that was built matches just the pieces of the relations, in the present pool and in every later one. -/
def Means (built : Built) (R : List Char → Pieces) : Prop :=
  ∀ later, built.pool.Later later → later.Has built.expr ∧
    ∀ input i j, Pieces.Within input i j → (later.Matches input built.expr i j ↔ R input i j)

theorem Means.congr (h : Means built R) (hagree : ∀ input, Pieces.Agree input (R input) (S input)) : Means built S :=
  fun later hlater => ⟨(h later hlater).1, fun input i j hij =>
    ((h later hlater).2 input i j hij).trans (hagree input i j hij)⟩

theorem Expresses.means (h : pool.Sound) (he : pool.Expresses R e) : Means ⟨e, pool⟩ R := fun _ hlater =>
  have hlater' := he.mono (hlater.remembers h).toExtends
  ⟨hlater'.has, hlater'.agree⟩

/-- A settled request has the meaning that it had when it was made. -/
theorem Settles.means {request : Node} (h : pool.Settles request built) :
    Means built fun input => pool.NodeMatches input request := by
  intro later hlater
  have hext := (hlater.remembers h.sound).toExtends
  refine ⟨hext.has h.answers.has, fun input i j hij => ?_⟩
  rw [hext.matches_eq h.answers.has, h.answers.agree input i j hij,
    h.remembers.nodeMatches_eq h.operands_has]

theorem range_means (h : pool.Sound) (interval : Interval) :
    Means (pool.range interval.low interval.high) fun input => Pieces.Symbol input (· ∈ interval) :=
  (range_settles h interval.low interval.high).means

theorem binary_means (h : pool.Sound) (op : BinaryOp) (he : pool.Has e) (hf : pool.Has f) :
    Means (pool.binary op e f) fun input => op.pieces (pool.Matches input e) (pool.Matches input f) :=
  (binary_settles h op he hf).means

theorem unary_means (h : pool.Sound) (op : UnaryOp) (he : pool.Has e) :
    Means (pool.unary op e) fun input => op.pieces (pool.Matches input e) :=
  (unary_settles h op he).means

theorem dot_means (h : pool.Sound) : Means pool.dot fun input => Pieces.Symbol input fun _ => True := by
  refine (range_means h Interval.full).congr fun input => .of_iff fun i j => ?_
  refine and_congr_right fun _ => exists_congr fun c => and_congr_right fun _ => ?_
  exact iff_of_true ⟨Symbol.first_le c, Symbol.le_last c⟩ trivial

theorem all_means (h : pool.Sound) : Means pool.all fun _ _ _ => True := by
  refine (unary_means h .negate h.has_empty).congr fun input => .of_iff fun i j => ?_
  rw [h.matches_empty]
  exact iff_of_true not_false trivial

theorem opt_means (h : pool.Sound) (he : pool.Has e) :
    Means (pool.opt e) fun input i j => i = j ∨ pool.Matches input e i j := by
  refine (binary_means h .union h.has_epsilon he).congr fun input => ?_
  rw [h.matches_epsilon]
  exact .refl input _

/-- On every pool with a history each constructor gives a handle that matches just what the operation on what its
operands match gives, and the handle keeps this meaning whatever is asked of the pool later. -/
theorem constructors_keep_meaning (h : pool.Reachable) :
    (∀ low high, Means (pool.range low high) fun input => Pieces.Symbol input fun c => low ≤ c ∧ c ≤ high) ∧
    (∀ e f, pool.Has e → pool.Has f →
      Means (pool.union e f) fun input i j => pool.Matches input e i j ∨ pool.Matches input f i j) ∧
    (∀ e f, pool.Has e → pool.Has f →
      Means (pool.intersect e f) fun input i j => pool.Matches input e i j ∧ pool.Matches input f i j) ∧
    (∀ e f, pool.Has e → pool.Has f →
      Means (pool.concat e f) fun input => Pieces.Concat (pool.Matches input e) (pool.Matches input f)) ∧
    (∀ e, pool.Has e → Means (pool.star e) fun input => Pieces.Star (pool.Matches input e)) ∧
    (∀ e, pool.Has e → Means (pool.negate e) fun input i j => ¬ pool.Matches input e i j) ∧
    (∀ e, pool.Has e → Means (pool.opt e) fun input i j => i = j ∨ pool.Matches input e i j) ∧
    Means pool.dot (fun input => Pieces.Symbol input fun _ => True) ∧
    Means pool.all (fun _ _ _ => True) := by
  have hsound := h.sound
  refine ⟨?_, ?_, ?_, ?_, ?_, ?_, ?_, dot_means hsound, all_means hsound⟩
  · exact fun low high => range_means hsound ⟨low, high⟩
  · exact fun e f he hf => binary_means hsound .union he hf
  · exact fun e f he hf => binary_means hsound .intersect he hf
  · exact fun e f he hf => binary_means hsound .concat he hf
  · exact fun e he => unary_means hsound .star he
  · exact fun e he => unary_means hsound .negate he
  · exact fun e he => opt_means hsound he

/-- The two anchors one after the other match in the empty input only. -/
theorem meaning_of_both_anchors :
    Means (new.concat .startAnchor .endAnchor) fun input i j => i = 0 ∧ j = 0 ∧ input = [] := by
  have hconcat := (constructors_keep_meaning .new).2.2.2.1 .startAnchor .endAnchor sound_new.has_startAnchor
    sound_new.has_endAnchor
  refine hconcat.congr fun input i j hij => ?_
  have hstart : new.Matches input .startAnchor = fun i j => i = 0 ∧ j = 0 := matches_of_node rfl
  have hend : new.Matches input .endAnchor = fun i j => i = input.length ∧ j = input.length := matches_of_node rfl
  rw [hstart, hend]
  constructor
  · intro hparts
    obtain ⟨k, _, _, ⟨hi, hk⟩, hk', hj⟩ := hparts
    have hempty : input.length = 0 := by omega
    exact ⟨hi, by omega, List.length_eq_zero_iff.1 hempty⟩
  · intro hparts
    obtain ⟨hi, hj, hempty⟩ := hparts
    subst hi hj hempty
    exact ⟨0, Nat.le_refl 0, Nat.le_refl 0, ⟨rfl, rfl⟩, rfl, rfl⟩

end Pool

end RegexAlgebra
