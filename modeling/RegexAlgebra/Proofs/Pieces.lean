import RegexAlgebra.Expr
import RegexAlgebra.Semantics.Pieces

/-! # The algebra of pieces

The operators of expressions act on relations between positions. Two relations count as the same if they agree on
the pieces of the input; what they say about other pairs of positions is of no concern, and the rules of a pool do
change it.
-/

namespace RegexAlgebra

/-- The operator on relations that a binary operator of expressions stands for. -/
def BinaryOp.pieces (op : BinaryOp) (R S : Pieces) : Pieces :=
  match op with
  | .union => fun i j => R i j ∨ S i j
  | .intersect => fun i j => R i j ∧ S i j
  | .concat => Pieces.Concat R S

/-- The operator on relations that a unary operator of expressions stands for. -/
def UnaryOp.pieces (op : UnaryOp) (R : Pieces) : Pieces :=
  match op with
  | .star => Pieces.Star R
  | .negate => fun i j => ¬ R i j

namespace Pieces

variable {input : List Char} {R R' S S' T : Pieces} {i j k : Nat}

theorem eq_of_iff (h : ∀ i j, R i j ↔ S i j) : R = S := funext fun i => funext fun j => propext (h i j)

/-! ## Stars -/

theorem Power.le {n : Nat} (h : Power R n i j) : i ≤ j := by
  induction n generalizing i with
  | zero => exact Nat.le_of_eq h
  | succ n ih =>
      obtain ⟨k, hik, hkj, _, _⟩ := h
      exact Nat.le_trans hik hkj

theorem Star.le (h : Star R i j) : i ≤ j := by
  obtain ⟨n, hn⟩ := h
  exact hn.le

theorem Star.refl (R : Pieces) (i : Nat) : Star R i i := ⟨0, rfl⟩

theorem Star.head (hik : i ≤ k) (hR : R i k) (h : Star R k j) : Star R i j := by
  obtain ⟨n, hn⟩ := h
  exact ⟨n + 1, k, hik, hn.le, hR, hn⟩

theorem Star.single (hij : i ≤ j) (h : R i j) : Star R i j := .head hij h (.refl R j)

/-- An argument about a star takes its pieces from the first to the last. -/
theorem Star.induction {motive : Nat → Prop} (h : Star R i j) (refl : motive j)
    (head : ∀ i k, i ≤ k → k ≤ j → R i k → Star R k j → motive k → motive i) : motive i := by
  obtain ⟨n, hn⟩ := h
  induction n generalizing i with
  | zero =>
      have hij : i = j := hn
      exact hij ▸ refl
  | succ n ih =>
      obtain ⟨k, hik, hkj, hR, hn⟩ := hn
      exact head i k hik hkj hR ⟨n, hn⟩ (ih hn)

theorem Star.trans (h : Star R i k) (h' : Star R k j) : Star R i j :=
  Star.induction (motive := fun i => Star R i j) h h' fun _ _ hle _ hR _ ih => .head hle hR ih

theorem star_star : Star (Star R) i j ↔ Star R i j := by
  constructor
  · intro h
    exact Star.induction (motive := fun i => Star R i j) h (.refl R j) fun _ _ _ _ hR _ ih => hR.trans ih
  · intro h
    exact .single h.le h

/-- A star of a relation that holds of empty pieces at most holds of empty pieces alone. -/
theorem star_iff_eq (hR : ∀ i j, R i j → i = j) : Star R i j ↔ i = j := by
  constructor
  · intro h
    exact Star.induction (motive := fun i => i = j) h rfl fun i k _ _ hik _ hkj => (hR i k hik).trans hkj
  · intro heq
    subst heq
    exact .refl R i

/-! ## Laws of the binary operators -/

theorem concat_eq_left : Concat R (fun i j => i = j) i j ↔ i ≤ j ∧ R i j := by
  constructor
  · intro hparts
    obtain ⟨k, hik, _, hR, rfl⟩ := hparts
    exact ⟨hik, hR⟩
  · intro hparts
    obtain ⟨hij, hR⟩ := hparts
    exact ⟨j, hij, Nat.le_refl j, hR, rfl⟩

theorem concat_eq_right : Concat (fun i j => i = j) R i j ↔ i ≤ j ∧ R i j := by
  constructor
  · intro hparts
    obtain ⟨k, _, hkj, rfl, hR⟩ := hparts
    exact ⟨hkj, hR⟩
  · intro hparts
    obtain ⟨hij, hR⟩ := hparts
    exact ⟨i, Nat.le_refl i, hij, rfl, hR⟩

theorem concat_assoc : Concat (Concat R S) T i j ↔ Concat R (Concat S T) i j := by
  constructor
  · intro hparts
    obtain ⟨l, _, hlj, ⟨k, hik, hkl, hR, hS⟩, hT⟩ := hparts
    exact ⟨k, hik, Nat.le_trans hkl hlj, hR, l, hkl, hlj, hS, hT⟩
  · intro hparts
    obtain ⟨k, hik, _, hR, l, hkl, hlj, hS, hT⟩ := hparts
    exact ⟨l, Nat.le_trans hik hkl, hlj, ⟨k, hik, hkl, hR, hS⟩, hT⟩

theorem pieces_assoc (op : BinaryOp) : op.pieces (op.pieces R S) T i j ↔ op.pieces R (op.pieces S T) i j := by
  cases op with
  | union => exact or_assoc
  | intersect => exact and_assoc
  | concat => exact concat_assoc

theorem pieces_comm {op : BinaryOp} (hop : op ≠ .concat) : op.pieces R S i j ↔ op.pieces S R i j := by
  cases op with
  | union => exact or_comm
  | intersect => exact and_comm
  | concat => exact absurd rfl hop

theorem pieces_left_comm {op : BinaryOp} (hop : op ≠ .concat) :
    op.pieces R (op.pieces S T) i j ↔ op.pieces S (op.pieces R T) i j := by
  cases op with
  | union => exact or_left_comm
  | intersect => exact and_left_comm
  | concat => exact absurd rfl hop

/-! ## Powers -/

theorem power_add {m n : Nat} : Power R (m + n) i j ↔ Concat (Power R m) (Power R n) i j := by
  induction m generalizing i j with
  | zero =>
      rw [Nat.zero_add]
      exact (concat_eq_right.trans (and_iff_right_of_imp Power.le)).symm
  | succ m ih =>
      have hpower : Power R (m + n) = Concat (Power R m) (Power R n) := eq_of_iff fun _ _ => ih
      rw [Nat.succ_add, Power, hpower]
      exact concat_assoc.symm

/-- Where each of `n` pieces may be missing there are at most `n`. -/
theorem power_optional {n : Nat} : Power (fun i j => i = j ∨ R i j) n i j ↔ ∃ m ≤ n, Power R m i j := by
  induction n generalizing i with
  | zero => simp [Power]
  | succ n ih =>
      constructor
      · intro hparts
        obtain ⟨k, hik, hkj, hfirst, hrest⟩ := hparts
        obtain ⟨m, hm, hpower⟩ := ih.1 hrest
        rcases hfirst with rfl | hR
        · exact ⟨m, Nat.le_succ_of_le hm, hpower⟩
        · exact ⟨m + 1, Nat.succ_le_succ hm, k, hik, hkj, hR, hpower⟩
      · intro hparts
        obtain ⟨m, hm, hpower⟩ := hparts
        cases m with
        | zero => exact ⟨i, Nat.le_refl i, hpower.le, Or.inl rfl, ih.2 ⟨0, Nat.zero_le n, hpower⟩⟩
        | succ m =>
            obtain ⟨k, hik, hkj, hR, hrest⟩ := hpower
            exact ⟨k, hik, hkj, Or.inr hR, ih.2 ⟨m, Nat.le_of_succ_le_succ hm, hrest⟩⟩

/-- So many pieces, and behind them a number of further ones that is allowed. -/
theorem concat_power {allowed : Nat → Prop} {m : Nat} :
    Concat (Power R m) (fun i j => ∃ n, allowed n ∧ Power R n i j) i j ↔
      ∃ n, allowed n ∧ Power R (m + n) i j := by
  simp only [power_add, Concat]
  constructor
  · intro hparts
    obtain ⟨k, hik, hkj, hfirst, n, hn, hrest⟩ := hparts
    exact ⟨n, hn, k, hik, hkj, hfirst, hrest⟩
  · intro hparts
    obtain ⟨n, hn, k, hik, hkj, hfirst, hrest⟩ := hparts
    exact ⟨k, hik, hkj, hfirst, n, hn, hrest⟩

/-- Pieces at the least number, and behind them as many as may be missing, are pieces between the bounds. -/
theorem concat_power_optional {min max : Nat} (h : min ≤ max) :
    Concat (Power R min) (Power (fun i j => i = j ∨ R i j) (max - min)) i j ↔
      ∃ n, min ≤ n ∧ n ≤ max ∧ Power R n i j := by
  have hoptional : Power (fun i j => i = j ∨ R i j) (max - min) = fun i j => ∃ n ≤ max - min, Power R n i j :=
    eq_of_iff fun _ _ => power_optional
  rw [hoptional, concat_power]
  constructor
  · intro hparts
    obtain ⟨n, hn, hpower⟩ := hparts
    exact ⟨min + n, by omega, by omega, hpower⟩
  · intro hparts
    obtain ⟨n, hmin, hmax, hpower⟩ := hparts
    exact ⟨n - min, by omega, by rwa [Nat.add_sub_cancel' hmin]⟩

theorem concat_power_star {min : Nat} : Concat (Power R min) (Star R) i j ↔ ∃ n, min ≤ n ∧ Power R n i j := by
  have hstar : Star R = fun i j => ∃ n, True ∧ Power R n i j := eq_of_iff fun _ _ => by simp [Star]
  rw [hstar, concat_power]
  constructor
  · intro hparts
    obtain ⟨n, _, hpower⟩ := hparts
    exact ⟨min + n, by omega, hpower⟩
  · intro hparts
    obtain ⟨n, hmin, hpower⟩ := hparts
    exact ⟨n - min, trivial, by rwa [Nat.add_sub_cancel' hmin]⟩

/-! ## Agreement -/

/-- The relations hold of the same pieces of the input. -/
def Agree (input : List Char) (R S : Pieces) : Prop :=
  ∀ i j, Within input i j → (R i j ↔ S i j)

namespace Agree

theorem refl (input : List Char) (R : Pieces) : Agree input R R := fun _ _ _ => Iff.rfl

theorem symm (h : Agree input R S) : Agree input S R := fun i j hij => (h i j hij).symm

theorem trans (h : Agree input R S) (h' : Agree input S T) : Agree input R T :=
  fun i j hij => (h i j hij).trans (h' i j hij)

theorem of_iff (h : ∀ i j, R i j ↔ S i j) : Agree input R S := fun i j _ => h i j

theorem concat (hR : Agree input R R') (hS : Agree input S S') :
    Agree input (Concat R S) (Concat R' S') := by
  intro i j hparts
  obtain ⟨hij, hj⟩ := hparts
  refine exists_congr fun k => and_congr_right fun hik => and_congr_right fun hkj => ?_
  rw [hR i k ⟨hik, Nat.le_trans hkj hj⟩, hS k j ⟨hkj, hj⟩]

theorem binary (op : BinaryOp) (hR : Agree input R R') (hS : Agree input S S') :
    Agree input (op.pieces R S) (op.pieces R' S') := by
  cases op with
  | union => exact fun i j hij => or_congr (hR i j hij) (hS i j hij)
  | intersect => exact fun i j hij => and_congr (hR i j hij) (hS i j hij)
  | concat => exact hR.concat hS

theorem power (h : Agree input R S) (n : Nat) : Agree input (Power R n) (Power S n) := by
  induction n with
  | zero => exact .refl input _
  | succ n ih => exact h.concat ih

theorem unary (op : UnaryOp) (h : Agree input R S) : Agree input (op.pieces R) (op.pieces S) := by
  cases op with
  | star => exact fun i j hij => exists_congr fun n => h.power n i j hij
  | negate => exact fun i j hij => not_congr (h i j hij)

end Agree

/-- Any number of any symbols make up every piece. -/
theorem agree_star_full {P : Char → Prop} (hP : ∀ c, P c) :
    Agree input (Star (Symbol input P)) fun _ _ => True := by
  intro i j hparts
  obtain ⟨hij, hj⟩ := hparts
  refine iff_of_true ?_ trivial
  obtain ⟨n, rfl⟩ := Nat.exists_eq_add_of_le hij
  induction n generalizing i with
  | zero => exact .refl _ i
  | succ n ih =>
      have hsymbol : Symbol input P i (i + 1) := ⟨rfl, input[i], List.getElem?_eq_getElem (by omega), hP _⟩
      refine .head (Nat.le_succ i) hsymbol ?_
      have hrest := ih (i := i + 1) (by omega) (by omega)
      rwa [show i + 1 + n = i + (n + 1) by omega] at hrest

end Pieces

end RegexAlgebra
