/-!
# Pieces of an input

The piece of an input from position `i` to position `j` is what stands between the two, where `i ≤ j` and `j` is at most
the length of the input. What matches pieces of one input is a relation between positions, and the operators of regular
expressions are operators on such relations.
-/

namespace RegexAlgebra

/-- The pieces of one input that something matches, by their two positions. -/
abbrev Pieces := Nat → Nat → Prop

namespace Pieces

def Within (input : List Char) (i j : Nat) : Prop := i ≤ j ∧ j ≤ input.length

def slice (input : List Char) (i j : Nat) : List Char := (input.drop i).take (j - i)

/-- A piece of one relation followed by a piece of another one. -/
def Concat (R S : Pieces) : Pieces := fun i j => ∃ k, i ≤ k ∧ k ≤ j ∧ R i k ∧ S k j

/-- So many pieces one after another. -/
def Power (R : Pieces) : Nat → Pieces
  | 0 => fun i j => i = j
  | n + 1 => Concat R (Power R n)

/-- Any number of pieces one after another. -/
def Star (R : Pieces) : Pieces := fun i j => ∃ n, Power R n i j

def Symbol (input : List Char) (P : Char → Prop) : Pieces := fun i j =>
  j = i + 1 ∧ ∃ c, input[i]? = some c ∧ P c

theorem power_succ_right {R : Pieces} {n : Nat} {i j : Nat} :
    Power R (n + 1) i j ↔ Concat (Power R n) R i j := by
  induction n generalizing i with
  | zero =>
    constructor
    · rintro ⟨k, hik, hkj, hR, rfl⟩
      exact ⟨i, Nat.le_refl i, hik, rfl, hR⟩
    · rintro ⟨k, hik, hkj, rfl, hR⟩
      exact ⟨j, hkj, Nat.le_refl j, hR, rfl⟩
  | succ n ih =>
    constructor
    · rintro ⟨k, hik, hkj, hR, hP⟩
      obtain ⟨m, hkm, hmj, hP', hR'⟩ := ih.1 hP
      exact ⟨m, Nat.le_trans hik hkm, hmj, ⟨k, hik, hkm, hR, hP'⟩, hR'⟩
    · rintro ⟨m, him, hmj, ⟨k, hik, hkm, hR, hP⟩, hR'⟩
      exact ⟨k, hik, Nat.le_trans hkm hmj, hR, ih.2 ⟨m, hkm, hmj, hP, hR'⟩⟩

end Pieces

end RegexAlgebra
