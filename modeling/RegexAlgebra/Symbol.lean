/-!
# The alphabet

A symbol is a Unicode scalar value, that is a `Char`. The alphabet is ordered by code point and is not contiguous:
no symbol lies in the surrogate block U+D800..U+DFFF. Stepping to the next or the previous symbol therefore goes by
the *position* of a symbol in the alphabet, which has no gap, and not by its code point.

The two laws of this module say what a step does to the position: `next?_eq_some_iff` and `previous?_eq_some_iff`.
-/

namespace RegexAlgebra.Symbol

def first : Char := '\x00'

/-- The last symbol of the alphabet, U+10FFFF. -/
def last : Char := Char.ofNat 0x10FFFF

def position (c : Char) : Nat := c.ordinal.val

/-- The symbol right after `c`, if `c` is not the last one. -/
def next? (c : Char) : Option Char := c.succ?

/-- The symbol right before `c`, if `c` is not the first one. -/
def previous? (c : Char) : Option Char :=
  if position c = 0 then none
  else some (Char.ofOrdinal ⟨position c - 1, Nat.lt_of_le_of_lt (Nat.sub_le _ _) c.ordinal.isLt⟩)

/-! ## Order by position -/

theorem position_inj {c d : Char} : position c = position d ↔ c = d := by
  rw [position, position, ← Fin.ext_iff, Char.ordinal_inj]

theorem le_iff_position_le {c d : Char} : c ≤ d ↔ position c ≤ position d := by
  rw [Char.le_iff_ordinal_le, Fin.le_def, position, position]

theorem lt_iff_position_lt {c d : Char} : c < d ↔ position c < position d := by
  rw [Char.lt_iff_ordinal_lt, Fin.lt_def, position, position]

theorem position_first : position first = 0 := by decide

theorem position_last : position last + 1 = Char.numCodePoints := by decide +kernel

theorem position_lt (c : Char) : position c < Char.numCodePoints := c.ordinal.isLt

theorem first_le (c : Char) : first ≤ c :=
  le_iff_position_le.2 (by rw [position_first]; exact Nat.zero_le _)

theorem le_last (c : Char) : c ≤ last :=
  le_iff_position_le.2 (by have h := position_lt c; have h' := position_last; omega)

/-! ## Steps -/

theorem next?_eq_some_iff {c d : Char} : next? c = some d ↔ position d = position c + 1 := by
  have hlt := position_lt d
  rw [next?, Char.succ?_eq, Option.map_eq_some_iff]
  constructor
  · rintro ⟨f, hf, rfl⟩
    simp only [Fin.addNat?] at hf
    split at hf
    · cases hf
      simp only [position, Char.ordinal_ofOrdinal]
    · cases hf
  · intro h
    refine ⟨d.ordinal, ?_, Char.ofOrdinal_ordinal⟩
    simp only [position] at h hlt
    simp only [Fin.addNat?]
    rw [dif_pos (by omega)]
    exact congrArg some (Fin.ext h.symm)

theorem next?_eq_none_iff {c : Char} : next? c = none ↔ c = last := by
  have hlast := position_last
  constructor
  · intro h
    by_cases hc : position c + 1 < Char.numCodePoints
    · have hnext : next? c = some (Char.ofOrdinal ⟨position c + 1, hc⟩) :=
        next?_eq_some_iff.2 (by simp only [position, Char.ordinal_ofOrdinal])
      rw [hnext] at h
      cases h
    · have hlt := position_lt c
      exact position_inj.1 (by omega)
  · rintro rfl
    cases h : next? last with
    | none => rfl
    | some d =>
      have hd := next?_eq_some_iff.1 h
      have hlt := position_lt d
      omega

theorem previous?_eq_some_iff {c d : Char} : previous? c = some d ↔ position d + 1 = position c := by
  unfold previous?
  split
  · simp only [reduceCtorEq, false_iff]
    omega
  · rename_i hpos
    rw [Option.some_inj]
    constructor
    · rintro rfl
      simp only [position, Char.ordinal_ofOrdinal] at hpos ⊢
      omega
    · intro h
      apply position_inj.1
      simp only [position, Char.ordinal_ofOrdinal] at h ⊢
      omega

theorem previous?_eq_none_iff {c : Char} : previous? c = none ↔ c = first := by
  unfold previous?
  rw [← position_inj, position_first]
  split <;> simp_all

/-- A step up and a step down undo each other. -/
theorem previous?_eq_some_iff_next? {c d : Char} : previous? c = some d ↔ next? d = some c := by
  rw [previous?_eq_some_iff, next?_eq_some_iff]
  omega

/-- No symbol lies between a symbol and the next one. -/
theorem lt_iff_le_of_next? {c d e : Char} (h : next? c = some d) : c < e ↔ d ≤ e := by
  rw [lt_iff_position_lt, le_iff_position_le, next?_eq_some_iff.1 h]
  exact Iff.rfl

end RegexAlgebra.Symbol
