import RegexAlgebra.Symbol

/-!
# Closed intervals of symbols

An interval `low..high` holds the symbols from `low` to `high`, both included. One whose high bound lies below its low
bound is empty; such an interval is a legal value, and the intersection of two disjoint intervals is one.

The bounds of an interval are symbols, so a non-empty interval holds both of them, and `complement` steps over the
surrogate block when it leaves an interval.
-/

namespace RegexAlgebra

/-- The symbols from `low` to `high`, both included. -/
structure Interval where
  low : Char
  high : Char
deriving DecidableEq

namespace Interval

instance : Hashable Interval where
  hash i := mixHash (hash i.low.toNat) (hash i.high.toNat)

def singleton (c : Char) : Interval := ⟨c, c⟩

def full : Interval := ⟨Symbol.first, Symbol.last⟩

/-- An interval holds a symbol that lies between its bounds. -/
instance : Membership Char Interval where
  mem i c := i.low ≤ c ∧ c ≤ i.high

theorem mem_iff {i : Interval} {c : Char} : c ∈ i ↔ i.low ≤ c ∧ c ≤ i.high := Iff.rfl

instance (c : Char) (i : Interval) : Decidable (c ∈ i) :=
  inferInstanceAs (Decidable (i.low ≤ c ∧ c ≤ i.high))

def contains (i : Interval) (c : Char) : Bool := decide (c ∈ i)

/-- Whether the interval holds no symbol: its bounds are inverted. -/
def isEmpty (i : Interval) : Bool := decide (i.high < i.low)

def isFull (i : Interval) : Bool := i.low == Symbol.first && i.high == Symbol.last

/-- Whether every symbol of `j` lies in `i`. The empty interval lies in each interval. -/
def containsInterval (i j : Interval) : Bool :=
  j.isEmpty || (decide (i.low ≤ j.low) && decide (j.high ≤ i.high))

/-- The symbols of both intervals: they lie between the higher low bound and the lower high bound. -/
def inter (i j : Interval) : Interval where
  low := if i.low ≤ j.low then j.low else i.low
  high := if i.high ≤ j.high then i.high else j.high

instance : Inter Interval := ⟨inter⟩

def below (i : Interval) : List Interval :=
  match Symbol.previous? i.low with
  | some high => [⟨Symbol.first, high⟩]
  | none => []

def above (i : Interval) : List Interval :=
  match Symbol.next? i.high with
  | some low => [⟨low, Symbol.last⟩]
  | none => []

/-- The symbols outside `i`, as at most two non-empty intervals in ascending order. -/
def complement (i : Interval) : List Interval :=
  if i.isEmpty then [full] else i.below ++ i.above

/-- The alphabet cut at the bounds of a non-empty interval: what lies before it, itself, what lies after it. -/
def cells (i : Interval) : List Interval := i.below ++ i :: i.above

/-- Intervals are ordered by their low bound, those with one low bound by their high bound. -/
instance : Ord Interval where
  compare i j := (compare i.low j.low).then (compare i.high j.high)

/-! ## Laws -/

theorem contains_iff {i : Interval} {c : Char} : i.contains c = true ↔ c ∈ i := by
  simp [contains]

theorem isEmpty_iff {i : Interval} : i.isEmpty = true ↔ i.high < i.low := by
  simp [isEmpty]

theorem mem_inter {i j : Interval} {c : Char} : c ∈ i ∩ j ↔ c ∈ i ∧ c ∈ j := by
  show c ∈ inter i j ↔ _
  simp only [mem_iff, inter, Symbol.le_iff_position_le]
  split <;> split <;> omega

/-- A non-empty interval holds its low bound. -/
theorem low_mem {i : Interval} (h : i.isEmpty = false) : i.low ∈ i := by
  have hle : ¬ i.high < i.low := by simpa [isEmpty] using h
  exact ⟨Char.le_refl _, Char.not_lt.1 hle⟩

end Interval

end RegexAlgebra
