import RegexAlgebra.Interval

/-!
# Sets of symbols

A set of symbols as a list of intervals. In its normal form the intervals are non-empty and ascending, and any two that
overlap, or whose code points follow each other, are one.
-/

namespace RegexAlgebra

/-- A set of symbols: those that lie in one of the intervals. -/
abbrev SymbolSet := List Interval

namespace SymbolSet

/-- Joins neighbours that overlap or whose code points follow each other. -/
def joinNeighbours : List Interval → SymbolSet
  | [] => []
  | [i] => [i]
  | i :: j :: rest =>
    if j.low.toNat ≤ i.high.toNat + 1 then
      joinNeighbours (⟨i.low, if i.high ≤ j.high then j.high else i.high⟩ :: rest)
    else i :: joinNeighbours (j :: rest)
termination_by intervals => intervals.length

/-- The normal form of a set of symbols. -/
def normalize (intervals : List Interval) : SymbolSet :=
  joinNeighbours ((intervals.filter (!·.isEmpty)).mergeSort fun i j => (compare i j).isLE)

def union (s t : SymbolSet) : SymbolSet := normalize (s ++ t)

def inter (s t : SymbolSet) : SymbolSet :=
  normalize (s.flatMap fun i => (t.map (i ∩ ·)).filter (!·.isEmpty))

def difference (s t : SymbolSet) : SymbolSet :=
  normalize (t.foldl (fun s j => s.flatMap fun i => (j.complement.map (i ∩ ·)).filter (!·.isEmpty)) s)

def symmetricDifference (s t : SymbolSet) : SymbolSet := difference (union s t) (inter s t)

/-- The interval with two bounds, whichever of them is the lower one. -/
def between (c d : Char) : Interval := if c ≤ d then ⟨c, d⟩ else ⟨d, c⟩

/-- The intervals from one interval to the next, and from the last one to the end of the alphabet. -/
def gapsAfter : Interval → List Interval → List Interval
  | i, [] => i.above
  | i, j :: rest =>
    match Symbol.next? i.high, Symbol.previous? j.low with
    | some c, some d => between c d :: gapsAfter j rest
    | _, _ => gapsAfter j rest

/--
The complement of a set in normal form: what lies before, between and behind its intervals.

The gap between two intervals reaches from the symbol after the one to the symbol before the other. If only the
surrogate block lies between the two there is no gap; the two symbols beside the block count as one all the same.
-/
def complement : SymbolSet → SymbolSet
  | [] => [Interval.full]
  | i :: rest => i.below ++ gapsAfter i rest

end SymbolSet

end RegexAlgebra
