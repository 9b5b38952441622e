import RegexAlgebra.Interval

/-!
# Partitions of the alphabet

A partition is a list of non-empty intervals, its cells, in ascending order and without gaps: the first cell starts at
the first symbol, each further one at the symbol right after the cell before it, and the last cell ends at the last
symbol. So each symbol lies in exactly one cell.

Two partitions have a coarsest common refinement. It is given twice, as the merge of two ascending lists (`refine`) and
as the set of all cells that the cells of either side have in common (`pairwise`).
-/

namespace RegexAlgebra.Partition

def trivial : List Interval := [Interval.full]

/-- The cells tile the symbols from `low` on. -/
def TilesFrom (low : Char) : List Interval → Prop
  | [] => False
  | [cell] => cell.low = low ∧ cell.low ≤ cell.high ∧ cell.high = Symbol.last
  | cell :: next :: cells =>
    cell.low = low ∧ cell.low ≤ cell.high ∧
      ∃ low', Symbol.next? cell.high = some low' ∧ TilesFrom low' (next :: cells)

/-- The cells are non-empty, ascend without gaps, and cover the alphabet. -/
def IsPartition (cells : List Interval) : Prop := TilesFrom Symbol.first cells

/--
The common refinement, as a merge. The first cells of both sides have an interval in common, and the one that ends
first is done with; both are if they end together.
-/
def refine : List Interval → List Interval → List Interval
  | [], _ => []
  | _ :: _, [] => []
  | l :: ls, r :: rs =>
    let rest :=
      match compare l.high r.high with
      | .lt => refine ls (r :: rs)
      | .gt => refine (l :: ls) rs
      | .eq => refine ls rs
    if (l ∩ r).isEmpty then rest else l ∩ r :: rest
termination_by ls rs => ls.length + rs.length

/-- The common refinement, as the non-empty intersections of each cell on the left with each cell on the right. -/
def pairwise (left right : List Interval) : List Interval :=
  left.flatMap fun l => (right.map (l ∩ ·)).filter fun i => !i.isEmpty

end RegexAlgebra.Partition
