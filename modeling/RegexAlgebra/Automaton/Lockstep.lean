import RegexAlgebra.Automaton

/-!
# Steps in lockstep

Two automata read the same symbols: one tracks a set of its states, the other runs from a single one. A step leads to
one pair for each way in which a symbol can move both. The step is given twice.

* `crossPairs` narrows an edge of the single state by an edge of each tracked state in turn, and drops what becomes
  empty.
* `sweepPairs` cuts the alphabet wherever an edge starts or where one has just ended, and reads off which edges hold
  the symbols from one cut to the next.

A handle that is no state is an error, and the single state is looked up before the tracked ones.
-/

namespace RegexAlgebra

/-- A state of one automaton next to a set of states of another. -/
structure Pair where
  single : Expr
  tracked : StateSet
deriving DecidableEq

namespace Pair

/-- Pairs are ordered by the single state, those with one single state by their tracked states as a list. -/
instance : Ord Pair where
  compare := compareLex (compareOn Pair.single) (compareOn (·.tracked.toList))

instance : Std.TransOrd Pair :=
  inferInstanceAs (Std.TransCmp (compareLex (compareOn Pair.single) (compareOn (·.tracked.toList))))

instance : Std.LawfulEqOrd Pair where
  compare_self {p} := by
    show (compare p.single p.single).then (compare p.tracked.toList p.tracked.toList) = .eq
    rw [Ordering.then_eq_eq, Std.compare_eq_iff_eq, Std.compare_eq_iff_eq]
    exact ⟨rfl, rfl⟩
  eq_of_compare {p q} h := by
    have h : (compare p.single q.single).then (compare p.tracked.toList q.tracked.toList) = .eq := h
    rw [Ordering.then_eq_eq, Std.compare_eq_iff_eq, Std.compare_eq_iff_eq] at h
    obtain ⟨s, t, ht⟩ := p
    obtain ⟨s', t', ht'⟩ := q
    obtain ⟨rfl, h⟩ := h
    cases h
    rfl

end Pair

namespace Automaton

/-! ## The cross product -/

/-- Narrows each of some intervals, which stand next to the states they lead to, by each of some edges. -/
def narrow (combinations : List (Interval × StateSet)) (edges : List Edge) : List (Interval × StateSet) :=
  combinations.flatMap fun (common, targets) =>
    edges.filterMap fun edge =>
      if (common ∩ edge.interval).isEmpty then none
      else some (common ∩ edge.interval, targets.insert edge.target)

def narrowAll (a : Automaton) :
    (tracked : List Expr) → List (Interval × StateSet) → Except Error (List (Interval × StateSet))
  | [], combinations => .ok combinations
  | e :: tracked, combinations => do
    -- The edges are looked up for each combination, so that a step without any asks for none.
    let edges ← if combinations.isEmpty then .ok [] else a.edges e
    a.narrowAll tracked (narrow combinations edges)

def crossPairs (a b : Automaton) (single : Expr) (tracked : StateSet) : Except Error (SortedSet Pair) := do
  let edges ← b.edges single
  let pairs ← edges.mapM fun edge => do
    let combinations ← a.narrowAll tracked.toList [(edge.interval, ∅)]
    return combinations.map fun (_, targets) => Pair.mk edge.target targets
  return .ofList pairs.flatten

/-! ## The sweep -/

/-- An edge on its way through the sweep. -/
structure Atom where
  interval : Interval
  /-- Whether the edge is one of the single state. -/
  isSingle : Bool
  target : Expr
deriving DecidableEq

def atoms (a b : Automaton) (single : Expr) (tracked : StateSet) : Except Error (List Atom) := do
  let edges ← b.edges single
  let trackedEdges ← tracked.toList.mapM a.edges
  return edges.map (fun edge => ⟨edge.interval, true, edge.target⟩) ++
    trackedEdges.flatten.map (fun edge => ⟨edge.interval, false, edge.target⟩)

/-- The symbols at which an edge starts, and those right after one ends, in ascending order. -/
def cuts (atoms : List Atom) : SortedSet Char :=
  .ofList (atoms.flatMap fun atom => atom.interval.low :: (Symbol.next? atom.interval.high).toList)

/-- The pair of the edges that are active at a cut. -/
def pairAt (single : Expr) (start : Char) (active : List Atom) : Except Error Pair :=
  match active.filter (·.isSingle) with
  | [] => .error (.uncovered single start)
  | [atom] => .ok ⟨atom.target, .ofList ((active.filter (!·.isSingle)).map (·.target))⟩
  | _ :: _ :: _ => .error (.overlapping single start)

/--
Sweeps over the cuts. At each of them the edges that have ended leave the active ones, and those that start there join
them; they stand at the front of the waiting ones, which ascend by their low bounds.
-/
def sweep (single : Expr) :
    (cuts : List Char) → (waiting active : List Atom) → Except Error (List Pair)
  | [], _, _ => .ok []
  | start :: cuts, waiting, active => do
    let active := active.filter (start ≤ ·.interval.high) ++ waiting.takeWhile (·.interval.low = start)
    let pair ← pairAt single start active
    let pairs ← sweep single cuts (waiting.dropWhile (·.interval.low = start)) active
    return pair :: pairs

def sweepPairs (a b : Automaton) (single : Expr) (tracked : StateSet) : Except Error (SortedSet Pair) := do
  let atoms ← a.atoms b single tracked
  let waiting := atoms.mergeSort fun x y => x.interval.low ≤ y.interval.low
  let pairs ← sweep single (cuts atoms).toList waiting []
  return .ofList pairs

def successors (a : Automaton) (strategy : Strategy) (b : Automaton) (single : Expr) (tracked : StateSet) :
    Except Error (SortedSet Pair) :=
  match strategy with
  | .crossProduct => a.crossPairs b single tracked
  | .atomicSweep => a.sweepPairs b single tracked

end Automaton

end RegexAlgebra
