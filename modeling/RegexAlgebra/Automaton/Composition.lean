import RegexAlgebra.Automaton.Lockstep

/-!
# Composition

The composition of a set of states of one automaton with another automaton is the set of states that the former can be
in after reading a non-empty word that the latter accepts. It is found by a breadth-first search over pairs of a state
of the latter and a set of states of the former. Each pair that a step leads to counts, if its single state is final;
the pair in which the search starts counts only if a step leads back to it.
-/

namespace RegexAlgebra.Automaton

/-- The states gathered, and those tracked in the pairs whose single state is final. -/
def gather (b : Automaton) (gathered : StateSet) (pairs : List Pair) : StateSet :=
  pairs.foldl (fun gathered pair => if b.isFinal pair.single then gathered.union pair.tracked else gathered) gathered

/--
Continues a search that has found the pairs `found`, has taken a step from the first `done` of them, and has gathered
some states on its way. It ends when a step was taken from each pair.
-/
def composeFrom (a b : Automaton) :
    (fuel : Nat) → (found : List Pair) → (done : Nat) → (gathered : StateSet) → Except Error StateSet
  | 0, _, _, _ => .error .handlesExhausted
  | fuel + 1, found, done, gathered =>
    match found[done]? with
    | none => .ok gathered
    | some pair => do
      let pairs ← a.successors a.strategy b pair.single pair.tracked
      composeFrom a b fuel (addNew found pairs.toList) (done + 1) (gather b gathered pairs.toList)

/-- The number of pairs of a state of `b` and a set of states of `a`, and one pair more to start in. -/
def pairBound (a b : Automaton) : Nat := b.rows.length * Nat.pow 2 a.rows.length + 1

/--
The states in which a run of `a` from one of `states` can end after a non-empty word that `b` accepts.

A step is taken from each pair once, and a search that has taken a step from `pairBound a b` of them has met more pairs
than there are.
-/
def compose (a : Automaton) (states : StateSet) (b : Automaton) : Except Error StateSet :=
  a.composeFrom b (pairBound a b) [⟨b.initial, states⟩] 0 ∅

end RegexAlgebra.Automaton
