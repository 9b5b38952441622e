import RegexAlgebra.Error
import RegexAlgebra.SortedSet

/-!
# Deterministic automata

The states of an automaton are expressions, and a state is final if its expression matches the empty word. For each
state the automaton holds a row with its edges, whose intervals are a partition of the alphabet: each symbol leads from
a state to exactly one state.

This module holds the type, the run of a word, and the question whether any final state can be reached. How an automaton
comes from an expression is the matter of `RegexAlgebra.Automaton.Exploration`.
-/

namespace RegexAlgebra

/-- The ways to take a step of two automata in lockstep. They give the same result at different cost. -/
inductive Strategy
  | crossProduct
  | atomicSweep
deriving DecidableEq

structure Edge where
  interval : Interval
  target : Expr
deriving DecidableEq

structure Row where
  state : Expr
  isFinal : Bool
  edges : List Edge
deriving DecidableEq

structure Automaton where
  initial : Expr
  rows : List Row
  strategy : Strategy
deriving DecidableEq

/-- A set of states, ordered by their identifiers. -/
abbrev StateSet := SortedSet Expr

namespace Automaton

/-- The states, in the order in which they were discovered. -/
def states (a : Automaton) : List Expr := a.rows.map (·.state)

def row? (a : Automaton) (e : Expr) : Option Row := a.rows.find? (·.state = e)

def isFinal (a : Automaton) (e : Expr) : Bool :=
  match a.row? e with
  | some row => row.isFinal
  | none => false

def finals (a : Automaton) : StateSet := SortedSet.ofList (a.states.filter a.isFinal)

/-- The edges of a state, in ascending order of their intervals. -/
def edges (a : Automaton) (e : Expr) : Except Error (List Edge) :=
  match a.row? e with
  | some row => .ok row.edges
  | none => .error (.notAState e)

/-! ## Runs -/

def move (a : Automaton) (e : Expr) (c : Char) : Except Error Expr := do
  let edges ← a.edges e
  match edges.find? (·.interval.contains c) with
  | some edge => return edge.target
  | none => throw (.uncovered e c)

def run (a : Automaton) (e : Expr) : List Char → Except Error Expr
  | [] => .ok e
  | c :: word => do
    let next ← a.move e c
    a.run next word

def isMatch (a : Automaton) (word : List Char) : Except Error Bool := do
  let last ← a.run a.initial word
  return a.isFinal last

def moveAll (a : Automaton) (states : StateSet) (c : Char) : Except Error StateSet := do
  let targets ← states.toList.mapM (a.move · c)
  return .ofList targets

/-! ## Emptiness -/

def targets (a : Automaton) (e : Expr) : List Expr :=
  match a.row? e with
  | some row => row.edges.map (·.target)
  | none => []

/-- Adds those elements of a list that are not there yet, in their order. -/
def addNew {α : Type} [DecidableEq α] (found : List α) (more : List α) : List α :=
  more.foldl (fun found x => if x ∈ found then found else found ++ [x]) found

/--
Continues a breadth-first search that has found the states `found`, of which the first `done` have been searched from.
It ends when all of them have been.
-/
def reachFrom (a : Automaton) : (fuel : Nat) → (found : List Expr) → (done : Nat) → List Expr
  | 0, found, _ => found
  | fuel + 1, found, done =>
    match found[done]? with
    | none => found
    | some e => reachFrom a fuel (addNew found (a.targets e)) (done + 1)

/--
The states that can be reached from the initial one, in breadth-first order. A state has at most one turn in the search,
so as many turns as there are states suffice, and one for an initial handle that is no state.
-/
def reachable (a : Automaton) : List Expr := a.reachFrom (a.rows.length + 1) [a.initial] 0

/-- Whether no word is accepted: no final state can be reached. -/
def isEmpty (a : Automaton) : Bool := !a.reachable.any a.isFinal

end Automaton

end RegexAlgebra
