import RegexAlgebra.Automaton
import RegexAlgebra.Expr.Classes
import RegexAlgebra.Expr.Derivative

/-!
# Automata of expressions

The automaton of an expression has the derivatives of the expression as its states. An exploration discovers them
breadth first. It keeps the states in the order of their discovery and a row for each state that it has expanded; the
next state to expand is therefore the first that has no row. To expand a state is to take its derivative by one symbol
of each of its character classes, the lowest.

A limit on the number of states is checked before a state joins those discovered. An exploration that fails there leaves
the expressions that it has built in the pool, where a later one finds them.
-/

namespace RegexAlgebra

/-- The options for building an automaton; an option that is not set is left to earlier settings. -/
structure Settings where
  /-- The largest number of states allowed, where `some none` states that any number is. -/
  stateLimit : Option (Option Nat) := none
  strategy : Option Strategy := none
deriving DecidableEq

namespace Settings

/-- The settings after `later` ones were made: an option set there wins. -/
def override (earlier later : Settings) : Settings where
  stateLimit := later.stateLimit <|> earlier.stateLimit
  strategy := later.strategy <|> earlier.strategy

def ofList (all : List Settings) : Settings := all.foldl override {}

def limit? (settings : Settings) : Option Nat := settings.stateLimit.getD none

/-- The strategy of the automaton; the sweep, unless another one was set. -/
def strategyOrDefault (settings : Settings) : Strategy := settings.strategy.getD .atomicSweep

end Settings

namespace Exploration

def checkLimit (limit? : Option Nat) (count : Nat) : Except Error Unit :=
  match limit? with
  | some limit => if limit < count then .error (.tooManyStates limit) else .ok ()
  | none => .ok ()

/-- The states with `target` discovered, which may be one of them. -/
def discover (limit? : Option Nat) (states : List Expr) (target : Expr) : Except Error (List Expr) :=
  if target ∈ states then .ok states
  else do
    checkLimit limit? (states.length + 1)
    return states ++ [target]

/-- The edges of the state `e` over some cells of the alphabet, and the states with their targets discovered. -/
def expand (limit? : Option Nat) (e : Expr) :
    (cells : List Interval) → (states : List Expr) → Session (List Edge × List Expr)
  | [], states => return ([], states)
  | cell :: cells, states => do
    let target ← e.derivative cell.low
    let states ← Session.ask fun _ => discover limit? states target
    let (edges, states) ← expand limit? e cells states
    return (⟨cell, target⟩ :: edges, states)

/-- Continues an exploration until every state has its row, for at most `fuel` steps. -/
def exploreFrom (limit? : Option Nat) : (fuel : Nat) → (states : List Expr) → (rows : List Row) → Session (List Row)
  | 0, _, _ => throw .handlesExhausted
  | fuel + 1, states, rows => do
    match states[rows.length]? with
    | none => return rows
    | some e =>
      let cells ← Session.ask (·.classes e)
      let (edges, states) ← expand limit? e cells states
      let isFinal ← Session.ask (·.isNullable e)
      exploreFrom limit? fuel states (rows ++ [⟨e, isFinal, edges⟩])

end Exploration

/--
There are fewer handles than this, 2^32. An exploration that has taken as many steps has found more states than there
are handles.
-/
def handleBound : Nat := 4294967296

def Expr.automaton (e : Expr) (settings : Settings) : Session Automaton := do
  Session.ask fun _ => Exploration.checkLimit settings.limit? 1
  let rows ← Exploration.exploreFrom settings.limit? handleBound [e] []
  return ⟨e, rows, settings.strategyOrDefault⟩

end RegexAlgebra
