import RegexAlgebra.Expr
import RegexAlgebra.Pattern.Look
import RegexAlgebra.Pattern.SyntaxError
import RegexAlgebra.Symbol.Quoted

/-!
# Errors

An operation that fails says why. The first four causes are bad input of a caller: they are part of what the operations
answer. The others are misuse: an anchored expression is given to an operation that has no meaning for anchors, or a
handle is given to an automaton that has no such state. Two of them do not occur with automata that were explored: their
edges leave no symbol out and hold none twice. The last one ends a search that has met more than there can be: more
states than there are handles, or more pairs of states of two automata than these have.
-/

namespace RegexAlgebra

/-- The operations on expressions that have no meaning for anchors. -/
inductive Visitor
  | nullability
  | derivative
  | classes
deriving DecidableEq

def Visitor.name : Visitor → String
  | nullability => "the nullability check"
  | derivative => "the derivative"
  | classes => "the character classes"

inductive Error
  | invalidRepeat (min max : Nat)
  | tooManyStates (limit : Nat)
  | malformed (cause : Pattern.SyntaxError)
  | unsupportedLook (look : Pattern.Look)
  | anchorReached (visitor : Visitor)
  | notAState (e : Expr)
  | uncovered (e : Expr) (symbol : Char)
  | overlapping (e : Expr) (symbol : Char)
  /-- A search met more states, or more pairs of them, than there can be. -/
  | handlesExhausted
deriving DecidableEq

namespace Error

def handle (e : Expr) : String := "Expr(" ++ toString e.id ++ ")"

def message : Error → String
  | invalidRepeat min max =>
      "invalid repetition \x7b" ++ toString min ++ "," ++ toString max ++
        "\x7d: upper bound is less than lower bound"
  | tooManyStates limit => "automaton exceeded the limit of " ++ toString limit ++ " states"
  | malformed _ => "malformed pattern"
  | unsupportedLook look => "unsupported feature: look-around assertion " ++ look.name
  | anchorReached visitor =>
      "internal error: entered unreachable code: anchor reached " ++ visitor.name ++ "; remove anchors first"
  | notAState e => handle e ++ " is not a state of this automaton"
  | uncovered e symbol => "no transition of " ++ handle e ++ " covers " ++ Symbol.quoted symbol
  | overlapping e symbol => "transitions of " ++ handle e ++ " overlap at " ++ Symbol.quoted symbol
  | handlesExhausted => "expression pool exhausted"

/-- Whether an error was caused by another one that it carries. -/
def hasCause : Error → Bool
  | malformed _ => true
  | _ => false

/-- Whether an error is misuse of an operation rather than bad input. -/
def isMisuse : Error → Bool
  | anchorReached _ => true
  | notAState _ => true
  | uncovered _ _ => true
  | overlapping _ _ => true
  | handlesExhausted => true
  | _ => false

end Error

end RegexAlgebra
