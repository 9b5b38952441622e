import RegexAlgebra.Anchor.Removal
import RegexAlgebra.Pattern

/-!
# Expressions of patterns

The expression of a pattern tree matches the pieces that the tree matches. The two assertions about the ends of the
input become the anchors. A tree with any other assertion has no expression, and neither has one that holds a repetition
with inverted bounds.

A concatenation is built from its last part to its first, so that it is nested to the right from the start. Of two
faults in it the one further right is therefore reported.
-/

namespace RegexAlgebra.Pattern

def wordExpr : List Char → Session Expr
  | [] => return .epsilon
  | c :: word => do
    let tail ← wordExpr word
    let head ← Session.build (·.char c)
    Session.build (·.concat head tail)

/-- What `union` matches, or one symbol of one of the intervals. -/
def addRanges (union : Expr) : List Interval → Session Expr
  | [] => return union
  | interval :: ranges => do
    let range ← Session.build (·.range interval.low interval.high)
    let union ← Session.build (·.union union range)
    addRanges union ranges

def lookExpr : Look → Session Expr
  | .start => return .startAnchor
  | .finish => return .endAnchor
  | other => throw (.unsupportedLook other)

def repetitionExpr (e : Expr) (min : Nat) : Option Nat → Session Expr
  | some max => Session.build? (·.repeat? e min max)
  | none => do
    let copies ← Session.build (·.repeatExactly e min)
    let star ← Session.build (·.star e)
    Session.build (·.concat copies star)

mutual

def toExpr : Pattern → Session Expr
  | .empty => return .epsilon
  | .literal bytes => wordExpr (literalWord bytes)
  | .symbolClass ranges => addRanges .empty ranges
  | .byteClass ranges => addRanges .empty (ranges.map byteInterval)
  | .look assertion => lookExpr assertion
  | .repetition min max _ sub => do
    let e ← toExpr sub
    repetitionExpr e min max
  | .capture _ _ sub => toExpr sub
  | .concat parts => concatExpr parts
  | .alternation branches => addBranches .empty branches

def concatExpr : List Pattern → Session Expr
  | [] => return .epsilon
  | part :: parts => do
    let tail ← concatExpr parts
    let head ← toExpr part
    Session.build (·.concat head tail)

/-- What `union` matches, or one of the branches. -/
def addBranches (union : Expr) : List Pattern → Session Expr
  | [] => return union
  | branch :: branches => do
    let e ← toExpr branch
    let union ← Session.build (·.union union e)
    addBranches union branches

end

/-- The expression without anchors that matches the inputs in which a pattern matches a piece. -/
def searchExpr (pattern : Pattern) : Session Expr := do
  let e ← pattern.toExpr
  e.removeAnchors

end RegexAlgebra.Pattern
