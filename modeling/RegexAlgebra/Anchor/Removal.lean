import RegexAlgebra.Anchor.Occurrence
import RegexAlgebra.Expr.Nullable

/-!
# Removal of anchors

An expression with anchors is turned into one without, which matches every input in which the expression matches a
piece. An expression without anchors is padded by anything on both sides.

For an expression with anchors it matters whether a piece stands at the start of the input and whether at its end. For
each of the four cases there is an expression without anchors for the pieces matched (`Removal.inContext`): an anchor
becomes the empty word where it holds and nothing elsewhere. Union, intersection and negation keep the case. A
concatenation splits a piece in two, and where both parts are non-empty the inner sides of the parts are not at the
ends of the input; where a part is empty the other one has both sides of the piece. So a concatenation is the union of
four cases that exclude each other, and they still do so below a negation. A star is the empty word, one non-empty
match, or a first, some inner and a last one.

The whole is the union over the four cases, padded by at least one symbol on each side that is not at an end.
-/

namespace RegexAlgebra

/-- A removal at work: the pool, what is known about anchors, and the expressions found for parts in context. -/
structure Removal where
  pool : Pool
  anchored : Pool.AnchorMemo
  results : Std.HashMap (Expr × Bool × Bool) Expr

namespace Removal

abbrev Step := EStateM Error Removal

def start (pool : Pool) : Removal := ⟨pool, ∅, ∅⟩

def build (constructor : Pool → Built) : Step Expr := fun removal =>
  let built := constructor removal.pool
  .ok built.expr { removal with pool := built.pool }

def ask {α : Type} (question : Pool → Except Error α) : Step α := fun removal =>
  match question removal.pool with
  | .ok value => .ok value removal
  | .error error => .error error removal

/-- Whether an anchor stands in `e`; the answer is remembered. -/
def isAnchored (e : Expr) : Step Bool := fun removal =>
  let (found, anchored) := removal.pool.isAnchored e removal.anchored
  .ok found { removal with anchored := anchored }

/-- Remembers the result for `e` in a context, and gives it. -/
def remember (e : Expr) (atStart atEnd : Bool) (result : Expr) : Step Expr := fun removal =>
  .ok result { removal with results := removal.results.insert (e, atStart, atEnd) result }

/-- The non-empty words of an expression without anchors. -/
def consuming (e : Expr) : Step Expr := do
  if e = .epsilon ∨ e = .empty then return .empty
  else if ← ask (·.isNullable e) then
    let nonEmpty ← build (·.negate .epsilon)
    build (·.intersect e nonEmpty)
  else return e

/-- The empty word, if an expression without anchors matches it, or else nothing. -/
def vanishing (e : Expr) : Step Expr := ask (·.nullable e)

/--
The words that `e` matches as pieces which stand at the start of the input or not, and at its end or not, as an
expression without anchors.
-/
def inContext (e : Expr) (atStart atEnd : Bool) : Step Expr := do
  if ← isAnchored e then
    let removal ← get
    match removal.results[(e, atStart, atEnd)]? with
    | some result => return result
    | none =>
      let result ←
        match _h : removal.pool.node e with
        | .startAnchor => pure (.ofBool atStart)
        | .endAnchor => pure (.ofBool atEnd)
        | .empty => pure e
        | .epsilon => pure e
        | .range _ => pure e
        | .binary .union left right => do
          let a ← inContext left atStart atEnd
          let b ← inContext right atStart atEnd
          build (·.union a b)
        | .binary .intersect left right => do
          let a ← inContext left atStart atEnd
          let b ← inContext right atStart atEnd
          build (·.intersect a b)
        | .binary .concat left right => do
          -- Both parts are non-empty.
          let a ← inContext left atStart false
          let a ← consuming a
          let b ← inContext right false atEnd
          let b ← consuming b
          let split ← build (·.concat a b)
          -- The left part is empty.
          let a ← inContext left atStart false
          let a ← vanishing a
          let b ← inContext right atStart atEnd
          let b ← consuming b
          let onlyRight ← build (·.concat a b)
          -- The right part is empty.
          let a ← inContext left atStart atEnd
          let a ← consuming a
          let b ← inContext right false atEnd
          let b ← vanishing b
          let onlyLeft ← build (·.concat a b)
          -- Both parts are empty.
          let a ← inContext left atStart atEnd
          let a ← vanishing a
          let b ← inContext right atStart atEnd
          let b ← vanishing b
          let neither ← build (·.concat a b)
          let rest ← build (·.union onlyLeft neither)
          let rest ← build (·.union onlyRight rest)
          build (·.union split rest)
        | .unary .negate sub => do
          let a ← inContext sub atStart atEnd
          build (·.negate a)
        | .unary .star sub => do
          let once ← inContext sub atStart atEnd
          let once ← consuming once
          let first ← inContext sub atStart false
          let first ← consuming first
          let inner ← inContext sub false false
          let inner ← consuming inner
          let last ← inContext sub false atEnd
          let last ← consuming last
          let inners ← build (·.star inner)
          let tail ← build (·.concat inners last)
          let many ← build (·.concat first tail)
          let nonEmpty ← build (·.union once many)
          build (·.union .epsilon nonEmpty)
      remember e atStart atEnd result
  else return e
termination_by e.id
decreasing_by
  all_goals exact removal.pool.operand_lt (by simp [_h, Node.operands])

/-- The inputs in which `e` matches a piece, as an expression without anchors. -/
def search (e : Expr) : Step Expr := do
  let all ← build (·.all)
  if ← isAnchored e then
    let dot ← build (·.dot)
    let padding ← build (·.concat dot all)
    let whole ← inContext e true true
    let front ← inContext e true false
    let back ← inContext e false true
    let middle ← inContext e false false
    let front ← build (·.concat front padding)
    let back ← build (·.concat padding back)
    let middle ← build (·.concat middle padding)
    let middle ← build (·.concat padding middle)
    let rest ← build (·.union back middle)
    let rest ← build (·.union front rest)
    build (·.union whole rest)
  else
    let tail ← build (·.concat e all)
    build (·.concat all tail)

end Removal

/-- The expression without anchors that matches the inputs in which `e` matches a piece. -/
def Expr.removeAnchors (e : Expr) : Session Expr := fun pool =>
  match (Removal.search e).run (.start pool) with
  | .ok result removal => .ok result removal.pool
  | .error error removal => .error error removal.pool

end RegexAlgebra
