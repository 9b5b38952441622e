import RegexAlgebra.Interval

/-!
# Expression handles and nodes

An expression is handled by a number, its identifier, that a pool gave to it. Identifiers count the nodes of a pool in
the order in which they were stored, so an operand has a smaller identifier than the node it stands in. Every recursion
over an expression descends along identifiers for that reason.

The first four identifiers belong to the four nodes without operands or symbols: the empty language, the empty word,
and the two anchors.
-/

namespace RegexAlgebra

/-- A handle to a node of a pool. Two handles are equal exactly if they name the same node of it. -/
structure Expr where
  id : Nat
deriving DecidableEq

namespace Expr

instance : Hashable Expr where
  hash e := hash e.id

/-- Handles are ordered by their identifiers, that is by age. -/
instance : Ord Expr where
  compare e f := compare e.id f.id

instance : Std.TransOrd Expr where
  eq_swap {e f} := Std.OrientedOrd.eq_swap (a := e.id) (b := f.id)
  isLE_trans {e f g} := Std.TransOrd.isLE_trans (a := e.id) (b := f.id) (c := g.id)

theorem ext_id {e f : Expr} (h : e.id = f.id) : e = f := by
  cases e
  cases f
  exact congrArg Expr.mk h

instance : Std.LawfulEqOrd Expr where
  compare_self {e} := Std.ReflOrd.compare_self (a := e.id)
  eq_of_compare h := ext_id (Std.LawfulEqOrd.eq_of_compare h)

def empty : Expr := ⟨0⟩

def epsilon : Expr := ⟨1⟩

def startAnchor : Expr := ⟨2⟩

def endAnchor : Expr := ⟨3⟩

/-- A truth value as a language: `epsilon` if it is true, `empty` otherwise. -/
def ofBool (b : Bool) : Expr := if b then epsilon else empty

end Expr

inductive BinaryOp
  | union
  | intersect
  | concat
deriving DecidableEq, Hashable

inductive UnaryOp
  | star
  | negate
deriving DecidableEq, Hashable

/-- One layer of an expression. -/
inductive Node
  | empty
  | epsilon
  | startAnchor
  | endAnchor
  | range (interval : Interval)
  | binary (op : BinaryOp) (left right : Expr)
  | unary (op : UnaryOp) (sub : Expr)
deriving DecidableEq, Hashable

namespace Node

/-- The expressions that a node refers to. -/
def operands : Node → List Expr
  | binary _ left right => [left, right]
  | unary _ sub => [sub]
  | _ => []

def asRange? : Node → Option Interval
  | range interval => some interval
  | _ => none

def asBinary? (op : BinaryOp) : Node → Option (Expr × Expr)
  | binary op' left right => if op' = op then some (left, right) else none
  | _ => none

def asUnary? (op : UnaryOp) : Node → Option Expr
  | unary op' sub => if op' = op then some sub else none
  | _ => none

def isAnchor : Node → Bool
  | startAnchor => true
  | endAnchor => true
  | _ => false

theorem asRange?_eq_some_iff {n : Node} {i : Interval} : n.asRange? = some i ↔ n = range i := by
  cases n <;> simp [asRange?]

theorem asBinary?_eq_some_iff {n : Node} {op : BinaryOp} {l r : Expr} :
    n.asBinary? op = some (l, r) ↔ n = binary op l r := by
  cases n <;> grind [asBinary?]

theorem asUnary?_eq_some_iff {n : Node} {op : UnaryOp} {e : Expr} :
    n.asUnary? op = some e ↔ n = unary op e := by
  cases n <;> grind [asUnary?]

end Node

end RegexAlgebra
