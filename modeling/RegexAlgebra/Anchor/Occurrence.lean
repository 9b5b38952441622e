import RegexAlgebra.Pool.Session

/-!
# Occurrences of anchors

Whether an anchor stands anywhere in an expression. The question is answered in two ways: by a search over the nodes
that the expression leads to (`Pool.containsAnchor`), and by a recursion over the operands that remembers what it has
found for each expression (`Pool.isAnchored`), for use where many parts of one expression are asked about.
-/

namespace RegexAlgebra.Pool

/--
Continues a search with the expressions on a stack; those of `seen` have been dealt with. An expression is dealt with
by putting its operands on the stack.
-/
def searchAnchor (pool : Pool) : (fuel : Nat) → (stack : List Expr) → (seen : List Expr) → Bool
  | 0, _, _ => false
  | _ + 1, [], _ => false
  | fuel + 1, e :: stack, seen =>
    if e ∈ seen then searchAnchor pool fuel stack seen
    else if (pool.node e).isAnchor then true
    else searchAnchor pool fuel ((pool.node e).operands.reverse ++ stack) (e :: seen)

/--
Whether an anchor stands anywhere in an expression.

Each expression has at most two operands, and puts them on the stack once. So one turn more than twice the number of
expressions up to `e` empties the stack.
-/
def containsAnchor (pool : Pool) (e : Expr) : Bool :=
  pool.searchAnchor (2 * (e.id + 1) + 1) [e] []

/-- What is known about the anchors of some expressions. -/
abbrev AnchorMemo := Std.HashMap Expr Bool

/--
Whether an anchor stands anywhere in an expression, together with what is known after finding out. The right operand of
an operator is looked at only if the left one has no anchor.
-/
def isAnchored (pool : Pool) (e : Expr) (memo : AnchorMemo) : Bool × AnchorMemo :=
  match memo[e]? with
  | some known => (known, memo)
  | none =>
    let (found, memo) :=
      match _h : pool.node e with
      | .binary _ left right =>
        let (found, memo) := isAnchored pool left memo
        if found then (true, memo) else isAnchored pool right memo
      | .unary _ sub => isAnchored pool sub memo
      | leaf => (leaf.isAnchor, memo)
    (found, memo.insert e found)
termination_by e.id
decreasing_by
  all_goals exact pool.operand_lt (by simp [_h, Node.operands])

end RegexAlgebra.Pool
