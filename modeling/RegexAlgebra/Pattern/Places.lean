import RegexAlgebra.Error
import RegexAlgebra.Pattern

/-!
# Places of pattern trees

A place says how to come from the root of a pattern tree to one of its parts, by the number of the operand to go to in
each step. The places of a tree are ordered as its parts are turned into expressions: what stands in a part comes before
the part itself, a concatenation is gone through from its last operand to its first, and all else from the first operand
to the last. Of the parts at fault, the one that comes first is the one that is reported.
-/

namespace RegexAlgebra.Pattern

def operands : Pattern → List Pattern
  | .repetition _ _ _ sub => [sub]
  | .capture _ _ sub => [sub]
  | .concat parts => parts
  | .alternation branches => branches
  | _ => []

/-- The way from the root of a tree to a part, by the numbers of operands. -/
abbrev Place := List Nat

/-- The part at a place, if there is one. -/
def part? (pattern : Pattern) : Place → Option Pattern
  | [] => some pattern
  | i :: place => pattern.operands[i]?.bind fun operand => operand.part? place

/-- Of two operands with these numbers the first one comes before the second one. -/
def OperandPrecedes (pattern : Pattern) (i j : Nat) : Prop :=
  match pattern with
  | .concat _ => j < i
  | _ => i < j

/-- Of two places of a pattern the first one comes before the second one. -/
inductive Precedes : Pattern → Place → Place → Prop
  | inside (pattern : Pattern) (i : Nat) (place : Place) : Precedes pattern (i :: place) []
  | apart {pattern : Pattern} {i j : Nat} (place place' : Place) :
      pattern.OperandPrecedes i j → Precedes pattern (i :: place) (j :: place')
  | within {pattern operand : Pattern} {i : Nat} {place place' : Place} :
      pattern.operands[i]? = some operand → Precedes operand place place' → Precedes pattern (i :: place) (i :: place')

/-- A part that has no expression, whatever its operands are. -/
inductive IsFault : Pattern → Error → Prop
  | look {assertion : Look} : assertion ≠ .start → assertion ≠ .finish →
      IsFault (.look assertion) (.unsupportedLook assertion)
  | bounds {min max : Nat} (greedy : Bool) (sub : Pattern) : max < min →
      IsFault (.repetition min (some max) greedy sub) (.invalidRepeat min max)

/-- The part at the place is at fault, and all others at fault come after it. -/
structure FirstFault (pattern : Pattern) (place : Place) (error : Error) : Prop where
  isFault : ∃ part, pattern.part? place = some part ∧ part.IsFault error
  precedes : ∀ place' part error', pattern.part? place' = some part → part.IsFault error' → place' ≠ place →
    pattern.Precedes place place'

end RegexAlgebra.Pattern
