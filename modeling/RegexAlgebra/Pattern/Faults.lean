import RegexAlgebra.Error
import RegexAlgebra.Pattern

/-!
# Faults of pattern trees

What in a pattern tree has no expression: assertions other than those about the ends of the input, and repetitions with
inverted bounds. The faults are listed in the order in which they are met: a concatenation is gone through from its last
part to its first, an alternation from its first branch to its last, and a repetition comes after its operand.
-/

namespace RegexAlgebra.Pattern

def Look.faults : Look → List Error
  | .start => []
  | .finish => []
  | other => [.unsupportedLook other]

def boundFaults (min : Nat) : Option Nat → List Error
  | some max => if max < min then [.invalidRepeat min max] else []
  | none => []

mutual

/-- The faults of a pattern, in the order in which they are met. -/
def faults : Pattern → List Error
  | .empty => []
  | .literal _ => []
  | .symbolClass _ => []
  | .byteClass _ => []
  | .look assertion => assertion.faults
  | .repetition min max _ sub => faults sub ++ boundFaults min max
  | .capture _ _ sub => faults sub
  | .concat parts => partFaults parts
  | .alternation branches => branchFaults branches

/-- The faults of some parts, the last part first. -/
def partFaults : List Pattern → List Error
  | [] => []
  | part :: parts => partFaults parts ++ faults part

/-- The faults of some branches, the first branch first. -/
def branchFaults : List Pattern → List Error
  | [] => []
  | branch :: branches => faults branch ++ branchFaults branches

end

end RegexAlgebra.Pattern
