import RegexAlgebra.Automaton.Composition
import RegexAlgebra.Pattern.Faults
import RegexAlgebra.Pattern.Text
import RegexAlgebra.Pool.Descendants
import RegexAlgebra.Pool.History
import RegexAlgebra.Pool.NormalForm
import RegexAlgebra.Semantics.Matching
import RegexAlgebra.Semantics.PatternMatching
import RegexAlgebra.Semantics.Words
import RegexAlgebra.Proofs.Anchors
import RegexAlgebra.Proofs.Meaning
import RegexAlgebra.Proofs.Rules
import RegexAlgebra.Proofs.Construction
import RegexAlgebra.Proofs.Sessions
import RegexAlgebra.Proofs.Repetitions
import RegexAlgebra.Proofs.Languages
import RegexAlgebra.Proofs.Derivatives
import RegexAlgebra.Proofs.Contexts
import RegexAlgebra.Proofs.Removal
import RegexAlgebra.Proofs.Partitions
import RegexAlgebra.Proofs.Replay
import RegexAlgebra.Proofs.Exploration
import RegexAlgebra.Proofs.Patterns
import RegexAlgebra.Proofs.Histories
import RegexAlgebra.Proofs.Matching
import RegexAlgebra.Proofs.Operations
import RegexAlgebra.Proofs.Simulation
import RegexAlgebra.Proofs.Finiteness
import RegexAlgebra.Proofs.NormalForms
import RegexAlgebra.Proofs.Canonical
import RegexAlgebra.Proofs.Termination
import RegexAlgebra.Proofs.Representation
import RegexAlgebra.Proofs.Moves
import RegexAlgebra.Proofs.Cells
import RegexAlgebra.Proofs.Lockstep
import RegexAlgebra.Proofs.Composition
import RegexAlgebra.Proofs.Search
import RegexAlgebra.Proofs.Limits
import RegexAlgebra.Proofs.Records
import RegexAlgebra.Proofs.Positions
import RegexAlgebra.Proofs.Calls
import RegexAlgebra.Proofs.Requests
import RegexAlgebra.Proofs.Emptiness
import RegexAlgebra.Proofs.ChainLaws
import RegexAlgebra.Proofs.Bounds
import RegexAlgebra.Proofs.Plans
import RegexAlgebra.Proofs.Concatenations
import RegexAlgebra.Proofs.UnaryLaws
import RegexAlgebra.Expr.Nullability
import RegexAlgebra.Proofs.Queries
import RegexAlgebra.Proofs.Saturation
import RegexAlgebra.Proofs.Intervals
import RegexAlgebra.Proofs.Faults
import RegexAlgebra.Proofs.Rewriting
import RegexAlgebra.Proofs.Failures
import RegexAlgebra.Proofs.Refinement
import RegexAlgebra.Proofs.Detectors
import RegexAlgebra.Proofs.ChainParts
