/-!
# Malformed patterns

The reasons for which a pattern text has no pattern tree.
-/

namespace RegexAlgebra.Pattern

/-- What is wrong with a pattern text. -/
inductive SyntaxError
  | unclosedGroup
  | unopenedGroup
  | unclosedClass
  | invertedRange
  | invalidRangeBound
  | invalidClassEscape
  | missingOperand
  | unclosedCount
  | emptyCount
  /-- A number is larger than 2^32 - 1. -/
  | countTooLarge
  | invertedCount
  | unfinishedEscape
  | unknownEscape
  | missingDigits
  | invalidDigit
  | notScalarValue
  | unknownBoundary
  | unknownFlag
  | repeatedFlag
  | repeatedFlagNegation
  | danglingFlagNegation
  | unfinishedFlags
  | emptyName
  | invalidName
  | unfinishedName
  | repeatedName
  | lookAround
  | backReference
  | nestedTooDeeply
  /-- The pattern could match text that is not valid UTF-8. -/
  | invalidUtf8
  | notAByte
  | unknownClass
deriving DecidableEq

end RegexAlgebra.Pattern
