/-!
# Assertions of patterns

An assertion matches an empty piece of the input, depending on what stands on either side of it. Only the two
assertions about the ends of the whole input are expressions of the algebra.
-/

namespace RegexAlgebra.Pattern

inductive Look
  | start
  | finish
  | startLF
  | endLF
  | startCRLF
  | endCRLF
  | wordAscii
  | wordAsciiNegate
  | wordUnicode
  | wordUnicodeNegate
  | wordStartAscii
  | wordEndAscii
  | wordStartUnicode
  | wordEndUnicode
  | wordStartHalfAscii
  | wordEndHalfAscii
  | wordStartHalfUnicode
  | wordEndHalfUnicode
deriving DecidableEq

/-- The name of an assertion, as messages give it. -/
def Look.name : Look → String
  | start => "Start"
  | finish => "End"
  | startLF => "StartLF"
  | endLF => "EndLF"
  | startCRLF => "StartCRLF"
  | endCRLF => "EndCRLF"
  | wordAscii => "WordAscii"
  | wordAsciiNegate => "WordAsciiNegate"
  | wordUnicode => "WordUnicode"
  | wordUnicodeNegate => "WordUnicodeNegate"
  | wordStartAscii => "WordStartAscii"
  | wordEndAscii => "WordEndAscii"
  | wordStartUnicode => "WordStartUnicode"
  | wordEndUnicode => "WordEndUnicode"
  | wordStartHalfAscii => "WordStartHalfAscii"
  | wordEndHalfAscii => "WordEndHalfAscii"
  | wordStartHalfUnicode => "WordStartHalfUnicode"
  | wordEndHalfUnicode => "WordEndHalfUnicode"

def Look.all : List Look :=
  [start, finish, startLF, endLF, startCRLF, endCRLF, wordAscii, wordAsciiNegate, wordUnicode, wordUnicodeNegate,
    wordStartAscii, wordEndAscii, wordStartUnicode, wordEndUnicode, wordStartHalfAscii, wordEndHalfAscii,
    wordStartHalfUnicode, wordEndHalfUnicode]

def Look.ofName? (name : String) : Option Look := Look.all.find? (·.name == name)

end RegexAlgebra.Pattern
