import RegexAlgebra.Interval
import RegexAlgebra.Pattern.Look

/-!
# Pattern trees

A pattern as a tree, as far as its language depends on it. A tree also says what only matters to a search for the place
of a match, the number and name of a group and whether a repetition is greedy.
-/

namespace RegexAlgebra

inductive Pattern
  | empty
  /-- Matches a word, which is given by its encoding. -/
  | literal (bytes : List UInt8)
  | symbolClass (ranges : List Interval)
  /-- Matches one symbol whose code point is a byte of one of the ranges, given by their first and last byte. -/
  | byteClass (ranges : List (UInt8 × UInt8))
  | look (assertion : Pattern.Look)
  | repetition (min : Nat) (max : Option Nat) (greedy : Bool) (sub : Pattern)
  | capture (index : Nat) (name : Option String) (sub : Pattern)
  | concat (parts : List Pattern)
  | alternation (branches : List Pattern)
deriving BEq

namespace Pattern

/--
The word of a literal. An encoding that is valid UTF-8 is decoded. In any other each byte stands for the symbol of that
code point.
-/
def literalWord (bytes : List UInt8) : List Char :=
  match (ByteArray.mk bytes.toArray).utf8Decode? with
  | some word => word.toList
  | none => bytes.map Char.ofUInt8

def byteInterval (range : UInt8 × UInt8) : Interval := ⟨Char.ofUInt8 range.1, Char.ofUInt8 range.2⟩

end Pattern

end RegexAlgebra
