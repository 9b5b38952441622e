import RegexAlgebra.Pattern
import RegexAlgebra.Semantics.Pieces

/-!
# What a pattern matches

The pieces of an input that a pattern tree matches. Groups and greed do not matter. Of the assertions only those about
the two ends of the input have a meaning here. Bytes are read by their values: those of a literal are the UTF-8 encoding
of the word that it matches, if they are the encoding of any, and otherwise code points, as those of a byte class are.
-/

namespace RegexAlgebra.Pattern

def Look.HoldsAt (input : List Char) (look : Look) (i : Nat) : Prop :=
  match look with
  | .start => i = 0
  | .finish => i = input.length
  | _ => False

/-- The bytes encode the word, or they encode no word and are its code points. -/
def Spells (bytes : List UInt8) (word : List Char) : Prop :=
  word.flatMap String.utf8EncodeChar = bytes ∨
    (∀ other : List Char, other.flatMap String.utf8EncodeChar ≠ bytes) ∧ word.map Char.toNat = bytes.map UInt8.toNat

mutual

/-- The pattern matches the piece of the input from `i` to `j`. -/
def Matches (input : List Char) : Pattern → Pieces
  | .empty => fun i j => i = j
  | .literal bytes => fun i j => Spells bytes (Pieces.slice input i j)
  | .symbolClass ranges => Pieces.Symbol input fun c => ∃ interval ∈ ranges, c ∈ interval
  | .byteClass ranges => Pieces.Symbol input fun c =>
    ∃ range ∈ ranges, range.1.toNat ≤ c.toNat ∧ c.toNat ≤ range.2.toNat
  | .look assertion => fun i j => i = j ∧ assertion.HoldsAt input i
  | .repetition min max _ sub => fun i j =>
    ∃ n, min ≤ n ∧ (∀ m, max = some m → n ≤ m) ∧ Pieces.Power (Matches input sub) n i j
  | .capture _ _ sub => Matches input sub
  | .concat parts => AllMatch input parts
  | .alternation branches => AnyMatches input branches

def AllMatch (input : List Char) : List Pattern → Pieces
  | [] => fun i j => i = j
  | part :: parts => Pieces.Concat (Matches input part) (AllMatch input parts)

def AnyMatches (input : List Char) : List Pattern → Pieces
  | [] => fun _ _ => False
  | branch :: branches => fun i j => Matches input branch i j ∨ AnyMatches input branches i j

end

/-- The pattern matches some piece of the input. -/
def Occurs (pattern : Pattern) (input : List Char) : Prop :=
  ∃ i j, Pieces.Within input i j ∧ pattern.Matches input i j

end RegexAlgebra.Pattern
