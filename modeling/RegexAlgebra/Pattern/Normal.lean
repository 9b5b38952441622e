import RegexAlgebra.Pattern
import RegexAlgebra.SymbolSet

/-!
# Pattern trees in normal form

Constructors of pattern trees that keep them small without a change of what they match:

* literals next to each other are one, and the empty word is no part of a concatenation;
* concatenations and alternations are not nested directly;
* a class of one symbol is a literal, and an alternation of single symbols or of classes is a class;
* what the branches of an alternation start with in common stands in front of it;
* a repetition of what matches the empty word alone is made at most once, one of no times is the empty word, and one of
  one time is its operand.

The form shows where a tree has more than one fault, because it decides the order in which they are found.
-/

namespace RegexAlgebra.Pattern

/-- The pattern that matches nothing, as the class without symbols. -/
def nothing : Pattern := .byteClass []

def ofChar (c : Char) : Pattern := .literal (String.singleton c).toUTF8.toList

def ofSymbols (set : SymbolSet) : Pattern :=
  match set with
  | [] => nothing
  | [i] => if i.low = i.high then ofChar i.low else .symbolClass [i]
  | intervals => .symbolClass intervals

def ofAscii (set : SymbolSet) : Pattern :=
  let byte : Char → UInt8 := fun c => c.toNat.toUInt8
  match set with
  | [] => nothing
  | [i] => if i.low = i.high then .literal [byte i.low] else .byteClass [(byte i.low, byte i.high)]
  | intervals => .byteClass (intervals.map fun i => (byte i.low, byte i.high))

/-! ## Repetition -/

mutual

/-- Whether the size of a tree shows that it matches the empty word alone. -/
def isVoid : Pattern → Bool
  | .empty => true
  | .literal _ => false
  | .symbolClass _ => false
  | .byteClass _ => false
  | .look _ => true
  | .repetition _ max _ sub => max.isSome && isVoid sub
  | .capture _ _ sub => isVoid sub
  | .concat parts => areVoid parts
  | .alternation branches => areVoid branches

def areVoid : List Pattern → Bool
  | [] => true
  | part :: parts => isVoid part && areVoid parts

end

def repeating (min : Nat) (max : Option Nat) (greedy : Bool) (sub : Pattern) : Pattern :=
  let (min, max) := if sub.isVoid then (Nat.min min 1, some (max.elim 1 (Nat.min 1))) else (min, max)
  if min = 0 ∧ max = some 0 then .empty
  else if min = 1 ∧ max = some 1 then sub
  else .repetition min max greedy sub

/-! ## Concatenation -/

/-- The parts of a concatenation that stand directly in it. -/
def partsOf : Pattern → List Pattern
  | .concat parts => parts
  | .empty => []
  | part => [part]

/-- Joins literals that stand next to each other. -/
def joinLiterals : List Pattern → List Pattern
  | [] => []
  | .literal bytes :: rest =>
    match joinLiterals rest with
    | .literal more :: rest => .literal (bytes ++ more) :: rest
    | rest => .literal bytes :: rest
  | part :: rest => part :: joinLiterals rest

def sequence (parts : List Pattern) : Pattern :=
  match joinLiterals (parts.flatMap partsOf) with
  | [] => .empty
  | [part] => part
  | parts => .concat parts

/-! ## Alternation -/

def branchesOf : Pattern → List Pattern
  | .alternation branches => branches
  | branch => [branch]

def asSymbol? : Pattern → Option Char
  | .literal bytes =>
    match (ByteArray.mk bytes.toArray).utf8Decode? with
    | some #[c] => some c
    | _ => none
  | _ => none

/-- The symbols of a class. A class of bytes has symbols if its bytes are ASCII. -/
def asSymbols? : Pattern → Option SymbolSet
  | .symbolClass ranges => some ranges
  | .byteClass ranges =>
    if ranges.all fun range => range.2 ≤ 0x7F then some (ranges.map byteInterval) else none
  | _ => none

/-- How many parts two lists start with in common. -/
def commonLength : List Pattern → List Pattern → Nat
  | p :: ps, q :: qs => if p == q then commonLength ps qs + 1 else 0
  | _, _ => 0

def asParts? : Pattern → Option (List Pattern)
  | .concat parts => some parts
  | _ => none

def sharedLength : List (List Pattern) → Nat
  | [] => 0
  | parts :: others => others.foldl (fun shared other => Nat.min shared (commonLength parts other)) parts.length

/--
One of some branches, after `fuel` common beginnings were taken out. Each beginning that is taken out makes the branches
shorter.
-/
def choiceWithin : (fuel : Nat) → List Pattern → Pattern
  | 0, branches => .alternation branches
  | fuel + 1, branches =>
    match branches.flatMap branchesOf with
    | [] => nothing
    | [branch] => branch
    | branches =>
      match branches.mapM asSymbol?, branches.mapM asSymbols? with
      | some symbols, _ => ofSymbols (SymbolSet.normalize (symbols.map Interval.singleton))
      | none, some sets => ofSymbols (SymbolSet.normalize sets.flatten)
      | none, none =>
        match branches.mapM asParts? with
        | none => .alternation branches
        | some all =>
          match sharedLength all with
          | 0 => .alternation branches
          | shared + 1 =>
            let suffixes := all.map fun parts => sequence (parts.drop (shared + 1))
            sequence ((all.headD []).take (shared + 1) ++ [choiceWithin fuel suffixes])

mutual

/-- The number of parts and branches in a tree. -/
def weight : Pattern → Nat
  | .repetition _ _ _ sub => weight sub + 1
  | .capture _ _ sub => weight sub + 1
  | .concat parts => weights parts + 1
  | .alternation branches => weights branches + 1
  | _ => 1

def weights : List Pattern → Nat
  | [] => 0
  | part :: parts => weight part + weights parts

end

def choice (branches : List Pattern) : Pattern := choiceWithin (weights branches + 1) branches

end RegexAlgebra.Pattern
