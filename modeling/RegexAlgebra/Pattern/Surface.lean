import RegexAlgebra.Pattern.Flags

/-!
# Surface syntax of patterns

A pattern as it is written, with nothing simplified or decided. What an assertion, a dot or a class means depends on
the flags that hold where it stands; see `RegexAlgebra.Pattern.Meaning`.
-/

namespace RegexAlgebra.Pattern

inductive Assertion
  | caret
  | dollar
  | startText
  | endText
  | wordBoundary
  | noWordBoundary
  | wordStart
  | wordEnd
  | wordStartHalf
  | wordEndHalf
deriving DecidableEq

structure Letter where
  char : Char
  /-- Whether it is written by two hexadecimal digits, and so can stand for a byte. -/
  isByte : Bool
deriving DecidableEq

inductive NamedClass
  | alnum
  | alpha
  | ascii
  | blank
  | cntrl
  | digit
  | graph
  | lower
  | print
  | punct
  | space
  | upper
  | word
  | xdigit
deriving DecidableEq

inductive SetOp
  | intersection
  | difference
  | symmetricDifference
deriving DecidableEq

/-- What stands between brackets. -/
inductive BracketSet
  | letter (letter : Letter)
  | range (low high : Letter)
  | named (negated : Bool) (name : NamedClass)
  /-- A class by its letter after a backslash. -/
  | shorthand (negated : Bool) (name : NamedClass)
  | bracketed (negated : Bool) (set : BracketSet)
  | union (items : List BracketSet)
  | op (operator : SetOp) (left right : BracketSet)

inductive GroupHead
  | capture (index : Nat) (name : Option String)
  | plain (on off : List Flag)
deriving DecidableEq

/-- A pattern as it is written. -/
inductive Surface
  | empty
  | setFlags (on off : List Flag)
  | letter (letter : Letter)
  | dot
  | assertion (kind : Assertion)
  /-- A class by its letter after a backslash. -/
  | shorthand (negated : Bool) (name : NamedClass)
  | bracketed (negated : Bool) (set : BracketSet)
  | repetition (min : Nat) (max : Option Nat) (greedy : Bool) (sub : Surface)
  | group (head : GroupHead) (sub : Surface)
  | alternation (branches : List Surface)
  | concat (parts : List Surface)

namespace BracketSet

def ofItems : List BracketSet → BracketSet
  | [item] => item
  | items => .union items

mutual

/-- How deeply unions, operators and inner brackets are nested. A union without items counts for none. -/
def depth : BracketSet → Nat
  | .letter _ => 0
  | .range _ _ => 0
  | .named _ _ => 0
  | .shorthand _ _ => 0
  | .bracketed _ set => depth set + 1
  | .union [] => 0
  | .union (item :: items) => max (depth item) (maxDepth items) + 1
  | .op _ left right => max (depth left) (depth right) + 1

def maxDepth : List BracketSet → Nat
  | [] => 0
  | item :: items => max (depth item) (maxDepth items)

end

end BracketSet

namespace Surface

def ofParts : List Surface → Surface
  | [] => .empty
  | [part] => part
  | parts => .concat parts

def ofBranches : List Surface → Surface
  | [] => .empty
  | [branch] => branch
  | branches => .alternation branches

mutual

/-- How deeply groups, repetitions, alternations, concatenations and brackets are nested. -/
def depth : Surface → Nat
  | .empty => 0
  | .setFlags _ _ => 0
  | .letter _ => 0
  | .dot => 0
  | .assertion _ => 0
  | .shorthand _ _ => 0
  | .bracketed _ set => set.depth + 1
  | .repetition _ _ _ sub => depth sub + 1
  | .group _ sub => depth sub + 1
  | .alternation branches => maxDepth branches + 1
  | .concat parts => maxDepth parts + 1

def maxDepth : List Surface → Nat
  | [] => 0
  | part :: parts => max (depth part) (maxDepth parts)

end

/-- The greatest depth that a pattern may have. -/
def depthLimit : Nat := 250

end Surface

end RegexAlgebra.Pattern
