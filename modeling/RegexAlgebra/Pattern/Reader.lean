import RegexAlgebra.Pattern.Surface
import RegexAlgebra.Pattern.SyntaxError
import RegexAlgebra.Symbol.Alphabetic
import RegexAlgebra.Symbol.Blank
import RegexAlgebra.Symbol.Numeric

/-!
# Reading patterns

From the text of a pattern to its surface syntax. Each reader takes the characters in front of it, and gives what it has
read together with the characters behind it.

Groups and brackets nest, and are read by a loop that keeps the levels that are still open. Each turn of such a loop
reads at least one character, so that it needs no more turns than there are characters.
-/

namespace RegexAlgebra.Pattern.Reader

abbrev Reading := Except SyntaxError

/-! ## Numbers -/

def isDecimal (c : Char) : Bool := '0' ≤ c && c ≤ '9'

def hexValue? (c : Char) : Option Nat :=
  if '0' ≤ c ∧ c ≤ '9' then some (c.toNat - '0'.toNat)
  else if 'a' ≤ c ∧ c ≤ 'f' then some (c.toNat - 'a'.toNat + 10)
  else if 'A' ≤ c ∧ c ≤ 'F' then some (c.toNat - 'A'.toNat + 10)
  else none

def number (base : Nat) (digits : List Nat) : Nat := digits.foldl (fun n d => n * base + d) 0

/-- The largest count of a repetition, 2^32 - 1. -/
def countBound : Nat := 4294967295

/-- A count, which may stand between blanks. -/
def count (cs : List Char) : Reading (Nat × List Char) :=
  let cs := cs.dropWhile Symbol.isBlank
  let digits := cs.takeWhile isDecimal
  let rest := (cs.dropWhile isDecimal).dropWhile Symbol.isBlank
  if digits.isEmpty then .error .emptyCount
  else
    let n := number 10 (digits.map fun c => c.toNat - '0'.toNat)
    if countBound < n then .error .countTooLarge else .ok (n, rest)

/-- The bounds of a counted repetition, behind its opening brace. -/
def bounds (cs : List Char) : Reading ((Nat × Option Nat) × List Char) := do
  if cs.isEmpty then throw .unclosedCount
  let (min, rest) ← count cs
  match rest with
  | '\x7d' :: rest => return ((min, some min), rest)
  | ',' :: '\x7d' :: rest => return ((min, none), rest)
  | ',' :: rest =>
    if rest.isEmpty then throw .unclosedCount
    let (max, rest) ← count rest
    match rest with
    | '\x7d' :: rest => if max < min then throw .invertedCount else return ((min, some max), rest)
    | _ => throw .unclosedCount
  | _ => throw .unclosedCount

/-- Whether a repetition is greedy: no question mark follows its operator. -/
def greed : List Char → Bool × List Char
  | '?' :: rest => (false, rest)
  | rest => (true, rest)

/-! ## Escapes -/

def codePoint (digits : List Char) : Reading Char :=
  if digits.isEmpty then .error .missingDigits
  else
    match digits.mapM hexValue? with
    | none => .error .invalidDigit
    | some values =>
      let n := number 16 values
      if n.isValidChar then .ok (Char.ofNat n) else .error .notScalarValue

/-- A symbol by its code point, in braces or by as many digits as `width` says. -/
def hexEscape (width : Nat) : List Char → Reading (Letter × List Char)
  | [] => .error .unfinishedEscape
  | '\x7b' :: cs =>
    match cs.dropWhile (· != '\x7d') with
    | [] => .error .unfinishedEscape
    | _ :: rest => do
      let c ← codePoint (cs.takeWhile (· != '\x7d'))
      return (⟨c, false⟩, rest)
  | cs =>
    if cs.length < width then .error .unfinishedEscape
    else do
      let c ← codePoint (cs.take width)
      return (⟨c, width == 2⟩, cs.drop width)

def control? : Char → Option Char
  | 'a' => some '\x07'
  | 'f' => some '\x0c'
  | 'n' => some '\n'
  | 'r' => some '\r'
  | 't' => some '\t'
  | 'v' => some '\x0b'
  | _ => none

def assertion? : Char → Option Assertion
  | 'A' => some .startText
  | 'z' => some .endText
  | 'b' => some .wordBoundary
  | 'B' => some .noWordBoundary
  | '<' => some .wordStart
  | '>' => some .wordEnd
  | _ => none

/-- The classes that a letter stands for, and whether they are negated. -/
def shorthand? : Char → Option (Bool × NamedClass)
  | 'd' => some (false, .digit)
  | 'D' => some (true, .digit)
  | 's' => some (false, .space)
  | 'S' => some (true, .space)
  | 'w' => some (false, .word)
  | 'W' => some (true, .word)
  | _ => none

/-- Whether a character stands for itself behind a backslash: the ASCII characters that are no letters or digits. -/
def isEscapable (c : Char) : Bool := c.toNat < 0x80 && !c.isAlphanum

def boundary? : List Char → Option Assertion
  | ['s', 't', 'a', 'r', 't'] => some .wordStart
  | ['e', 'n', 'd'] => some .wordEnd
  | ['s', 't', 'a', 'r', 't', '-', 'h', 'a', 'l', 'f'] => some .wordStartHalf
  | ['e', 'n', 'd', '-', 'h', 'a', 'l', 'f'] => some .wordEndHalf
  | _ => none

def isBoundaryLetter (c : Char) : Bool := c.isAlpha || c == '-'

/--
A word boundary, which a name in braces can narrow. Braces that hold no name are left to be the count of a repetition.
-/
def wordBoundary : List Char → Reading (Surface × List Char)
  | '\x7b' :: cs =>
    match cs with
    | [] => .error .unfinishedEscape
    | c :: _ =>
      if isBoundaryLetter c then
        match cs.dropWhile isBoundaryLetter with
        | '\x7d' :: rest =>
          match boundary? (cs.takeWhile isBoundaryLetter) with
          | some kind => .ok (.assertion kind, rest)
          | none => .error .unknownBoundary
        | _ => .error .unknownBoundary
      else .ok (.assertion .wordBoundary, '\x7b' :: cs)
  | cs => .ok (.assertion .wordBoundary, cs)

def escape : List Char → Reading (Surface × List Char)
  | [] => .error .unfinishedEscape
  | 'x' :: cs => (fun (letter, rest) => (.letter letter, rest)) <$> hexEscape 2 cs
  | 'u' :: cs => (fun (letter, rest) => (.letter letter, rest)) <$> hexEscape 4 cs
  | 'U' :: cs => (fun (letter, rest) => (.letter letter, rest)) <$> hexEscape 8 cs
  | 'b' :: cs => wordBoundary cs
  | c :: cs =>
    if isDecimal c then .error .backReference
    else
      match control? c, assertion? c, shorthand? c with
      | some control, _, _ => .ok (.letter ⟨control, false⟩, cs)
      | none, some kind, _ => .ok (.assertion kind, cs)
      | none, none, some (negated, name) => .ok (.shorthand negated name, cs)
      | none, none, none => if isEscapable c then .ok (.letter ⟨c, false⟩, cs) else .error .unknownEscape

/-! ## Brackets -/

/-- A bracket class that is still open: the items since its last operator, in reverse, and what stands before that. -/
structure BracketLevel where
  negated : Bool
  items : List BracketSet
  pending : Option (BracketSet × SetOp)

namespace BracketLevel

def push (level : BracketLevel) (item : BracketSet) : BracketLevel := { level with items := item :: level.items }

/-- The set so far. Operators are applied from left to right. -/
def set (level : BracketLevel) : BracketSet :=
  let right := BracketSet.ofItems level.items.reverse
  match level.pending with
  | some (left, operator) => .op operator left right
  | none => right

def operate (level : BracketLevel) (operator : SetOp) : BracketLevel :=
  { level with items := [], pending := some (level.set, operator) }

end BracketLevel

/-- Minus signs in front of a class stand for themselves. -/
def leadingMinus (level : BracketLevel) : List Char → BracketLevel × List Char
  | '-' :: cs => leadingMinus (level.push (.letter ⟨'-', false⟩)) cs
  | cs => (level, cs)

/-- Opens a class, behind its bracket. A closing bracket that would leave the class empty stands for itself. -/
def openBracket (cs : List Char) : BracketLevel × List Char :=
  let (negated, cs) :=
    match cs with
    | '^' :: rest => (true, rest)
    | _ => (false, cs)
  let (level, cs) := leadingMinus ⟨negated, [], none⟩ cs
  match level.items, cs with
  | [], ']' :: rest => (level.push (.letter ⟨']', false⟩), rest)
  | _, _ => (level, cs)

def named? (name : String) : Option NamedClass :=
  match name with
  | "alnum" => some .alnum
  | "alpha" => some .alpha
  | "ascii" => some .ascii
  | "blank" => some .blank
  | "cntrl" => some .cntrl
  | "digit" => some .digit
  | "graph" => some .graph
  | "lower" => some .lower
  | "print" => some .print
  | "punct" => some .punct
  | "space" => some .space
  | "upper" => some .upper
  | "word" => some .word
  | "xdigit" => some .xdigit
  | _ => none

/-- A class by its name in colons, behind the bracket that opens it, if there is one. -/
def namedClass? (cs : List Char) : Option (BracketSet × List Char) :=
  match cs with
  | ':' :: cs =>
    let (negated, cs) :=
      match cs with
      | '^' :: rest => (true, rest)
      | _ => (false, cs)
    match cs.dropWhile (· != ':') with
    | ':' :: ']' :: rest =>
      (named? (String.ofList (cs.takeWhile (· != ':')))).map fun name => (.named negated name, rest)
    | _ => none
  | _ => none

def member : List Char → Reading (Surface × List Char)
  | [] => .error .unclosedClass
  | '\\' :: cs => escape cs
  | c :: cs => .ok (.letter ⟨c, false⟩, cs)

def asItem : Surface → Reading BracketSet
  | .letter l => .ok (.letter l)
  | .shorthand negated name => .ok (.shorthand negated name)
  | _ => .error .invalidClassEscape

def asBound : Surface → Reading Letter
  | .letter l => .ok l
  | _ => .error .invalidRangeBound

/-- A member of a class or a range. A minus sign before the closing bracket, or before another one, makes no range. -/
def item (cs : List Char) : Reading (BracketSet × List Char) := do
  let (low, rest) ← member cs
  match rest with
  | [] => throw .unclosedClass
  | '-' :: ']' :: _ => return (← asItem low, rest)
  | '-' :: '-' :: _ => return (← asItem low, rest)
  | '-' :: rest =>
    let (high, rest) ← member rest
    let low ← asBound low
    let high ← asBound high
    if high.char < low.char then throw .invertedRange else return (.range low high, rest)
  | _ => return (← asItem low, rest)

/-- Reads on in a class within the classes of `outer`, for at most `fuel` turns. -/
def bracketFrom :
    (fuel : Nat) → (outer : List BracketLevel) → (level : BracketLevel) → List Char → Reading (Surface × List Char)
  | 0, _, _, _ => .error .unclosedClass
  | _ + 1, _, _, [] => .error .unclosedClass
  | fuel + 1, outer, level, '[' :: cs =>
    match namedClass? cs with
    | some (named, rest) => bracketFrom fuel outer (level.push named) rest
    | none =>
      let (inner, rest) := openBracket cs
      bracketFrom fuel (level :: outer) inner rest
  | fuel + 1, outer, level, ']' :: cs =>
    match outer with
    | [] => .ok (.bracketed level.negated level.set, cs)
    | next :: outer => bracketFrom fuel outer (next.push (.bracketed level.negated level.set)) cs
  | fuel + 1, outer, level, '&' :: '&' :: cs => bracketFrom fuel outer (level.operate .intersection) cs
  | fuel + 1, outer, level, '-' :: '-' :: cs => bracketFrom fuel outer (level.operate .difference) cs
  | fuel + 1, outer, level, '~' :: '~' :: cs => bracketFrom fuel outer (level.operate .symmetricDifference) cs
  | fuel + 1, outer, level, cs => do
    let (next, rest) ← item cs
    bracketFrom fuel outer (level.push next) rest

def bracket (cs : List Char) : Reading (Surface × List Char) :=
  let (level, rest) := openBracket cs
  bracketFrom (rest.length + 1) [] level rest

/-! ## Groups -/

/--
Flags up to a colon or a closing parenthesis: those to set, those behind a minus sign to clear, and the character that
ends them.
-/
def flagsFrom (on off : List Flag) (negated dangling : Bool) :
    List Char → Reading ((List Flag × List Flag) × Char × List Char)
  | [] => .error .unfinishedFlags
  | c :: cs =>
    if c = ':' ∨ c = ')' then
      if dangling then .error .danglingFlagNegation else .ok ((on, off), c, cs)
    else if c = '-' then
      if negated then .error .repeatedFlagNegation else flagsFrom on off true true cs
    else
      match Flag.ofLetter? c with
      | none => .error .unknownFlag
      | some flag =>
        if flag ∈ on ∨ flag ∈ off then .error .repeatedFlag
        else if negated then flagsFrom on (off ++ [flag]) true false cs
        else flagsFrom (on ++ [flag]) off false false cs

def isNameChar (c : Char) : Bool :=
  c == '_' || c == '.' || c == '[' || c == ']' || Symbol.isAlphabetic c || Symbol.isNumeric c

def isNameStart (c : Char) : Bool := c == '_' || Symbol.isAlphabetic c

/-- The name of a group, up to the angle bracket that closes it. No name of `used` is one. -/
def groupName (used : List String) (cs : List Char) : Reading (String × List Char) :=
  match cs.takeWhile (· != '>'), cs.dropWhile (· != '>') with
  | _, [] => .error .unfinishedName
  | [], _ :: _ => .error .emptyName
  | c :: name, _ :: rest =>
    if isNameStart c && name.all isNameChar then
      let name := String.ofList (c :: name)
      if name ∈ used then .error .repeatedName else .ok (name, rest)
    else .error .invalidName

structure Groups where
  count : Nat
  names : List String

inductive Opening
  | group (head : GroupHead)
  | directive (on off : List Flag)

def namedGroup (groups : Groups) (cs : List Char) : Reading ((Opening × Groups) × List Char) := do
  let (name, rest) ← groupName groups.names cs
  return ((.group (.capture (groups.count + 1) (some name)), ⟨groups.count + 1, name :: groups.names⟩), rest)

def opening (groups : Groups) : List Char → Reading ((Opening × Groups) × List Char)
  | '?' :: '=' :: _ => .error .lookAround
  | '?' :: '!' :: _ => .error .lookAround
  | '?' :: '<' :: '=' :: _ => .error .lookAround
  | '?' :: '<' :: '!' :: _ => .error .lookAround
  | '?' :: 'P' :: '<' :: cs => namedGroup groups cs
  | '?' :: '<' :: cs => namedGroup groups cs
  | '?' :: cs => do
    let ((on, off), last, rest) ← flagsFrom [] [] false false cs
    if last = ':' then return ((.group (.plain on off), groups), rest)
    else if on.isEmpty && off.isEmpty then throw .missingOperand
    else return ((.directive on off, groups), rest)
  | cs => .ok ((.group (.capture (groups.count + 1) none), ⟨groups.count + 1, groups.names⟩), cs)

/-! ## Patterns -/

/-- A group that is still open, or the whole pattern. Branches and parts are in reverse. -/
structure Level where
  branches : List Surface
  parts : List Surface

namespace Level

def start : Level := ⟨[], []⟩

def push (level : Level) (part : Surface) : Level := { level with parts := part :: level.parts }

def branch (level : Level) : Level := ⟨Surface.ofParts level.parts.reverse :: level.branches, []⟩

def pattern (level : Level) : Surface := Surface.ofBranches level.branch.branches.reverse

def repeatLast (level : Level) (min : Nat) (max : Option Nat) (greedy : Bool) : Reading Level :=
  match level.parts with
  | [] => .error .missingOperand
  | .setFlags _ _ :: _ => .error .missingOperand
  | part :: parts => .ok { level with parts := .repetition min max greedy part :: parts }

end Level

/-- The state of the loop: the open groups around the level that is read, and the groups opened so far. -/
structure State where
  outer : List (GroupHead × Level)
  level : Level
  groups : Groups

/-- One part that is no group, repetition or bracket class. -/
def primitive : (c : Char) → List Char → Reading (Surface × List Char)
  | '\\', cs => escape cs
  | '.', cs => .ok (.dot, cs)
  | '^', cs => .ok (.assertion .caret, cs)
  | '$', cs => .ok (.assertion .dollar, cs)
  | c, cs => .ok (.letter ⟨c, false⟩, cs)

def turn (state : State) (c : Char) (cs : List Char) : Reading (State × List Char) :=
  let repetition (min : Nat) (max : Option Nat) (cs : List Char) : Reading (State × List Char) := do
    let (greedy, rest) := greed cs
    let level ← state.level.repeatLast min max greedy
    return ({ state with level := level }, rest)
  match c with
  | '(' => do
    let ((begun, groups), rest) ← opening state.groups cs
    match begun with
    | .group head => return (⟨(head, state.level) :: state.outer, .start, groups⟩, rest)
    | .directive on off =>
      return ({ state with level := state.level.push (.setFlags on off), groups := groups }, rest)
  | ')' =>
    match state.outer with
    | [] => .error .unopenedGroup
    | (head, level) :: outer =>
      .ok ({ state with outer := outer, level := level.push (.group head state.level.pattern) }, cs)
  | '|' => .ok ({ state with level := state.level.branch }, cs)
  | '[' => do
    let (part, rest) ← bracket cs
    return ({ state with level := state.level.push part }, rest)
  | '?' => repetition 0 (some 1) cs
  | '*' => repetition 0 none cs
  | '+' => repetition 1 none cs
  | '\x7b' => do
    let ((min, max), rest) ← bounds cs
    repetition min max rest
  | c => do
    let (part, rest) ← primitive c cs
    return ({ state with level := state.level.push part }, rest)

def finish (state : State) : Reading Surface :=
  match state.outer with
  | [] => .ok state.level.pattern
  | _ :: _ => .error .unclosedGroup

def readFrom : (fuel : Nat) → State → List Char → Reading Surface
  | 0, state, _ => finish state
  | _ + 1, state, [] => finish state
  | fuel + 1, state, c :: cs => do
    let (state, rest) ← turn state c cs
    readFrom fuel state rest

/-- The surface syntax of a text, which may not be nested too deeply. -/
def read (text : List Char) : Reading Surface := do
  let surface ← readFrom text.length ⟨[], .start, ⟨0, []⟩⟩ text
  if Surface.depthLimit < surface.depth then throw .nestedTooDeeply else return surface

end RegexAlgebra.Pattern.Reader
