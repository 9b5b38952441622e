import RegexAlgebra.Pattern.Normal
import RegexAlgebra.Pattern.Surface
import RegexAlgebra.Pattern.SyntaxError

/-!
# Meaning of the surface syntax

The pattern tree of a pattern as it is written. Flags hold from where they are set to the end of the group, across the
branches of an alternation.

In byte mode a pattern may still only match valid UTF-8. So the dot has no meaning there, a byte that is written as such
has to be ASCII, and so do all members of a class.
-/

namespace RegexAlgebra.Pattern

def NamedClass.symbols : NamedClass → SymbolSet
  | alnum => [⟨'0', '9'⟩, ⟨'A', 'Z'⟩, ⟨'a', 'z'⟩]
  | alpha => [⟨'A', 'Z'⟩, ⟨'a', 'z'⟩]
  | ascii => [⟨'\x00', '\x7f'⟩]
  | blank => [⟨'\t', '\t'⟩, ⟨' ', ' '⟩]
  | cntrl => [⟨'\x00', '\x1f'⟩, ⟨'\x7f', '\x7f'⟩]
  | digit => [⟨'0', '9'⟩]
  | graph => [⟨'!', '~'⟩]
  | lower => [⟨'a', 'z'⟩]
  | print => [⟨' ', '~'⟩]
  | punct => [⟨'!', '/'⟩, ⟨':', '@'⟩, ⟨'[', '\x60'⟩, ⟨'\x7b', '~'⟩]
  | space => [⟨'\t', '\r'⟩, ⟨' ', ' '⟩]
  | upper => [⟨'A', 'Z'⟩]
  | word => [⟨'0', '9'⟩, ⟨'A', 'Z'⟩, ⟨'_', '_'⟩, ⟨'a', 'z'⟩]
  | xdigit => [⟨'0', '9'⟩, ⟨'A', 'F'⟩, ⟨'a', 'f'⟩]

/-- The complement of a set of symbols, or in byte mode of a set of bytes. -/
def complementOf (unicode : Bool) (set : SymbolSet) : SymbolSet :=
  if unicode then SymbolSet.complement set else SymbolSet.difference [⟨'\x00', '\xff'⟩] set

def negateIf (unicode negated : Bool) (set : SymbolSet) : SymbolSet :=
  if negated then complementOf unicode set else set

/-- In byte mode, refuses a set that is not ASCII. -/
def requireAscii (unicode : Bool) (set : SymbolSet) : Except SyntaxError SymbolSet :=
  if unicode || set.all (·.high.toNat ≤ 0x7F) then .ok set else .error .invalidUtf8

def Letter.symbol (unicode : Bool) (letter : Letter) : Except SyntaxError Char :=
  if !unicode && letter.isByte && 0x7F < letter.char.toNat then .error .invalidUtf8 else .ok letter.char

/-- The symbol that a letter stands for in a class. -/
def Letter.member (unicode : Bool) (letter : Letter) : Except SyntaxError Char := do
  let c ← letter.symbol unicode
  if !unicode && 0x7F < c.toNat then throw .notAByte else return c

/-- The symbols of a class that is written by its letter. Only in byte mode has it any. -/
def shorthandSymbols (unicode negated : Bool) (name : NamedClass) : Except SyntaxError SymbolSet :=
  if unicode then .error .unknownClass
  else requireAscii false (negateIf false negated name.symbols)

def SetOp.apply : SetOp → SymbolSet → SymbolSet → SymbolSet
  | intersection => SymbolSet.inter
  | difference => SymbolSet.difference
  | symmetricDifference => SymbolSet.symmetricDifference

mutual

def BracketSet.symbols (unicode : Bool) : BracketSet → Except SyntaxError SymbolSet
  | .letter l => do
    let c ← l.member unicode
    return [.singleton c]
  | .range low high => do
    let c ← low.member unicode
    let d ← high.member unicode
    return [⟨c, d⟩]
  | .named negated name => return negateIf unicode negated name.symbols
  | .shorthand negated name => shorthandSymbols unicode negated name
  | .bracketed negated set => do
    let inner ← set.symbols unicode
    requireAscii unicode (negateIf unicode negated inner)
  | .union items => BracketSet.unionSymbols unicode items
  | .op operator left right => do
    let l ← left.symbols unicode
    let r ← right.symbols unicode
    return operator.apply l r

def BracketSet.unionSymbols (unicode : Bool) : List BracketSet → Except SyntaxError SymbolSet
  | [] => return []
  | item :: items => do
    let first ← item.symbols unicode
    let others ← BracketSet.unionSymbols unicode items
    return SymbolSet.union first others

end

/-- The class of a set of symbols, which are bytes in byte mode. -/
def ofSet (unicode : Bool) (set : SymbolSet) : Pattern := if unicode then ofSymbols set else ofAscii set

/-- The symbols that a dot matches, which has no meaning in byte mode. -/
def dotSymbols (flags : Flags) : Except SyntaxError SymbolSet :=
  if !flags.unicode then .error .invalidUtf8
  else if flags.dotAll then .ok [Interval.full]
  else if flags.crlf then .ok (SymbolSet.complement [.singleton '\n', .singleton '\r'])
  else .ok (SymbolSet.complement [.singleton '\n'])

def Assertion.look (flags : Flags) : Assertion → Look
  | caret => if flags.multiLine then if flags.crlf then .startCRLF else .startLF else .start
  | dollar => if flags.multiLine then if flags.crlf then .endCRLF else .endLF else .finish
  | startText => .start
  | endText => .finish
  | wordBoundary => if flags.unicode then .wordUnicode else .wordAscii
  | noWordBoundary => if flags.unicode then .wordUnicodeNegate else .wordAsciiNegate
  | wordStart => if flags.unicode then .wordStartUnicode else .wordStartAscii
  | wordEnd => if flags.unicode then .wordEndUnicode else .wordEndAscii
  | wordStartHalf => if flags.unicode then .wordStartHalfUnicode else .wordStartHalfAscii
  | wordEndHalf => if flags.unicode then .wordEndHalfUnicode else .wordEndHalfAscii

mutual

/-- The pattern tree of a pattern under some flags, and the flags that hold behind it. -/
def Surface.meaning (flags : Flags) : Surface → Except SyntaxError (Pattern × Flags)
  | .empty => return (.empty, flags)
  | .setFlags on off => return (.empty, flags.change on off)
  | .letter l => do
    let c ← l.symbol flags.unicode
    return (ofChar c, flags)
  | .dot => do
    let set ← dotSymbols flags
    return (ofSymbols set, flags)
  | .assertion kind => return (.look (kind.look flags), flags)
  | .shorthand negated name => do
    let set ← shorthandSymbols flags.unicode negated name
    return (ofSet flags.unicode set, flags)
  | .bracketed negated set => do
    let inner ← set.symbols flags.unicode
    let set ← requireAscii flags.unicode (negateIf flags.unicode negated inner)
    return (ofSet flags.unicode set, flags)
  | .repetition min max greedy sub => do
    let (p, flags) ← sub.meaning flags
    return (repeating min max (greedy != flags.swapGreed) p, flags)
  | .group (.plain on off) sub => do
    let (p, _) ← sub.meaning (flags.change on off)
    return (p, flags)
  | .group (.capture index name) sub => do
    let (p, _) ← sub.meaning flags
    return (.capture index name p, flags)
  | .alternation branches => do
    let (ps, flags) ← Surface.meanings flags branches
    return (choice ps, flags)
  | .concat parts => do
    let (ps, flags) ← Surface.meanings flags parts
    return (sequence ps, flags)

/-- The pattern trees of some patterns in turn, each under the flags that hold behind the one before it. -/
def Surface.meanings (flags : Flags) : List Surface → Except SyntaxError (List Pattern × Flags)
  | [] => return ([], flags)
  | part :: parts => do
    let (p, flags) ← part.meaning flags
    let (ps, flags) ← Surface.meanings flags parts
    return (p :: ps, flags)

end

end RegexAlgebra.Pattern
