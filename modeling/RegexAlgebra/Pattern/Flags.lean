/-!
# Flags of patterns

Flags change what the parts of a pattern mean, from where they are set to the end of the group. A pattern starts in
Unicode mode with all other flags off.
-/

namespace RegexAlgebra.Pattern

inductive Flag
  | multiLine
  | dotAll
  /-- Repetitions are lazy, and those marked as lazy are greedy. -/
  | swapGreed
  /-- Assertions, classes and the dot are about symbols; otherwise about ASCII and bytes. -/
  | unicode
  /-- A carriage return ends a line too. -/
  | crlf
deriving DecidableEq

def Flag.ofLetter? : Char → Option Flag
  | 'm' => some .multiLine
  | 's' => some .dotAll
  | 'U' => some .swapGreed
  | 'u' => some .unicode
  | 'R' => some .crlf
  | _ => none

structure Flags where
  multiLine : Bool := false
  dotAll : Bool := false
  swapGreed : Bool := false
  unicode : Bool := true
  crlf : Bool := false
deriving DecidableEq

namespace Flags

def set (flags : Flags) (value : Bool) : Flag → Flags
  | .multiLine => { flags with multiLine := value }
  | .dotAll => { flags with dotAll := value }
  | .swapGreed => { flags with swapGreed := value }
  | .unicode => { flags with unicode := value }
  | .crlf => { flags with crlf := value }

/-- Turns the flags of one list on and those of another one off. -/
def change (flags : Flags) (on off : List Flag) : Flags :=
  off.foldl (fun flags flag => flags.set false flag) (on.foldl (fun flags flag => flags.set true flag) flags)

end Flags

end RegexAlgebra.Pattern
