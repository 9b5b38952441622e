import RegexAlgebra.Interval
import RegexAlgebra.Symbol.Extender
import RegexAlgebra.Symbol.Unprintable

/-!
# Quoted symbols

The text that shows a symbol to a reader. A symbol that a reader would not see as such is escaped: the quote and the
backslash by a backslash, five controls by a letter or digit, and any other that is not printed or joins the character
before it by its code point.
-/

namespace RegexAlgebra

namespace Symbol

/-- A number in lower-case hexadecimal digits, without leading zeros. -/
def hex (n : Nat) : String := String.ofList (Nat.toDigits 16 n)

/-- The letters and digits of the escapes that have one. -/
def shortEscape? (c : Char) : Option Char :=
  match c with
  | '\x00' => some '0'
  | '\t' => some 't'
  | '\r' => some 'r'
  | '\n' => some 'n'
  | '\'' => some '\''
  | '\\' => some '\\'
  | _ => none

def escaped (c : Char) : String :=
  match shortEscape? c with
  | some letter => String.ofList ['\\', letter]
  | none =>
    if isExtender c || isUnprintable c then "\\u\x7b" ++ hex c.toNat ++ "\x7d"
    else String.singleton c

def quoted (c : Char) : String := "'" ++ escaped c ++ "'"

end Symbol

/-- An interval shows its bounds, or its symbol if it has one alone. -/
def Interval.text (i : Interval) : String :=
  if i.low = i.high then Symbol.quoted i.low else Symbol.quoted i.low ++ "-" ++ Symbol.quoted i.high

end RegexAlgebra
