import RegexAlgebra.Pattern.Expression
import RegexAlgebra.Pattern.Meaning
import RegexAlgebra.Pattern.Reader

/-!
# Patterns as text

The pattern tree of a text, and the expression of the inputs that a text matches, for any way to parse texts.
-/

namespace RegexAlgebra.Pattern

def ofText? (text : String) : Except SyntaxError Pattern := do
  let surface ← Reader.read text.toList
  let (pattern, _) ← surface.meaning {}
  return pattern

/-- The expression without anchors that matches the inputs in which a pattern, parsed from a text, matches a piece. -/
def searchBy (parse : String → Except SyntaxError Pattern) (text : String) : Session Expr :=
  match parse text with
  | .ok pattern => pattern.searchExpr
  | .error cause => throw (.malformed cause)

def searchText (text : String) : Session Expr := searchBy ofText? text

end RegexAlgebra.Pattern
