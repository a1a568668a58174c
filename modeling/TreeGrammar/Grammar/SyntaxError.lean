import TreeGrammar.Token.Basic

/-! # Syntax errors

    Why a list of tokens is no grammar. Each error names the cause, and all
    but a missing token know the place.
-/

namespace TreeGrammar

/-- What a reader was looking for. -/
inductive Expected where
  | token (kind : TokenKind)
  | rule
  deriving DecidableEq, Repr

/-- How messages speak of what was looked for. -/
def Expected.describe : Expected → String
  | .token kind => kind.describe
  | .rule => "rule"

/-- Why a list of tokens is no grammar. -/
inductive SyntaxError where
  /-- The tokens end where another one is needed. -/
  | unexpectedEnd (expected : Expected)
  /-- A token stands where another one is needed. -/
  | unexpectedToken (expected : Expected) (found : TokenKind) (span : Span)
  /-- A rule, or one of its parts, is empty. -/
  | emptyRule (node : String) (span : Span)
  /-- A node is defined a second time. -/
  | duplicateNode (name : String) (span : Span)
  /-- A node is used and never defined. -/
  | undefinedNode (name : String) (span : Span)
  /-- Too many parentheses and labels are open at once. -/
  | nestingTooDeep (span : Span)
  deriving DecidableEq, Repr

namespace SyntaxError

/-- Where the error is. The end of the tokens has no span. -/
def span? : SyntaxError → Option Span
  | .unexpectedEnd _ => none
  | .unexpectedToken _ _ span => some span
  | .emptyRule _ span => some span
  | .duplicateNode _ span => some span
  | .undefinedNode _ span => some span
  | .nestingTooDeep span => some span

/-- What the error is. -/
def message : SyntaxError → String
  | .unexpectedEnd expected => s!"unexpected end of input, expected {expected.describe}"
  | .unexpectedToken expected found _ =>
    s!"unexpected {found.describe}, expected {expected.describe}"
  | .emptyRule node _ => s!"empty rule for node `{node}`"
  | .duplicateNode name _ => s!"duplicate rule: `{name}`"
  | .undefinedNode name _ => s!"undefined node: `{name}`"
  | .nestingTooDeep _ => "rule nested too deeply"

end SyntaxError

end TreeGrammar
