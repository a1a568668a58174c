import TreeGrammar.Grammar.Reader
import TreeGrammar.Token.Scan

/-! # Loading grammars from text

    A text is cut into tokens and these are read as a grammar. A strict load
    refuses a text that is not made of tokens to its end; a lenient one goes
    on with the tokens before the fault.
-/

namespace TreeGrammar

/-- What to do about a text that is not made of tokens to its end. -/
inductive Strictness where
  | lenient
  | strict
  deriving DecidableEq, Repr

/-- Why a text is no grammar. -/
inductive LoadError where
  | lexical (error : LexicalError)
  | structural (error : SyntaxError)
  deriving DecidableEq, Repr

namespace LoadError

/-- Where the error is, if it has a place. -/
def span? : LoadError → Option Span
  | .lexical error => some error.span
  | .structural error => error.span?

/-- What the error is. -/
def message : LoadError → String
  | .lexical error => error.message
  | .structural error => error.message

end LoadError

/-- The tokens of a text. Only a strict scan can fail. -/
def tokensOf (strictness : Strictness) (source : String) : Except LexicalError (List Token) :=
  match strictness with
  | .lenient => .ok (Scan.ofText source).tokens
  | .strict => (Scan.ofText source).complete

namespace Grammar

/-- Loads a grammar from a text and tells what happened on the way. Only a lenient load tells
    of the tokens. -/
def loadLogged (strictness : Strictness) (source : String) :
    Except LoadError Grammar × List Event :=
  match tokensOf strictness source with
  | .error e => (.error (.lexical e), [])
  | .ok tokens =>
    let (result, events) := readTokens tokens
    let scanned := if strictness = .lenient then [Event.scanned tokens.length] else []
    (result.mapError .structural, scanned ++ events)

/-- Loads a grammar from a text. -/
def load (strictness : Strictness) (source : String) : Except LoadError Grammar :=
  (loadLogged strictness source).1

/-- The grammar that a text describes. -/
def ofText (source : String) : Except LoadError Grammar :=
  load .strict source

end Grammar

end TreeGrammar
