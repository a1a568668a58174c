import TreeGrammar.Source.Span

/-! # Tokens

    The units that a grammar text is made of: names, quoted literals and
    seven marks. Two more kinds stand for the end of the text and for a place
    where no token starts; they never reach the reader of a grammar.
-/

namespace TreeGrammar

/-- What a token is. -/
inductive TokenKind where
  | name
  | literal
  | equals
  | star
  | bar
  | question
  | colon
  | openParen
  | closeParen
  | endOfText
  | invalid
  deriving DecidableEq, Repr, Inhabited

namespace TokenKind

/-- Whether a token of this kind is part of a grammar. -/
def isValid : TokenKind → Bool
  | .endOfText | .invalid => false
  | _ => true

/-- How messages speak of a token of this kind. -/
def describe : TokenKind → String
  | .name => "identifier"
  | .literal => "token literal"
  | .equals => "`=`"
  | .star => "`*`"
  | .bar => "`|`"
  | .question => "`?`"
  | .colon => "`:`"
  | .openParen => "`(`"
  | .closeParen => "`)`"
  | .endOfText => "end of input"
  | .invalid => "invalid token"

/-- The one-word form of the kind in lists of tokens. -/
def tag : TokenKind → String
  | .name => "Ident"
  | .literal => "Literal"
  | .equals => "Eq"
  | .star => "Star"
  | .bar => "Pipe"
  | .question => "Question"
  | .colon => "Colon"
  | .openParen => "LParen"
  | .closeParen => "RParen"
  | .endOfText => "Eof"
  | .invalid => "Invalid"

/-- All kinds. -/
def all : List TokenKind :=
  [.name, .literal, .equals, .star, .bar, .question, .colon, .openParen, .closeParen,
   .endOfText, .invalid]

/-- The kind with a given one-word form. -/
def ofTag? (tag : String) : Option TokenKind :=
  all.find? (·.tag = tag)

@[simp] theorem ofTag?_tag (kind : TokenKind) : ofTag? kind.tag = some kind := by
  cases kind <;> decide

/-- The marks are the kinds that one character spells. -/
def ofMark? (c : Char) : Option TokenKind :=
  match c with
  | '=' => some .equals
  | '*' => some .star
  | '|' => some .bar
  | '?' => some .question
  | ':' => some .colon
  | '(' => some .openParen
  | ')' => some .closeParen
  | _ => none

end TokenKind

/-- A token of a text. -/
structure Token where
  /-- What the token is. -/
  kind : TokenKind
  /-- Where it stands. -/
  span : Span
  /-- The name it spells, or what stands between its quotes. -/
  value : Option String
  deriving DecidableEq, Repr, Inhabited

namespace Token

/-- What a token spells, empty if it spells nothing. -/
def text (t : Token) : String :=
  t.value.getD ""

/-- A text with blanks behind it up to the width of a column. -/
def padded (width : Nat) (text : String) : String :=
  text ++ String.ofList (List.replicate (width - text.length) ' ')

/-- The line that shows a token of a source in a list of tokens: kind, span and source text,
    the first two padded to columns. -/
def listing (source : String) (t : Token) : String :=
  padded 10 t.kind.tag ++ " " ++ padded 8 t.span.render ++ " " ++ (t.span.text? source).getD ""

end Token

end TreeGrammar
