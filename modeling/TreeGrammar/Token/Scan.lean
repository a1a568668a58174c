import TreeGrammar.Text.Quoted
import TreeGrammar.Token.Cursor

/-! # Scans

    A scan reads tokens from a text, with blanks and comments between them
    left out, until no further token starts.

    Key idea:
    - `Scan.ofText` records the tokens and the place where they stop;
    - the place is the end of the text, or else it is a fault
      (`Scan.fault?`): a literal without an end or a stray character;
    - a lenient caller takes the tokens that there are, a strict one refuses
      a scan with a fault (`Scan.complete`).
-/

namespace TreeGrammar

/-- Why a text is not made of tokens. -/
inductive LexicalError where
  /-- A literal starts here and is not closed before the text ends. -/
  | unterminatedLiteral (span : Span)
  /-- No token starts with this character. -/
  | unexpectedCharacter (found : Char) (span : Span)
  deriving DecidableEq, Repr

namespace LexicalError

/-- Where the fault is. -/
def span : LexicalError → Span
  | .unterminatedLiteral span => span
  | .unexpectedCharacter _ span => span

/-- What the fault is. -/
def message : LexicalError → String
  | .unterminatedLiteral _ => "unterminated token literal"
  | .unexpectedCharacter found _ => "unexpected character " ++ quotedChar found

end LexicalError

/-- The tokens of a text as far as they go. -/
structure Scan where
  /-- The tokens in the order of the text. -/
  tokens : List Token
  /-- The place behind the last token, and behind the blanks and comments there, where no
      further token starts. -/
  stop : Cursor
  deriving DecidableEq, Repr

namespace Scan

/-- Reads tokens from a cursor on. Those found before are given in reverse. -/
def collect (found : List Token) (c : Cursor) : Scan :=
  let start := c.skipTrivia
  let step := start.next
  if step.1.kind.isValid then collect (step.1 :: found) step.2
  else ⟨found.reverse, start⟩
termination_by c.rest.length
decreasing_by
  rename_i h
  have hkind : c.skipTrivia.next.1.kind ≠ .endOfText := by
    intro heq
    rw [heq] at h
    simp [TokenKind.isValid] at h
  exact Nat.lt_of_lt_of_le (Cursor.length_rest_next_lt hkind) c.length_rest_skipTrivia_le

/-- The tokens from a cursor on. -/
def ofCursor (c : Cursor) : Scan :=
  collect [] c

/-- The tokens of a text. -/
def ofText (source : String) : Scan :=
  ofCursor (Cursor.ofText source)

/-- What is wrong at the place where the tokens stop, if it is not the end of the text. -/
def fault? (s : Scan) : Option LexicalError :=
  match s.stop.rest with
  | [] => none
  | c :: _ =>
    -- The stop is in front of an invalid lexeme, which tells how far the fault reaches.
    let span := s.stop.next.1.span
    if c = '\'' then some (.unterminatedLiteral span) else some (.unexpectedCharacter c span)

/-- The tokens of a text that is made of tokens to its end. -/
def complete (s : Scan) : Except LexicalError (List Token) :=
  match s.fault? with
  | none => .ok s.tokens
  | some e => .error e

/-- What was found before only stands in front. -/
theorem collect_eq (found : List Token) (c : Cursor) :
    collect found c = ⟨found.reverse ++ (ofCursor c).tokens, (ofCursor c).stop⟩ := by
  suffices h : ∀ later : List Token,
      collect (later ++ found) c =
        ⟨found.reverse ++ (collect later c).tokens, (collect later c).stop⟩ from h []
  intro later
  fun_induction collect later c with
  | case1 later c start step h ih =>
    rw [collect, if_pos h]
    exact ih
  | case2 later c start step h =>
    rw [collect, if_neg h]
    simp [start]

/-- Where a token starts, a scan is that token and the scan behind it. -/
theorem ofCursor_of_isValid {c : Cursor} (h : c.skipTrivia.next.1.kind.isValid = true) :
    ofCursor c =
      ⟨c.skipTrivia.next.1 :: (ofCursor c.skipTrivia.next.2).tokens,
        (ofCursor c.skipTrivia.next.2).stop⟩ := by
  rw [ofCursor, collect, if_pos h, collect_eq]
  rfl

/-- Where no token starts, a scan stops. -/
theorem ofCursor_of_not_isValid {c : Cursor} (h : c.skipTrivia.next.1.kind.isValid = false) :
    ofCursor c = ⟨[], c.skipTrivia⟩ := by
  rw [ofCursor, collect, if_neg (by simp [h])]
  rfl

end Scan

end TreeGrammar
