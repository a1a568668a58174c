import TreeGrammar.Text.WhiteSpace
import TreeGrammar.Token.Lexeme

/-! # Cursors

    A cursor is a place in a text that tokens are read from, one at a time.

    Key idea:
    - a cursor holds its offset and the text behind it;
    - `Cursor.skipTrivia` passes blanks and comments, `Cursor.next` reads one
      token, and the two may be mixed in any order;
    - a comment starts with `//` and lasts to the end of its line.
-/

namespace TreeGrammar

/-- A place in a text. -/
structure Cursor where
  /-- The number of bytes before the place. -/
  offset : Nat
  /-- The text behind the place. -/
  rest : List Char
  deriving DecidableEq, Repr

namespace Cursor

/-- The start of a text. -/
def ofText (source : String) : Cursor :=
  ⟨0, source.toList⟩

/-- The place behind a piece of text that the rest starts with. -/
def past (c : Cursor) (text : List Char) : Cursor :=
  ⟨c.offset + byteLength text, c.rest.drop text.length⟩

/-- The place behind the blanks and comments at an offset of a text; `comment` says whether
    the place is inside a comment. -/
def triviaEnd (comment : Bool) (offset : Nat) : List Char → Cursor
  | [] => ⟨offset, []⟩
  | c :: cs =>
    -- The line feed that ends a comment is passed with it, since it is a blank as well.
    if comment then triviaEnd (c ≠ '\n') (offset + c.utf8Size) cs
    else if isWhiteSpace c then triviaEnd false (offset + c.utf8Size) cs
    -- The second slash is passed as the first character of the comment.
    else if c = '/' ∧ cs.head? = some '/' then triviaEnd true (offset + c.utf8Size) cs
    else ⟨offset, c :: cs⟩

/-- The place behind the blanks and comments at a cursor. -/
def skipTrivia (c : Cursor) : Cursor :=
  triviaEnd false c.offset c.rest

/-- The token at a cursor and the place behind it. Blanks are not skipped first. -/
def next (c : Cursor) : Token × Cursor :=
  let lexeme := Lexeme.first c.rest
  (⟨lexeme.kind, Span.ofLength c.offset (byteLength lexeme.text), lexeme.value⟩,
    c.past lexeme.text)

/-- The span from an offset up to a cursor, if the offset is not behind it. -/
def spanSince? (c : Cursor) (start : Nat) : Option Span :=
  Span.ofBounds? start c.offset

/-- Skipping blanks and comments leaves an end of the text it started from, and moves the
    offset by what it left out. -/
theorem triviaEnd_eq (comment : Bool) (offset : Nat) (cs : List Char) :
    ∃ skipped, cs = skipped ++ (triviaEnd comment offset cs).rest ∧
      (triviaEnd comment offset cs).offset = offset + byteLength skipped := by
  fun_induction triviaEnd comment offset cs with
  | case1 => exact ⟨[], by simp⟩
  | case2 _ c cs ih =>
    obtain ⟨skipped, hcs, hoff⟩ := ih
    exact ⟨c :: skipped, by rw [List.cons_append, ← hcs], by rw [hoff]; simp; omega⟩
  | case3 _ _ c cs _ _ ih =>
    obtain ⟨skipped, hcs, hoff⟩ := ih
    exact ⟨c :: skipped, by rw [List.cons_append, ← hcs], by rw [hoff]; simp; omega⟩
  | case4 _ _ c cs _ _ _ ih =>
    obtain ⟨skipped, hcs, hoff⟩ := ih
    exact ⟨c :: skipped, by rw [List.cons_append, ← hcs], by rw [hoff]; simp; omega⟩
  | case5 => exact ⟨[], by simp⟩

theorem length_rest_skipTrivia_le (c : Cursor) : c.skipTrivia.rest.length ≤ c.rest.length := by
  obtain ⟨skipped, hcs, -⟩ := triviaEnd_eq false c.offset c.rest
  have := congrArg List.length hcs
  simp only [List.length_append] at this
  unfold skipTrivia
  omega

/-- A token that is not the end of the text takes at least one character. -/
theorem length_rest_next_lt {c : Cursor} (h : c.next.1.kind ≠ .endOfText) :
    c.next.2.rest.length < c.rest.length := by
  have hne : c.rest ≠ [] := fun hnil => h (Lexeme.kind_eq_endOfText_iff.2 hnil)
  have htext : (Lexeme.first c.rest).text ≠ [] := fun hnil => hne (Lexeme.text_eq_nil_iff.1 hnil)
  have hpos := List.length_pos_iff.2 hne
  have hpos' := List.length_pos_iff.2 htext
  simp only [next, past, List.length_drop]
  omega

end Cursor

end TreeGrammar
