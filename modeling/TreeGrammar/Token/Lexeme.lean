import TreeGrammar.Token.Basic
import TreeGrammar.Token.Literal

/-! # Lexemes

    A lexeme is the piece of text at the start of a text that makes one
    token.

    Key idea:
    - a mark is one character, a name is as long as it can be, a literal ends
      with its closing apostrophe;
    - where no token starts, the lexeme is one character, except that a
      literal which is never closed takes all the text;
    - only the end of the text has an empty lexeme (`Lexeme.text_eq_nil_iff`),
      so reading lexeme after lexeme comes to an end.
-/

namespace TreeGrammar

/-- Whether names may hold `c`: the ASCII letters and the underscore. -/
def isNameChar (c : Char) : Bool :=
  c.isAlpha || c = '_'

/-- A piece of text and the token that it makes. -/
structure Lexeme where
  /-- What the token is. -/
  kind : TokenKind
  /-- The characters of the text. -/
  text : List Char
  /-- What the token spells. -/
  value : Option String
  deriving DecidableEq, Repr

namespace Lexeme

/-- A mark, or the end of the text. -/
def mark (kind : TokenKind) (text : List Char) : Lexeme :=
  ⟨kind, text, none⟩

/-- A name. -/
def name (text : List Char) : Lexeme :=
  ⟨.name, text, some (String.ofList text)⟩

/-- A literal, given by what stands behind its opening apostrophe. -/
def literal (cs : List Char) : Lexeme :=
  match Literal.inside? cs with
  | some i => ⟨.literal, '\'' :: i.text, some (String.ofList i.value)⟩
  | none => mark .invalid ('\'' :: cs)

/-- The lexeme that a text starts with. -/
def first : List Char → Lexeme
  | [] => mark .endOfText []
  | c :: cs =>
    match TokenKind.ofMark? c with
    | some kind => mark kind [c]
    | none =>
      if c = '\'' then literal cs
      else if isNameChar c then name (c :: cs.takeWhile isNameChar)
      else mark .invalid [c]

theorem literal_text_ne_nil (cs : List Char) : (literal cs).text ≠ [] := by
  unfold literal
  split <;> simp [mark]

/-- Only the end of the text has an empty lexeme. -/
theorem text_eq_nil_iff {cs : List Char} : (first cs).text = [] ↔ cs = [] := by
  match cs with
  | [] => simp [first, mark]
  | c :: cs =>
    simp only [first, reduceCtorEq, iff_false]
    split
    · simp [mark]
    · split
      · exact literal_text_ne_nil cs
      · split <;> simp [name, mark]

/-- A text starts with its first lexeme. -/
theorem exists_append (cs : List Char) : ∃ rest, cs = (first cs).text ++ rest := by
  match cs with
  | [] => exact ⟨[], by simp [first, mark]⟩
  | c :: cs =>
    simp only [first]
    split
    · exact ⟨cs, rfl⟩
    · split
      case isTrue h =>
        subst h
        unfold literal
        split
        case h_1 i hi =>
          obtain ⟨rest, rfl⟩ := Literal.exists_append_of_inside? hi
          exact ⟨rest, rfl⟩
        case h_2 => exact ⟨[], by simp [mark]⟩
      · split
        · exact ⟨cs.dropWhile isNameChar, by simp [name]⟩
        · exact ⟨cs, rfl⟩

/-- The end of the text is met at the end of the text only. -/
theorem kind_eq_endOfText_iff {cs : List Char} : (first cs).kind = .endOfText ↔ cs = [] := by
  match cs with
  | [] => simp [first, mark]
  | c :: cs =>
    simp only [first, reduceCtorEq, iff_false]
    split
    case h_1 kind h =>
      unfold TokenKind.ofMark? at h
      split at h <;> simp_all [mark] <;> subst h <;> simp
    · split
      · unfold literal
        split <;> simp [mark]
      · split <;> simp [name, mark]

end Lexeme

end TreeGrammar
