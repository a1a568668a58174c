import TreeGrammar.Text.CodeRange

/-! # White space

    The characters with the Unicode property White_Space. They separate
    tokens and are otherwise ignored.
-/

namespace TreeGrammar

/-- The code points with the property White_Space. -/
def whiteSpaceTable : List CodeRange :=
  [⟨0x9, 0xD⟩, ⟨0x20, 0x20⟩, ⟨0x85, 0x85⟩, ⟨0xA0, 0xA0⟩, ⟨0x1680, 0x1680⟩,
   ⟨0x2000, 0x200A⟩, ⟨0x2028, 0x2029⟩, ⟨0x202F, 0x202F⟩, ⟨0x205F, 0x205F⟩,
   ⟨0x3000, 0x3000⟩]

/-- Whether `c` is white space. -/
def isWhiteSpace (c : Char) : Bool :=
  CodeRange.covers whiteSpaceTable c

/-- A line feed is white space, so a comment's end is skipped with the blanks after it. -/
@[simp] theorem isWhiteSpace_newline : isWhiteSpace '\n' = true := by decide

end TreeGrammar
