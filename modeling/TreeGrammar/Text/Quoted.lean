import TreeGrammar.Text.GraphemeExtend
import TreeGrammar.Text.Invisible
import TreeGrammar.Text.Unassigned

/-! # Quoted text in messages

    Messages show characters and names between quotation marks, in a form
    that cannot be mistaken when printed.

    Key idea:
    - four control characters, the backslash and the mark itself get a
      backslash escape of their own;
    - every other character that a reader could not see or that would merge
      with its neighbour is shown by its code point (`isObscure`);
    - all else stands for itself.
-/

namespace TreeGrammar

/-- Whether `c` would not be recognised in print: it is drawn onto its neighbour, shows nothing
    or has no meaning. -/
def isObscure (c : Char) : Bool :=
  isCombining c || isInvisible c || isUnassigned c

/-- The code point of `c` in lower case hexadecimal, without leading zeros. -/
def hexCode (c : Char) : String :=
  String.ofList (Nat.toDigits 16 c.toNat)

/-- How a character is written between two marks `mark`. -/
def escapeBetween (mark c : Char) : String :=
  if c = Char.ofNat 0 then "\\0"
  else if c = '\t' then "\\t"
  else if c = '\r' then "\\r"
  else if c = '\n' then "\\n"
  else if c = '\\' then "\\\\"
  else if c = mark then "\\" ++ mark.toString
  else if isObscure c then "\\u\x7b" ++ hexCode c ++ "\x7d"
  else c.toString

/-- A character between apostrophes. -/
def quotedChar (c : Char) : String :=
  "'" ++ escapeBetween '\'' c ++ "'"

/-- A text between double quotation marks. -/
def quotedText (text : String) : String :=
  "\"" ++ String.join (text.toList.map (escapeBetween '"')) ++ "\""

end TreeGrammar
