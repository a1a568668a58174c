import TreeGrammar.Json.Basic

/-! # Pretty JSON

    JSON values as text for readers: every item and member on a line of its
    own, indented by two spaces for each array or object around it.
-/

namespace TreeGrammar

namespace Json

/-- Four hexadecimal digits for a code below 256, in lower case. -/
def hexByte (n : Nat) : String :=
  "00" ++ String.ofList [Nat.digitChar (n / 16), Nat.digitChar (n % 16)]

/-- A character inside a string. Quotes, backslashes and controls are escaped. -/
def escape (c : Char) : String :=
  if c = '"' then "\\\""
  else if c = '\\' then "\\\\"
  else if c = '\n' then "\\n"
  else if c = '\r' then "\\r"
  else if c = '\t' then "\\t"
  else if c.toNat = 8 then "\\b"
  else if c.toNat = 12 then "\\f"
  else if c.toNat < 32 then "\\u" ++ hexByte c.toNat
  else c.toString

/-- A string in quotes. -/
def quote (text : String) : String :=
  "\"" ++ String.join (text.toList.map escape) ++ "\""

/-- The space in front of a line. -/
def margin (depth : Nat) : String :=
  "".pushn ' ' (2 * depth)

/-- Lines inside brackets, which stand `depth` deep. Nothing needs no lines. -/
def bracketed (opening closing : String) (depth : Nat) (lines : List String) : String :=
  if lines.isEmpty then opening ++ closing
  else
    opening ++ "\n" ++ ",\n".intercalate (lines.map (margin (depth + 1) ++ ·)) ++ "\n" ++
      margin depth ++ closing

mutual

/-- The text of a value that stands `depth` deep. -/
def prettyAt (depth : Nat) : Json → String
  | .string value => quote value
  | .array items => bracketed "[" "]" depth (prettyItems (depth + 1) items)
  | .object members => bracketed "\x7b" "\x7d" depth (prettyMembers (depth + 1) members)

/-- The texts of the items of an array. -/
def prettyItems (depth : Nat) : List Json → List String
  | [] => []
  | item :: items => prettyAt depth item :: prettyItems depth items

/-- The texts of the members of an object. -/
def prettyMembers (depth : Nat) : List (String × Json) → List String
  | [] => []
  | (key, value) :: members =>
    (quote key ++ ": " ++ prettyAt depth value) :: prettyMembers depth members

end

/-- The text of a value. -/
def pretty (value : Json) : String :=
  prettyAt 0 value

@[simp] theorem prettyItems_eq_map (depth : Nat) (items : List Json) :
    prettyItems depth items = items.map (prettyAt depth) := by
  induction items with
  | nil => rfl
  | cons item items ih => simp [prettyItems, ih]

@[simp] theorem prettyMembers_eq_map (depth : Nat) (members : List (String × Json)) :
    prettyMembers depth members =
      members.map fun (key, value) => quote key ++ ": " ++ prettyAt depth value := by
  induction members with
  | nil => rfl
  | cons member members ih => simp [prettyMembers, ih]

end Json

end TreeGrammar
