/-! # JSON values

    The part of JSON that the export of a grammar uses: strings, arrays and
    objects, with the members of an object in a fixed order.
-/

namespace TreeGrammar

/-- A JSON value. -/
inductive Json where
  | string (value : String)
  | array (items : List Json)
  | object (members : List (String × Json))
  deriving Repr

namespace Json

instance : Inhabited Json := ⟨.array []⟩

/-- An object with a single member. -/
def tagged (tag : String) (value : Json) : Json :=
  .object [(tag, value)]

end Json

end TreeGrammar
