/-! # Ranges of code points

    Properties of characters are given as tables of code point ranges.

    Key idea:
    - a `CodeRange` holds its two ends, both included;
    - a table is a list of ranges, and a character has the property when
      one of them holds its code point (`CodeRange.covers_iff`).
-/

namespace TreeGrammar

/-- The code points from `first` to `last`, both included. -/
structure CodeRange where
  /-- The smallest code point of the range. -/
  first : Nat
  /-- The largest code point of the range. -/
  last : Nat
  deriving DecidableEq, Repr

namespace CodeRange

/-- Whether the code point of `c` lies in the range. -/
def holds (r : CodeRange) (c : Char) : Bool :=
  r.first ≤ c.toNat && c.toNat ≤ r.last

/-- Whether some range of the table holds `c`. -/
def covers (table : List CodeRange) (c : Char) : Bool :=
  table.any (·.holds c)

theorem covers_iff {table : List CodeRange} {c : Char} :
    covers table c = true ↔ ∃ r ∈ table, r.first ≤ c.toNat ∧ c.toNat ≤ r.last := by
  simp [covers, holds]

end CodeRange

end TreeGrammar
