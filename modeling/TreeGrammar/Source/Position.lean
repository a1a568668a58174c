import TreeGrammar.Text.Bytes

/-! # Lines and columns

    Readers find a place in a text by line and column, while the library
    works with byte offsets.

    Key idea:
    - a line ends behind `\r\n`, behind a lone `\r` and behind a lone `\n`;
    - the table of a text records where each line starts and whether it is
      plain ASCII (`LineTable.ofText`);
    - on an ASCII line the column is a difference of offsets, on any other
      line it is a number of characters (`LineTable.position`).

    A table may be asked about another text than its own: the lines are then
    those of the table, and the clamp and the characters those of the text.
-/

namespace TreeGrammar

/-- A place in a text. Both numbers count from zero. -/
structure Position where
  /-- The number of lines that end before the place. -/
  line : Nat
  /-- The number of characters of the line before the place. -/
  column : Nat
  deriving DecidableEq, Repr

namespace Position

/-- Positions are ordered by line, then by column. -/
instance : Ord Position where
  compare p q := (compare p.line q.line).then (compare p.column q.column)

instance : LT Position := ltOfOrd

instance : LE Position := leOfOrd

/-- The positions in ascending order. -/
def sort (positions : List Position) : List Position :=
  positions.mergeSort fun p q => (compare p q).isLE

theorem compare_eq (p q : Position) :
    compare p q = (compare p.line q.line).then (compare p.column q.column) := rfl

theorem lt_iff {p q : Position} :
    p < q ↔ p.line < q.line ∨ p.line = q.line ∧ p.column < q.column := by
  show compare p q = .lt ↔ _
  rw [compare_eq, Ordering.then_eq_lt, Nat.compare_eq_lt, Nat.compare_eq_eq, Nat.compare_eq_lt]

theorem compare_eq_gt {p q : Position} : compare p q = .gt ↔ q < p := by
  rw [compare_eq, Ordering.then_eq_gt, Nat.compare_eq_gt, Nat.compare_eq_eq, Nat.compare_eq_gt,
    lt_iff]
  omega

theorem compare_eq_eq {p q : Position} : compare p q = .eq ↔ p = q := by
  rcases p with ⟨line, column⟩
  rcases q with ⟨line', column'⟩
  rw [compare_eq, Ordering.then_eq_eq, Nat.compare_eq_eq, Nat.compare_eq_eq, mk.injEq]

end Position

/-- One line of a text. -/
structure Line where
  /-- The offset of the first byte of the line. -/
  start : Nat
  /-- Whether the line holds ASCII characters only. -/
  ascii : Bool
  deriving DecidableEq, Repr

namespace Line

/-- The lines of a text from a place inside a line on: that line starts at `start` and is
    ASCII so far if `ascii` says so, and the place is at `offset`. -/
def tableFrom (start offset : Nat) (ascii : Bool) : List Char → List Line
  | [] => [⟨start, ascii⟩]
  -- The two characters are one line break, so this case goes before those of each alone.
  | '\r' :: '\n' :: cs => ⟨start, ascii⟩ :: tableFrom (offset + 2) (offset + 2) true cs
  | c :: cs =>
    if c = '\r' ∨ c = '\n' then
      ⟨start, ascii⟩ :: tableFrom (offset + 1) (offset + 1) true cs
    else
      tableFrom start (offset + c.utf8Size) (ascii && c.toNat < 128) cs

/-- The column of an offset that lies on a line of a text. An offset that no character of the
    text starts at has column zero, unless the line is ASCII. -/
def column (line : Line) (text : List Char) (offset : Nat) : Nat :=
  if line.ascii then offset - line.start
  else ((slice? line.start offset text).map List.length).getD 0

end Line

/-- Where the lines of a text start. -/
structure LineTable where
  /-- The lines in ascending order of their start. -/
  lines : List Line
  deriving DecidableEq, Repr

namespace LineTable

/-- The table of a text. Its first line starts at zero, whatever the text. -/
def ofText (text : String) : LineTable :=
  ⟨Line.tableFrom 0 0 true text.toList⟩

/-- The lines that start at or before an offset. -/
def linesUpTo (table : LineTable) (offset : Nat) : List Line :=
  table.lines.takeWhile (·.start ≤ offset)

/-- The position of an offset in a text. An offset behind the text counts as its end. -/
def position (table : LineTable) (text : String) (offset : Nat) : Position :=
  let chars := text.toList
  let offset := min offset (byteLength chars)
  -- The first line starts at zero, so there is always a line to count from.
  let lines := table.linesUpTo offset
  ⟨lines.length - 1, (lines.getLastD ⟨0, true⟩).column chars offset⟩

end LineTable

/-- The position of an offset of a text in that text. -/
def positionIn (text : String) (offset : Nat) : Position :=
  (LineTable.ofText text).position text offset

end TreeGrammar
