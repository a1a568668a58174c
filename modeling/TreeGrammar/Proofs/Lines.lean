import Mathlib.Data.List.Pairwise
import TreeGrammar.Source.Position
import TreeGrammar.Proofs.Boundaries

/-! # Places of a text

    Every boundary between characters has a position of its own, and
    positions are in the order of the text.

    Key idea:
    - `Spot.list` walks through a text and notes line and column at every
      boundary, without any table;
    - its entries ascend in offset and in position at once
      (`Spot.list_ascends`), and every boundary has one (`Boundary.exists_spot`);
    - a line table gives each offset the position that was noted
      (`positionIn_of_mem`): the lines before are complete, and the present
      one is looked at from its start.
-/

namespace TreeGrammar

/-- A boundary of a text with its position. -/
structure Spot where
  /-- The number of bytes before the boundary. -/
  offset : Nat
  /-- Its line and column. -/
  position : Position
  deriving DecidableEq, Repr

namespace Spot

/-- The places of a text from a place inside a text on. Between the two characters of one line
    break there is a place as well. -/
def list (line column offset : Nat) : List Char → List Spot
  | [] => [⟨offset, ⟨line, column⟩⟩]
  | '\r' :: '\n' :: cs =>
    ⟨offset, ⟨line, column⟩⟩ :: ⟨offset + 1, ⟨line, column + 1⟩⟩ ::
      list (line + 1) 0 (offset + 2) cs
  | c :: cs =>
    if c = '\r' ∨ c = '\n' then
      ⟨offset, ⟨line, column⟩⟩ :: list (line + 1) 0 (offset + 1) cs
    else
      ⟨offset, ⟨line, column⟩⟩ :: list line (column + 1) (offset + c.utf8Size) cs

/-- Earlier in the text, by both measures. -/
def Before (p q : Spot) : Prop :=
  p.offset < q.offset ∧ p.position < q.position

/-- Not before an offset, nor before a line and column. -/
def From (line column offset : Nat) (p : Spot) : Prop :=
  offset ≤ p.offset ∧
    (line < p.position.line ∨ line = p.position.line ∧ column ≤ p.position.column)

theorem From.before {line column offset : Nat} {p : Spot} (h : p.From line column offset)
    {q : Spot} (hoffset : q.offset < offset)
    (hposition : q.position.line < line ∨ q.position.line = line ∧ q.position.column < column) :
    q.Before p := by
  obtain ⟨hle, hline⟩ := h
  refine ⟨by omega, Position.lt_iff.2 ?_⟩
  omega

/-- All places from a place on are not before it. -/
theorem from_of_mem {line column offset : Nat} {cs : List Char} :
    ∀ p ∈ list line column offset cs, p.From line column offset := by
  fun_induction list line column offset cs with
  | case1 => simp [From]
  | case2 line column offset cs ih =>
    simp only [List.forall_mem_cons]
    refine ⟨by simp [From], by simp [From], fun p hp => ?_⟩
    obtain ⟨hoffset, hposition⟩ := ih p hp
    exact ⟨by omega, by omega⟩
  | case3 line column offset c cs hcr hbreak ih =>
    refine List.forall_mem_cons.2 ⟨by simp [From], fun p hp => ?_⟩
    obtain ⟨hoffset, hposition⟩ := ih p hp
    exact ⟨by omega, by omega⟩
  | case4 line column offset c cs hcr hbreak ih =>
    refine List.forall_mem_cons.2 ⟨by simp [From], fun p hp => ?_⟩
    obtain ⟨hoffset, hposition⟩ := ih p hp
    exact ⟨by omega, by omega⟩

/-- Places ascend. -/
theorem list_ascends (line column offset : Nat) (cs : List Char) :
    (list line column offset cs).Pairwise Before := by
  fun_induction list line column offset cs with
  | case1 => exact List.pairwise_singleton _ _
  | case2 line column offset cs ih =>
    simp only [List.pairwise_cons, List.forall_mem_cons]
    refine ⟨⟨⟨by simp, Position.lt_iff.2 (by simp)⟩, fun p hp => ?_⟩, fun p hp => ?_, ih⟩
    all_goals exact (from_of_mem p hp).before (by simp) (by simp)
  | case3 line column offset c cs hcr hbreak ih =>
    refine List.pairwise_cons.2 ⟨fun p hp => ?_, ih⟩
    exact (from_of_mem p hp).before (by simp) (by simp)
  | case4 line column offset c cs hcr hbreak ih =>
    refine List.pairwise_cons.2 ⟨fun p hp => ?_, ih⟩
    exact (from_of_mem p hp).before (by simp [c.utf8Size_pos]) (by simp)

theorem utf8Size_break {c : Char} (h : c = '\r' ∨ c = '\n') : c.utf8Size = 1 := by
  rcases h with rfl | rfl <;> decide

/-- The two are the same, or one of them is before the other. -/
def Ordered (p q : Spot) : Prop :=
  p = q ∨ p.Before q ∨ q.Before p

instance : Std.Symm Ordered where
  symm p q h := by
    rcases h with rfl | h | h
    · exact .inl rfl
    · exact .inr (.inr h)
    · exact .inr (.inl h)

/-- Any two places of a text are in some order. -/
theorem ordered_of_mem {line column offset : Nat} {cs : List Char} {p q : Spot}
    (hp : p ∈ list line column offset cs) (hq : q ∈ list line column offset cs) :
    p.Ordered q := by
  have hascends : (list line column offset cs).Pairwise Ordered :=
    (list_ascends line column offset cs).imp fun h => .inr (.inl h)
  exact hascends.forall_of_forall (fun p _ => .inl rfl) hp hq

/-- There is a place wherever the text may be cut. -/
theorem exists_mem_list (line column offset : Nat) {cs : List Char} {front rest : List Char}
    (hcs : cs = front ++ rest) :
    ∃ p ∈ list line column offset cs, p.offset = offset + byteLength front := by
  fun_induction list line column offset cs generalizing front with
  | case1 line column offset =>
    obtain rfl := (List.append_eq_nil_iff.1 hcs.symm).1
    exact ⟨_, List.mem_singleton_self _, rfl⟩
  | case2 line column offset cs ih =>
    -- The text may be cut before the line break, inside it or behind it.
    match front with
    | [] => exact ⟨_, List.mem_cons_self, rfl⟩
    | [c] =>
      obtain ⟨rfl, -⟩ := List.cons.inj hcs
      exact ⟨_, List.mem_cons_of_mem _ List.mem_cons_self, rfl⟩
    | c :: c' :: front =>
      simp only [List.cons_append, List.cons.injEq] at hcs
      obtain ⟨rfl, rfl, htail⟩ := hcs
      obtain ⟨p, hp, hoffset⟩ := ih htail
      refine ⟨p, List.mem_cons_of_mem _ (List.mem_cons_of_mem _ hp), ?_⟩
      simp only [byteLength_cons, utf8Size_break (.inl rfl), utf8Size_break (.inr rfl)]
      omega
  | case3 line column offset c cs hcr hbreak ih =>
    match front with
    | [] => exact ⟨_, List.mem_cons_self, rfl⟩
    | c :: front =>
      obtain ⟨rfl, htail⟩ := List.cons.inj hcs
      obtain ⟨p, hp, hoffset⟩ := ih htail
      refine ⟨p, List.mem_cons_of_mem _ hp, ?_⟩
      rw [byteLength_cons, utf8Size_break hbreak]
      omega
  | case4 line column offset c cs hcr hbreak ih =>
    match front with
    | [] => exact ⟨_, List.mem_cons_self, rfl⟩
    | c :: front =>
      obtain ⟨rfl, htail⟩ := List.cons.inj hcs
      obtain ⟨p, hp, hoffset⟩ := ih htail
      refine ⟨p, List.mem_cons_of_mem _ hp, ?_⟩
      rw [byteLength_cons]
      omega

end Spot

/-! ### Line tables -/

/-- A place that is `column` characters behind the start of its line, which are ASCII if `ascii`
    says so, and the text behind it. -/
def OnLine (text : List Char) (start offset column : Nat) (ascii : Bool) (rest : List Char) :
    Prop :=
  ∃ front chars, text = front ++ (chars ++ rest) ∧ byteLength front = start ∧
    offset = start + byteLength chars ∧ chars.length = column ∧
    (ascii = true → byteLength chars = column)

section OnLine

variable {text rest : List Char} {start offset column : Nat} {ascii : Bool}

theorem OnLine.start_le (h : OnLine text start offset column ascii rest) : start ≤ offset := by
  obtain ⟨front, chars, -, -, hoffset, -⟩ := h
  omega

theorem OnLine.offset_le (h : OnLine text start offset column ascii rest) :
    offset ≤ byteLength text := by
  obtain ⟨front, chars, rfl, hstart, hoffset, -⟩ := h
  simp only [byteLength_append]
  omega

theorem onLine_start (text : List Char) : OnLine text 0 0 0 true text :=
  ⟨[], [], rfl, rfl, rfl, rfl, fun _ => rfl⟩

/-- One character on. -/
theorem OnLine.char {c : Char} (h : OnLine text start offset column ascii (c :: rest)) :
    OnLine text start (offset + c.utf8Size) (column + 1) (ascii && c.toNat < 128) rest := by
  obtain ⟨front, chars, htext, hstart, hoffset, hcolumn, hascii⟩ := h
  refine ⟨front, chars ++ [c], by simpa using htext, hstart, ?_, by simp [hcolumn], ?_⟩
  · simp only [byteLength_append, byteLength_cons, byteLength_nil]
    omega
  · intro hboth
    rw [Bool.and_eq_true, decide_eq_true_eq] at hboth
    have hsize : c.utf8Size = 1 := Char.utf8Size_eq_one_iff.2 (Nat.le_of_lt_succ hboth.2)
    rw [byteLength_append, byteLength_cons, byteLength_nil, hascii hboth.1, hsize]

/-- Behind a line break a line starts. -/
theorem OnLine.break {chars : List Char}
    (h : OnLine text start offset column ascii (chars ++ rest)) :
    OnLine text (offset + byteLength chars) (offset + byteLength chars) 0 true rest := by
  obtain ⟨front, before, htext, hstart, hoffset, -, -⟩ := h
  refine ⟨front ++ before ++ chars, [], by simpa using htext, ?_, rfl, rfl, fun _ => rfl⟩
  simp only [byteLength_append]
  omega

/-- The column is counted right, by bytes or by characters. -/
theorem OnLine.column_eq (h : OnLine text start offset column ascii rest) {line : Line}
    (hstart : line.start = start) (hascii : line.ascii = true → ascii = true) :
    line.column text offset = column := by
  obtain ⟨front, chars, htext, hfront, hoffset, hcolumn, hbytes⟩ := h
  have hslice : slice? start offset text = some chars :=
    slice?_eq_some_iff.2 ⟨front, rest, by simpa using htext, hfront, by simp [hfront, hoffset]⟩
  unfold Line.column
  split
  case isTrue h =>
    have := hbytes (hascii h)
    omega
  case isFalse h =>
    rw [hstart, hslice, ← hcolumn]
    rfl

end OnLine

/-- The table of a text goes on with the present line, and the other lines are behind the
    place. -/
theorem Line.tableFrom_eq (start offset : Nat) (ascii : Bool) (cs : List Char) :
    ∃ present later, tableFrom start offset ascii cs = present :: later ∧
      present.start = start ∧ (present.ascii = true → ascii = true) ∧
      ∀ line ∈ later, offset < line.start := by
  fun_induction tableFrom start offset ascii cs with
  | case1 start offset ascii => exact ⟨_, [], rfl, rfl, id, by simp⟩
  | case2 start offset ascii cs ih =>
    obtain ⟨present, later, htable, hstart, -, hlater⟩ := ih
    refine ⟨_, _, rfl, rfl, id, ?_⟩
    rw [htable, List.forall_mem_cons]
    exact ⟨by omega, fun line hline => by have := hlater line hline; omega⟩
  | case3 start offset ascii c cs hcr hbreak ih =>
    obtain ⟨present, later, htable, hstart, -, hlater⟩ := ih
    refine ⟨_, _, rfl, rfl, id, ?_⟩
    rw [htable, List.forall_mem_cons]
    exact ⟨by omega, fun line hline => by have := hlater line hline; omega⟩
  | case4 start offset ascii c cs hcr hbreak ih =>
    obtain ⟨present, later, htable, hstart, hascii, hlater⟩ := ih
    refine ⟨present, later, htable, hstart, fun h => ?_, fun line hline => ?_⟩
    · exact (Bool.and_eq_true _ _ ▸ hascii h).1
    · have := hlater line hline
      omega

namespace LineTable

/-- The position on a line of the table that starts before an offset while the lines behind it
    do not. -/
theorem position_eq {before later : List Line} {present : Line} {text : String} {offset : Nat}
    (hle : offset ≤ byteLength text.toList) (hbefore : ∀ line ∈ before, line.start ≤ offset)
    (hpresent : present.start ≤ offset) (hlater : ∀ line ∈ later, offset < line.start) :
    position ⟨before ++ present :: later⟩ text offset =
      ⟨before.length, present.column text.toList offset⟩ := by
  have htake : later.takeWhile (·.start ≤ offset) = [] := by
    cases later with
    | nil => rfl
    | cons line later =>
      have := hlater line List.mem_cons_self
      exact List.takeWhile_cons_of_neg (by simpa using this)
  have hlines : linesUpTo ⟨before ++ present :: later⟩ offset = before ++ [present] := by
    rw [linesUpTo, List.takeWhile_append_of_pos (by simpa using hbefore),
      List.takeWhile_cons_of_pos (by simpa using hpresent), htake]
  simp only [position, Nat.min_eq_left hle, hlines]
  simp

section Walk

variable {text : String} {before : List Line} {start offset column : Nat} {ascii : Bool}

/-- The position of the place that the rest of the table starts from. -/
theorem position_here {cs : List Char} (hbefore : ∀ l ∈ before, l.start ≤ start)
    (h : OnLine text.toList start offset column ascii cs) :
    position ⟨before ++ Line.tableFrom start offset ascii cs⟩ text offset =
      ⟨before.length, column⟩ := by
  have hstart := h.start_le
  obtain ⟨present, later, htable, hpresent, hascii, hlater⟩ :=
    Line.tableFrom_eq start offset ascii cs
  rw [htable, position_eq h.offset_le (fun l hl => Nat.le_trans (hbefore l hl) hstart)
    (by omega) hlater, h.column_eq hpresent hascii]

/-- Between a carriage return and its line feed, the line has not ended yet. -/
theorem position_inside {cs : List Char} (hbefore : ∀ l ∈ before, l.start ≤ start)
    (h : OnLine text.toList start offset column ascii ('\r' :: '\n' :: cs)) :
    position ⟨before ++ Line.tableFrom start offset ascii ('\r' :: '\n' :: cs)⟩ text
      (offset + 1) = ⟨before.length, column + 1⟩ := by
  have hnext : OnLine text.toList start (offset + 1) (column + 1) ascii ('\n' :: cs) := by
    have := h.char
    rwa [Spot.utf8Size_break (.inl rfl), decide_eq_true (by decide), Bool.and_true] at this
  have hstart := h.start_le
  obtain ⟨present, later, htable, hpresent, -, hlater⟩ :=
    Line.tableFrom_eq (offset + 2) (offset + 2) true cs
  rw [Line.tableFrom, htable, position_eq hnext.offset_le
    (fun l hl => Nat.le_trans (hbefore l hl) (by omega)) (by simp only; omega),
    hnext.column_eq rfl id]
  rw [List.forall_mem_cons]
  exact ⟨by omega, fun l hl => by have := hlater l hl; omega⟩

/-- Behind a line break, the line before it belongs to those that start earlier. -/
theorem start_le_of_mem_append {next : Nat} (hbefore : ∀ l ∈ before, l.start ≤ start)
    (hle : start ≤ next) : ∀ l ∈ before ++ [⟨start, ascii⟩], l.start ≤ next := by
  rw [List.forall_mem_append]
  exact ⟨fun l hl => Nat.le_trans (hbefore l hl) hle, List.forall_mem_singleton.2 hle⟩

/-- A table gives each place its position. -/
theorem position_of_mem {line : Nat} {cs : List Char} (hbefore : ∀ l ∈ before, l.start ≤ start)
    (hline : before.length = line) (h : OnLine text.toList start offset column ascii cs) :
    ∀ p ∈ Spot.list line column offset cs,
      position ⟨before ++ Line.tableFrom start offset ascii cs⟩ text p.offset = p.position := by
  -- The walk is that of the places, and `before` takes up each line that ends on the way.
  fun_induction Spot.list line column offset cs generalizing before start ascii with
  | case1 line column offset =>
    exact List.forall_mem_singleton.2 (hline ▸ position_here hbefore h)
  | case2 line column offset cs ih =>
    simp only [List.forall_mem_cons]
    refine ⟨hline ▸ position_here hbefore h, hline ▸ position_inside hbefore h, ?_⟩
    have hstart := h.start_le
    have hbreak : OnLine text.toList start offset column ascii (['\r', '\n'] ++ cs) := h
    rw [Line.tableFrom, List.append_cons]
    exact ih (start_le_of_mem_append hbefore (by omega)) (by simp [hline]) hbreak.break
  | case3 line column offset c cs hcr hbreak ih =>
    refine List.forall_mem_cons.2 ⟨hline ▸ position_here hbefore h, ?_⟩
    have hstart := h.start_le
    have hchar : OnLine text.toList start offset column ascii ([c] ++ cs) := h
    have hnext := hchar.break
    rw [byteLength_cons, Spot.utf8Size_break hbreak] at hnext
    rw [Line.tableFrom.eq_3 _ _ _ _ _ hcr, if_pos hbreak, List.append_cons]
    exact ih (start_le_of_mem_append hbefore (by omega)) (by simp [hline]) hnext
  | case4 line column offset c cs hcr hbreak ih =>
    refine List.forall_mem_cons.2 ⟨hline ▸ position_here hbefore h, ?_⟩
    rw [Line.tableFrom.eq_3 _ _ _ _ _ hcr, if_neg hbreak]
    exact ih hbefore hline h.char

end Walk

end LineTable

/-! ### Positions in a text -/

/-- The position of a place of a text is the one that is noted there. -/
theorem positionIn_of_mem {source : String} {p : Spot} (h : p ∈ Spot.list 0 0 0 source.toList) :
    positionIn source p.offset = p.position := by
  have hbefore : ∀ l ∈ ([] : List Line), l.start ≤ 0 := List.forall_mem_nil _
  exact LineTable.position_of_mem hbefore rfl (onLine_start source.toList) p h

/-- A boundary is a place of the text. -/
theorem Boundary.exists_spot {source : String} {offset : Nat} (h : Boundary source offset) :
    ∃ p ∈ Spot.list 0 0 0 source.toList, p.offset = offset := by
  obtain ⟨front, rest, hsource, rfl⟩ := h
  obtain ⟨p, hp, hoffset⟩ := Spot.exists_mem_list 0 0 0 hsource
  exact ⟨p, hp, by omega⟩

/-- Of two boundaries the earlier one has the smaller position. -/
theorem positionIn_lt {source : String} {first second : Nat} (hfirst : Boundary source first)
    (hsecond : Boundary source second) (hlt : first < second) :
    positionIn source first < positionIn source second := by
  obtain ⟨p, hp, rfl⟩ := hfirst.exists_spot
  obtain ⟨q, hq, rfl⟩ := hsecond.exists_spot
  rw [positionIn_of_mem hp, positionIn_of_mem hq]
  rcases Spot.ordered_of_mem hp hq with rfl | ⟨-, hposition⟩ | ⟨hoffset, -⟩
  · omega
  · exact hposition
  · omega

/-- Every boundary has a position of its own. -/
theorem positionIn_inj {source : String} {first second : Nat} (hfirst : Boundary source first)
    (hsecond : Boundary source second) (h : positionIn source first = positionIn source second) :
    first = second := by
  have hirrefl : ∀ p : Position, ¬ p < p := by
    intro p hp
    rw [Position.lt_iff] at hp
    omega
  rcases Nat.lt_trichotomy first second with hlt | heq | hlt
  · exact absurd (h ▸ positionIn_lt hfirst hsecond hlt) (hirrefl _)
  · exact heq
  · exact absurd (h ▸ positionIn_lt hsecond hfirst hlt) (hirrefl _)

end TreeGrammar
